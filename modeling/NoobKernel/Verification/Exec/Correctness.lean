import NoobKernel.Verification.Exec.Stack
import NoobKernel.Verification.Files.Counts
import NoobKernel.Verification.Life.Spawn

/-! # The new program

`loadImage` releases the old user pages and maps new ones below the stack. The files that it
opens are closed again. -/

namespace NoobKernel.Exec

open List

section

open Library Vm Outcome

variable {s s' s'' : State} {p : Life.Proc} {pt : ℕ} {files : Files.Heap}

/-- Pages below the stack have been mapped, and the files are `files`. -/
structure Loads (pt : ℕ) (files : Files.Heap) (s s' : State) : Prop where
  mem : Extends pt Low s.mem s'.mem
  obj : s'.obj = s.obj
  files : s'.files = files

theorem openLinker_spec (path : List ℕ) (s : State) : Opens s (openLinker path s) :=
  vfsOpenCwd_retry _ _ _ _

theorem loadLinker_spec (h : Space s.mem pt) (path : List ℕ) :
    ∃ r s', loadLinker pt path s = .ok (r, s') ∧ Loads pt s.files s s' := by
  unfold loadLinker
  rcases openLinker_spec path s with ⟨e, s1, heq, hcalm⟩ | ⟨f, s1, heq, hmem, hobj, hopen⟩
  · rw [heq]
    exact ⟨none, s1, rfl, Extends.of_eq h hcalm.mem, hcalm.obj, hcalm.files⟩
  rw [heq]
  dsimp only
  set r := fileRead ehdrSize f
  have hread : r.2.file = f.file := fileRead_file ehdrSize f
  split
  · rw [(hopen.congr s1 hread rfl).filePut, ok_bind]
    exact ⟨none, _, rfl, Extends.of_eq h hmem, hobj, rfl⟩
  have hsame := (loadElf_same pt interpBase (parseEhdr (r.1.getD [])) r.2 s1.mem).trans hread
  have hext := loadElf_extends (hmem ▸ h) (by decide : pageSize ∣ interpBase)
    (parseEhdr (r.1.getD [])) r.2
  split
  next e f' mem heq' =>
    rw [heq'] at hsame hext
    rw [(hopen.congr { s1 with mem } hsame rfl).filePut, ok_bind]
    exact ⟨none, _, rfl, hmem ▸ hext, hobj, rfl⟩
  next maxVa f' mem heq' =>
    rw [heq'] at hsame hext
    rw [(hopen.congr { s1 with mem } hsame rfl).filePut, ok_bind]
    exact ⟨_, _, rfl, hmem ▸ hext, hobj, rfl⟩

theorem Loads.mapTls (h : Loads pt files s s') (tls : Tls) :
    Loads pt files s { s' with mem := (mapTls pt tls s'.mem).2 } :=
  ⟨h.mem.trans (mapTls_extends h.mem.space tls), h.obj, h.files⟩

theorem loadImage_spec (h : Space s.mem p.pagetable) {x : Prepared}
    (hopen : IsOpen files x.file s) :
    ∃ r s', loadImage p x s = .ok (r, s') ∧ ∃ m, NoUserPage p.pagetable m ∧
      Loads p.pagetable files { s with mem := m } s' := by
  obtain ⟨m, hfree, hspace, hgone⟩ := h.free
  have hsame := loadElf_same p.pagetable 0 x.ehdr x.file m
  have hext := loadElf_extends hspace (by decide : pageSize ∣ 0) x.ehdr x.file
  rw [loadImage, hfree, ok_bind]
  split
  next e f mem heq =>
    rw [heq] at hsame hext
    rw [(hopen.congr { s with mem } hsame rfl).filePut, ok_bind]
    exact ⟨none, _, rfl, m, hgone, hext, rfl, rfl⟩
  next maxVa f mem heq =>
    rw [heq] at hsame hext
    dsimp only
    have hsame' := (phdrAddr_same x.ehdr 0 f).trans hsame
    rw [(hopen.congr { s with mem } hsame' rfl).filePut, ok_bind]
    set s1 := dentryPut (phdrAddr x.ehdr 0 f).2.dentry { { s with mem } with files }
    have hloads : Loads p.pagetable files { s with mem := m } s1 := ⟨hext, rfl, rfl⟩
    split
    · exact ⟨_, _, rfl, m, hgone, hloads.mapTls x.tls⟩
    obtain ⟨r, s2, hrun, hlinker⟩ := loadLinker_spec (s := s1) hext.space x.interpPath
    have hloads2 : Loads p.pagetable files { s with mem := m } s2 :=
      ⟨hext.trans hlinker.mem, hlinker.obj, hlinker.files⟩
    rw [hrun, ok_bind]
    cases r with
    | none => exact ⟨none, s2, rfl, m, hgone, hloads2⟩
    | some linker => exact ⟨_, _, rfl, m, hgone, hloads2.mapTls x.tls⟩

end

/-! ## The point of no return

`sys_execve` returns an error after it has released the old user memory exactly if an allocation
of `install` fails, which the one for the pointers to the strings does if there is no string. -/

open Library Life Outcome

variable {s s' s1 : State} {p : Proc} {x : Prepared} {image : Image} {u0 : ℕ → Bool} {l : List ℕ}

/-! ## The last part -/

theorem Prepared.argvSize_ne_zero (x : Prepared) : x.argvSize ≠ 0 := by
  unfold argvSize
  split
  next hscript =>
    have hpos : x.args.length ≠ 0 := by
      unfold args
      split
      next hnone =>
        rw [hnone] at hscript
        cases hscript
      · exact Nat.succ_ne_zero _
      · exact Nat.succ_ne_zero _
    omega
  · omega

/-- There is something to be stored on the stack. -/
def Prepared.HasStrings (x : Prepared) : Prop :=
  x.script.isSome ∨ strings x.argv ≠ [] ∨ strings x.envp ≠ []

instance (x : Prepared) : Decidable x.HasStrings := inferInstanceAs (Decidable (_ ∨ _ ∨ _))

theorem Prepared.hasStrings_iff (x : Prepared) :
    x.HasStrings ↔ (x.args.length + (strings x.envp).length) * 8 ≠ 0 := by
  unfold HasStrings args
  split
  next hnone => simp [hnone, length_eq_zero_iff, ← not_and_or]
  next hsome => simp [hsome]
  next hsome => simp [hsome]

/-- What `install` needs. -/
structure Supplied (p : Proc) (x : Prepared) (s : State) : Prop where
  pages : Vm.Plenty (stackPages + Vm.missing stackBot 2 p.pagetable s.mem) s.mem
  objects : Room 2 s.obj
  strings : x.HasStrings

instance (p : Proc) (x : Prepared) (s : State) : Decidable (Supplied p x s) :=
  decidable_of_iff (_ ∧ _ ∧ _) ⟨fun h => ⟨h.1, h.2.1, h.2.2⟩, fun h => ⟨h.1, h.2, h.3⟩⟩

theorem install_spec (h : Vm.Space s.mem p.pagetable)
    (hnot : ∀ a ∈ stackVas, ¬ Vm.IsMapped p.pagetable a s.mem) (hx : x.Fits)
    (hs : Stock u0 (x.tls.objects ++ l) s.obj.used) (image : Image) :
    (∃ start s', install p x image s = .ok (.started image start, s') ∧ Supplied p x s) ∨
      ∃ e s', install p x image s = .ok (.error e, s') ∧ ¬ Supplied p x s := by
  unfold install
  rcases mapStack_spec h hnot with ⟨hzero, hplenty, hstacked⟩ | ⟨hne, hplenty⟩
  swap
  · rw [if_pos hne]
    exact Or.inr ⟨_, _, rfl, fun hsup => hplenty hsup.pages⟩
  rw [if_neg (not_not.mpr hzero), kmalloc_pos x.argvSize_ne_zero]
  rcases alloc_stock hs with ⟨obj, hnone, -, hroom⟩ | ⟨argvStrs, obj, hsome, hs1, hroom⟩
  · rw [hnone]
    exact Or.inr ⟨_, _, rfl, fun hsup => hroom 1 hsup.objects⟩
  rw [hsome]
  dsimp only
  by_cases hstr : x.HasStrings
  swap
  · have hsize : (x.args.length + (strings x.envp).length) * 8 = 0 :=
      not_not.mp fun hpos => hstr (x.hasStrings_iff.mpr hpos)
    obtain ⟨obj, hrun, -⟩ := kfree_stock hs1 mem_cons_self
    rw [kmalloc, if_pos hsize]
    dsimp only
    rw [hrun, ok_bind]
    exact Or.inr ⟨_, _, rfl, fun hsup => hstr hsup.strings⟩
  rw [kmalloc_pos (x.hasStrings_iff.mp hstr)]
  rcases alloc_stock hs1 with ⟨obj2, hnone, hs2, hroom'⟩ | ⟨argStrPtrs, obj2, hsome', hs2, hroom'⟩
  · obtain ⟨obj3, hrun, -⟩ := kfree_stock hs2 mem_cons_self
    rw [hnone]
    dsimp only
    rw [hrun, ok_bind]
    exact Or.inr ⟨_, _, rfl, fun hsup => hroom' 0 ((hroom 1).mp hsup.objects)⟩
  obtain ⟨sp, hsp⟩ := buildStack_spec hstacked image hx.args hx.short hx.env hx.shortEnv
  obtain ⟨obj1, hrun1, hs3⟩ := kfree_stock (hs2.perm (List.Perm.swap _ _ _)) mem_cons_self
  rw [erase_cons_head] at hs3
  obtain ⟨obj2, hrun2, hs4⟩ := kfree_stock hs3 mem_cons_self
  rw [erase_cons_head] at hs4
  have htls : ∃ obj3, x.tls.data.elim (.ok obj2) (fun data => kfree data.1 obj2) = .ok obj3 := by
    unfold Tls.objects at hs4
    cases hdata : x.tls.data with
    | none => exact ⟨obj2, rfl⟩
    | some data =>
      rw [hdata] at hs4
      obtain ⟨obj3, hrun3, -⟩ := kfree_stock hs4 mem_cons_self
      exact ⟨obj3, hrun3⟩
  obtain ⟨obj3, hrun3⟩ := htls
  rw [hsome']
  dsimp only
  rw [hrun1, ok_bind, hrun2, ok_bind, hsp]
  dsimp only
  rw [hrun3, ok_bind]
  exact Or.inl ⟨_, _, rfl, hplenty, (hroom 1).mpr ((hroom' 0).mpr trivial), hstr⟩

theorem Loads.noStack {m : Vm.Memory} {pt : ℕ} {files : Files.Heap}
    (h : Loads pt files { s with mem := m } s') (hgone : Vm.NoUserPage pt m) :
    ∀ a ∈ stackVas, ¬ Vm.IsMapped pt a s'.mem := by
  intro a ha hv
  obtain ⟨hdvd, hle, hlt⟩ := mem_pagesOf (by decide) ha
  have hlow : ¬ Low a := by
    unfold Low Vm.vpn
    norm_num at hle hlt ⊢
    omega
  rw [Vm.IsMapped, h.mem.same a (Or.inl hlow)] at hv
  exact hgone a (isUserPage_of_lt hdvd hlt) hv

/-! ## The system call -/

/-- The table of descriptors of a process, with its objects and its references. -/
def OwnsTable (p : Proc) (s : State) : Prop :=
  ∀ t, p.fdTable = some t → t.table.Wf ∧ t.fds ≠ t.fdt ∧ s.obj.used t.fds = true ∧
    s.obj.used t.fdt = true ∧ ∃ refs, s.files.Counts (t.table.files + refs)

theorem OwnsTable.congr (h : OwnsTable p s) (hfiles : s'.files = s.files)
    (hused : ∀ a, s.obj.used a = true → s'.obj.used a = true) : OwnsTable p s' := by
  intro t ht
  obtain ⟨hwf, hne, hfds, hfdt, refs, hcounts⟩ := h t ht
  exact ⟨hwf, hne, hused _ hfds, hused _ hfdt, refs, hfiles ▸ hcounts⟩

theorem execveDie_spec (h : OwnsTable p s) : ∃ p' s', execveDie p s = .ok (.died, p', s') := by
  unfold execveDie fdTableFree
  split
  · exact ⟨_, _, rfl⟩
  next t ht =>
    obtain ⟨hwf, hne, hfds, hfdt, refs, hcounts⟩ := h t ht
    obtain ⟨files, hrun, -⟩ := hcounts.fdTableFree hwf
    have hfdt' : Function.update s.obj.used t.fds false t.fdt = true := by
      rwa [Function.update_of_ne hne.symm]
    rw [hrun, ok_bind, kfree, if_pos hfds, ok_bind, kfree, if_pos hfdt']
    exact ⟨_, _, rfl⟩

/-- How the system call ends: it is refused, or ends the process, or starts the program, or
returns an error when the program has been loaded but cannot be installed. -/
inductive Course (filename argv envp : ℕ) (p : Proc) (s : State) : Result → State → Prop
  | refused {e : Err} {s' : State} (hprep : prepare filename argv envp p s = .ok (.error e, s'))
      (hmem : s'.mem = s.mem) : Course filename argv envp p s (.error e) s'
  | died {x : Prepared} {s1 s2 s' : State}
      (hprep : prepare filename argv envp p s = .ok (.ok x, s1))
      (hload : loadImage p x s1 = .ok (none, s2)) : Course filename argv envp p s .died s'
  | started {x : Prepared} {s1 s2 s' : State} {image : Image} {start : Start}
      (hprep : prepare filename argv envp p s = .ok (.ok x, s1))
      (hload : loadImage p x s1 = .ok (some image, s2)) (hsup : Supplied p x s2) :
      Course filename argv envp p s (.started image start) s'
  | stuck {x : Prepared} {s1 s2 s' : State} {image : Image} {e : Err}
      (hprep : prepare filename argv envp p s = .ok (.ok x, s1))
      (hload : loadImage p x s1 = .ok (some image, s2)) (hsup : ¬ Supplied p x s2) :
      Course filename argv envp p s (.error e) s'

theorem sysExecve_spec (hspace : Vm.Space s.mem p.pagetable) (htable : OwnsTable p s)
    (filename argv envp : ℕ) : ∃ r p' s', sysExecve filename argv envp p s = .ok (r, p', s') ∧
      Course filename argv envp p s r s' := by
  unfold sysExecve
  rcases prepare_spec filename argv envp p s with
    ⟨e, s1, hprep, hmem⟩ | ⟨x, s1, hprep, hmem, hopen, hstock, hfits⟩
  · rw [hprep, ok_bind]
    exact ⟨_, _, _, rfl, .refused hprep hmem⟩
  rw [← hmem] at hspace
  obtain ⟨r, s2, hload, m, hgone, hloads⟩ := loadImage_spec hspace hopen
  rw [hprep, ok_bind]
  dsimp only
  rw [hload, ok_bind]
  cases r with
  | none =>
    have howns : OwnsTable p s2 := htable.congr hloads.files fun a ha => by
      rw [hloads.obj]
      exact hstock.extra.kept ha
    obtain ⟨p', s', hdie⟩ := execveDie_spec howns
    exact ⟨_, p', s', hdie, .died hprep hload⟩
  | some image =>
    have hstock2 : Stock s.obj.used (x.tls.objects ++ (objectsOf x.envp ++ objectsOf x.argv))
        s2.obj.used := hloads.obj ▸ hstock
    rcases install_spec hloads.mem.space (hloads.noStack hgone) hfits hstock2 image with
      ⟨start, s3, hinst, hsup⟩ | ⟨e, s3, hinst, hsup⟩
    · dsimp only
      rw [hinst, ok_bind]
      exact ⟨_, _, _, rfl, .started hprep hload hsup⟩
    · dsimp only
      rw [hinst, ok_bind]
      exact ⟨_, _, _, rfl, .stuck hprep hload hsup⟩

/-- The call returns. It returns an error only before it has released the old user memory, and
then the memory is as it was. -/
def PointOfNoReturn (filename argv envp : ℕ) (p : Proc) (s : State) : Prop :=
  ∃ r p' s', sysExecve filename argv envp p s = .ok (r, p', s') ∧
    ∀ e, r = .error e → prepare filename argv envp p s = .ok (.error e, s') ∧ s'.mem = s.mem

/-- When a program has been loaded, it can be installed. What the loader takes depends on the files,
so what has to be left is said for the state behind it. -/
def NeverStuck (filename argv envp : ℕ) (p : Proc) (s : State) : Prop :=
  ∀ x s1 image s2, prepare filename argv envp p s = .ok (.ok x, s1) →
    loadImage p x s1 = .ok (some image, s2) → Supplied p x s2

theorem PointOfNoReturn.neverStuck {filename argv envp : ℕ} (hspace : Vm.Space s.mem p.pagetable)
    (htable : OwnsTable p s) (h : PointOfNoReturn filename argv envp p s) :
    NeverStuck filename argv envp p s := by
  obtain ⟨r, p', s', hrun, hback⟩ := h
  obtain ⟨r', p'', s'', hrun', hcourse⟩ := sysExecve_spec hspace htable filename argv envp
  cases hrun.symm.trans hrun'
  intro x s1 image s2 hprep hload
  cases hcourse with
  | refused hprep' => cases hprep.symm.trans hprep'
  | died hprep' hload' =>
    cases hprep.symm.trans hprep'
    cases hload.symm.trans hload'
  | started hprep' hload' hsup =>
    cases hprep.symm.trans hprep'
    cases hload.symm.trans hload'
    exact hsup
  | stuck => cases hprep.symm.trans (hback _ rfl).1

/-- The call does not return to the old program exactly if it is never stuck. -/
theorem execve_point_of_no_return_iff (filename argv envp : ℕ) (p : Proc) (s : State)
    (hspace : Vm.Space s.mem p.pagetable) (htable : OwnsTable p s) :
    PointOfNoReturn filename argv envp p s ↔ NeverStuck filename argv envp p s := by
  refine ⟨fun h => h.neverStuck hspace htable, fun hnever => ?_⟩
  obtain ⟨r, p', s', hrun, hcourse⟩ := sysExecve_spec hspace htable filename argv envp
  refine ⟨r, p', s', hrun, ?_⟩
  rintro e rfl
  cases hcourse with
  | refused hprep hmem => exact ⟨hprep, hmem⟩
  | stuck hprep hload hsup => exact absurd (hnever _ _ _ _ hprep hload) hsup

/-! ## A small program -/

/-- The file of a program with one segment, which has no contents. -/
def tinyProgram : List ℕ :=
  [0x7f, 69, 76, 70] ++ List.replicate 14 0 ++ [0xf3] ++ List.replicate 13 0 ++ [64] ++
    List.replicate 21 0 ++ [56, 0, 1] ++ List.replicate 7 0 ++ [1] ++ List.replicate 39 0 ++ [1] ++
    List.replicate 15 0

/-- A process that has stored the path `/a` at `0x10000` and the address of the path behind it. -/
def pathMemory : Vm.Memory :=
  (Vm.copyout (pmStart + pageSize) 0x10000 [47, 97, 0, 0, 0, 0, 0, 0, 0, 0, 1]
    (mapFresh (pmStart + pageSize) (Vm.pteR ||| Vm.pteW ||| Vm.pteU) 0x10000
      { (Vm.emptyProcess 0).mem with
        answers := (List.range 160).map (fun i => pmStart + (i + 2) * pageSize) }).2).2

theorem pathMemory_space : Vm.Space pathMemory (pmStart + pageSize) := by
  have hperm : Vm.IsPerm (Vm.pteR ||| Vm.pteW ||| Vm.pteU) := ⟨by decide, by decide⟩
  have h := (Vm.emptyProcess_space 0).1
  have hmore : Vm.Space { (Vm.emptyProcess 0).mem with
      answers := (List.range 160).map (fun i => pmStart + (i + 2) * pageSize) }
      (pmStart + pageSize) := h.untouched (h.spaces.untouched (fun _ _ => rfl) fun _ => id)
  exact ((hmore.mapFresh hperm 0x10000).1.copyout 0x10000 _).1

/-- The path leads to the program, and the allocators have all that is needed. -/
def tinyState : State where
  toKernel := { oneProcess [10, 11] (some 7) with
    mem := pathMemory, obj := ⟨fun a => a = 2 ∨ a = 3, [10, 11, 12, 13, 14]⟩ }
  ns := ⟨fun _ => true, id, fun _ => none⟩
  lookups := [.ok 8]
  opens := [.ok (5, fun _ pos n => some (((tinyProgram.drop pos).take n).map UInt8.ofNat))]

theorem tinyState_ownsTable : OwnsTable theProcess tinyState := by
  rintro t ⟨⟩
  refine ⟨emptyTable_wf, by decide, rfl, rfl, 0, ?_⟩
  exact ⟨⟨fun f file hf => (by cases hf), fun f _ => rfl⟩,
    ⟨fun f file e k hf => (by cases hf), fun f g file file' e k hf => (by cases hf),
      fun e k hne => (by cases e <;> exact absurd rfl hne)⟩⟩

/-- The program is loaded, and then `P` holds. -/
def Loaded (argv : ℕ) (p : Proc) (s : State) (P : Prepared → State → Prop) : Prop :=
  ∃ x s1 image s2, prepare 0x10000 argv 0 p s = .ok (.ok x, s1) ∧
    loadImage p x s1 = .ok (some image, s2) ∧ P x s2

theorem loaded_of_checks {argv : ℕ} {P : Prepared → State → Prop} [∀ x s, Decidable (P x s)]
    (h : (prepare 0x10000 argv 0 p s).checks (fun r => r.1.toOption.any fun x =>
      (loadImage p x r.2).checks (fun y => y.1.isSome && P x y.2)) = true) :
    Loaded argv p s P := by
  obtain ⟨⟨r, s1⟩, hprep, hr⟩ := exists_of_checks h
  cases r with
  | error e => cases hr
  | ok x =>
    obtain ⟨⟨image, s2⟩, hload, hsome⟩ := exists_of_checks hr
    rw [Bool.and_eq_true, decide_eq_true_eq] at hsome
    obtain ⟨image, rfl⟩ := Option.isSome_iff_exists.mp hsome.1
    exact ⟨x, s1, image, s2, hprep, hload, hsome.2⟩

/-- The program is started with its path as the only string. -/
theorem execve_point_of_no_return_started : Vm.Space tinyState.mem theProcess.pagetable ∧
    OwnsTable theProcess tinyState ∧ Loaded 0x10008 theProcess tinyState (Supplied theProcess) ∧
      PointOfNoReturn 0x10000 0x10008 0 theProcess tinyState := by
  have hloaded : Loaded 0x10008 theProcess tinyState (Supplied theProcess) := by
    apply loaded_of_checks
    decide +kernel
  refine ⟨pathMemory_space, tinyState_ownsTable, hloaded,
    (execve_point_of_no_return_iff _ _ _ _ _ pathMemory_space tinyState_ownsTable).mpr ?_⟩
  obtain ⟨x, s1, image, s2, hprep, hload, hsup⟩ := hloaded
  intro x' s1' image' s2' hprep' hload'
  cases hprep.symm.trans hprep'
  cases hload.symm.trans hload'
  exact hsup

/-- Without arguments and environment the error comes after the old memory has been released. -/
theorem execve_without_strings_returns : ∃ filename p s, Vm.Space s.mem p.pagetable ∧
    OwnsTable p s ∧ ¬ PointOfNoReturn filename 0 0 p s := by
  refine ⟨0x10000, theProcess, tinyState, pathMemory_space, tinyState_ownsTable, fun h => ?_⟩
  obtain ⟨x, s1, image, s2, hprep, hload, hnone⟩ :
      Loaded 0 theProcess tinyState fun x _ => ¬ x.HasStrings := by
    apply loaded_of_checks
    decide +kernel
  exact hnone (h.neverStuck pathMemory_space tinyState_ownsTable x s1 image s2 hprep hload).strings

end NoobKernel.Exec
