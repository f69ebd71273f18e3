import NoobKernel.Verification.Exec.Open
import NoobKernel.Verification.Exec.Load

/-! # Before the point of no return

`prepare` changes no memory. When it succeeds, it has opened the program and holds the strings
and the thread-local data in the kernel heap. -/

namespace NoobKernel.Exec

open Library Life List Outcome Nat

variable {s s' : State} {p : Proc} {u0 : ℕ → Bool} {l : List ℕ} {h : Objects}

theorem openInterpreter_spec (path script : List ℕ) (p : Proc) (s : State) :
    Opens s (openInterpreter path script p s) :=
  vfsOpenCwd_retry _ _ _ _

/-- The strings that `openProgram` finds fit their buffers. -/
structure Program.Fits (prog : Program) : Prop where
  path : prog.path.length < 256
  script : ∀ x ∈ prog.script, x.1.length < 256 ∧ x.2.length < 256

theorem length_cstring_le (buf : List ℕ) : (cstring buf).length ≤ buf.length :=
  (List.takeWhile_prefix _).length_le

theorem parseShebang_length {header interp arg : List ℕ}
    (h : parseShebang header = some (interp, arg)) : interp.length < 256 ∧ arg.length < 256 := by
  unfold parseShebang at h
  dsimp only at h
  split at h
  · cases h
  split at h
  · cases h
  obtain ⟨rfl, rfl⟩ := some_mk_inj h
  refine ⟨lt_of_le_of_lt (length_cstring_le _) ?_, lt_of_le_of_lt (length_cstring_le _) ?_⟩
  · rw [length_take]
    omega
  · split
    · rw [length_take]
      omega
    · exact succ_pos _

/-- The program is open, or nothing is left of the attempt. -/
theorem openProgram_spec (filename : ℕ) (p : Proc) (s : State) :
    (∃ e s', openProgram filename p s = .ok (.error e, s') ∧ Calm s s') ∨
      ∃ prog s', openProgram filename p s = .ok (.ok prog, s') ∧ s'.mem = s.mem ∧
        s'.obj = s.obj ∧ IsOpen s.files prog.file s' ∧ prog.Fits := by
  unfold openProgram
  split
  · exact Or.inl ⟨_, s, rfl, Calm.refl s⟩
  next path hpath =>
    have hlen := copyinstr_length hpath
    rcases vfsOpenCwd_spec path (baseOf path p) s with
      ⟨e, s1, heq, hcalm⟩ | ⟨f, s1, heq, hmem, hobj, hopen⟩
    · rw [heq]
      exact Or.inl ⟨e, s1, rfl, hcalm⟩
    rw [heq]
    have hread : IsOpen s.files (readHeader f).2 s1 := hopen.congr _ (fileRead_file 256 f) rfl
    dsimp only
    split
    · rw [hread.filePut, ok_bind]
      set s2 := dentryPut (readHeader f).2.dentry { s1 with files := s.files }
      have hcalm : Calm s s2 := ⟨hmem, hobj, rfl⟩
      split
      · exact Or.inl ⟨_, s2, rfl, hcalm⟩
      next interp arg hshebang =>
        obtain ⟨hinterp, harg⟩ := parseShebang_length hshebang
        rcases Opens.of_calm hcalm (openInterpreter_spec interp path p s2) with
          ⟨e, s3, heq', hcalm'⟩ | ⟨f', s3, heq', hmem', hobj', hopen'⟩
        · rw [heq']
          exact Or.inl ⟨e, s3, rfl, hcalm'⟩
        rw [heq']
        refine Or.inr ⟨_, s3, rfl, hmem', hobj', hopen'.congr _ (fileRead_file 256 f') rfl,
          hinterp, ?_⟩
        rintro x ⟨⟩
        exact ⟨harg, hlen⟩
    · exact Or.inr ⟨_, s1, rfl, hmem, hobj, hread, hlen, fun x hx => by cases hx⟩

/-! ## Thread-local data -/

/-- The object that holds thread-local data. -/
def Tls.objects (tls : Tls) : List ℕ := tls.data.elim [] fun data => [data.1]

theorem scanTls_spec (ehdr : Ehdr) (is : List ℕ) : ∀ f h, Stock u0 l h.used →
    (scanTls ehdr is f h).2.1.file = f.file ∧
      Stock u0 ((scanTls ehdr is f h).1.objects ++ l) (scanTls ehdr is f h).2.2.used := by
  induction is with
  | nil => exact fun f h hs => ⟨rfl, hs⟩
  | cons i is ih =>
    intro f h hs
    have hphdr := readPhdr_same ehdr i f
    unfold scanTls
    split
    next heq =>
      rw [heq] at hphdr
      exact ⟨(ih _ h hs).1.trans hphdr, (ih _ h hs).2⟩
    next phdr f1 heq =>
      rw [heq] at hphdr
      split
      · dsimp only
        rcases kmalloc_stock hs phdr.filesz with ⟨h', hnone, hs'⟩ | ⟨a, h', hsome, hs'⟩
        · rw [hnone]
          exact ⟨hphdr, hs'⟩
        · rw [hsome]
          exact ⟨by simpa using hphdr, hs'⟩
      · exact ⟨(ih _ h hs).1.trans hphdr, (ih _ h hs).2⟩

/-! ## The whole part -/

/-- The objects that the preparation has taken. -/
def Prepared.objects (x : Prepared) : List ℕ :=
  x.tls.objects ++ (objectsOf x.envp ++ objectsOf x.argv)

/-- The strings of a new program fit into its stack. -/
structure Prepared.Fits (x : Prepared) : Prop where
  args : x.args.length ≤ 64
  short : Short x.args
  env : (strings x.envp).length ≤ 64
  shortEnv : Short (strings x.envp)

theorem Program.Fits.args {prog : Program} (h : prog.Fits) {x : Prepared}
    (hpath : x.path = prog.path) (hscript : x.script = prog.script)
    (hargv : (strings x.argv).length ≤ 32) (hshort : Short (strings x.argv)) :
    x.args.length ≤ 64 ∧ Short x.args := by
  have htail : Short (strings x.argv).tail := fun str hstr => hshort str (mem_of_mem_tail hstr)
  have hlen : (strings x.argv).tail.length ≤ 32 := by
    rw [length_tail]
    omega
  have hp := h.path
  have hs := h.script
  rw [← hpath] at hp
  rw [← hscript] at hs
  unfold Prepared.args
  split
  · exact ⟨hargv.trans (by decide), hshort⟩
  next script heq =>
    have hfit := hs _ heq
    refine ⟨by simp only [length_cons]; omega, ?_⟩
    simp only [Short, forall_mem_cons]
    exact ⟨hp, hfit.2, htail⟩
  next arg script _ heq =>
    have hfit := hs _ heq
    refine ⟨by simp only [length_cons]; omega, ?_⟩
    simp only [Short, forall_mem_cons]
    exact ⟨hp, hfit.1, hfit.2, htail⟩

theorem giveUp_spec {f : OpenFile} {files : Files.Heap} (h : IsOpen files f s) (e : Err) :
    ∃ s', giveUp f e s = .ok (.error e, s') ∧ s'.mem = s.mem := by
  refine ⟨dentryPut f.dentry { s with files }, ?_, rfl⟩
  rw [giveUp, h.filePut, ok_bind]

theorem prepare_spec (filename argv envp : ℕ) (p : Proc) (s : State) :
    (∃ e s', prepare filename argv envp p s = .ok (.error e, s') ∧ s'.mem = s.mem) ∨
    ∃ x s', prepare filename argv envp p s = .ok (.ok x, s') ∧ s'.mem = s.mem ∧
      IsOpen s.files x.file s' ∧ Stock s.obj.used x.objects s'.obj.used ∧ x.Fits := by
  unfold prepare
  rcases openProgram_spec filename p s with
    ⟨e, s1, hrun, hcalm⟩ | ⟨prog, s1, hrun, hmem, hobj, hopen, hfits⟩
  · rw [hrun, ok_bind]
    exact Or.inl ⟨e, s1, rfl, hcalm.mem⟩
  rw [hrun, ok_bind]
  dsimp only
  have hs1 : Stock s.obj.used [] s1.obj.used := hobj ▸ Stock.nil
  set ehdr := parseEhdr prog.header
  split
  · obtain ⟨s2, hrun2, hmem2⟩ := giveUp_spec hopen ⟨-enoexec, by decide⟩
    exact Or.inl ⟨_, s2, hrun2, hmem2.trans hmem⟩
  have hscan := scanInterp_same ehdr (List.range ehdr.phnum) prog.file
  set r := scanInterp ehdr (List.range ehdr.phnum) prog.file
  rcases copyinStrArray_spec hs1 p.pagetable argv 32 s1.mem with
    ⟨e, obj, hrun2, hs2⟩ | ⟨savedArgv, obj, hrun2, hs2, hargv, hshort⟩
  · rw [hrun2, ok_bind]
    obtain ⟨s2, hrun3, hmem3⟩ := giveUp_spec (hopen.congr { s1 with obj } hscan rfl) e
    exact Or.inl ⟨e, s2, hrun3, hmem3.trans hmem⟩
  rw [hrun2, ok_bind]
  dsimp only
  rw [append_nil] at hs2
  rcases copyinStrArray_spec hs2 p.pagetable envp 32 s1.mem with
    ⟨e, obj', hrun3, hs3⟩ | ⟨savedEnvp, obj', hrun3, hs3, henvp, hshort'⟩
  · rw [hrun3, ok_bind]
    obtain ⟨s2, hrun4, hmem4⟩ := giveUp_spec (hopen.congr { s1 with obj := obj' } hscan rfl) e
    exact Or.inl ⟨e, s2, hrun4, hmem4.trans hmem⟩
  rw [hrun3, ok_bind]
  obtain ⟨htls, hs4⟩ := scanTls_spec ehdr (List.range ehdr.phnum) r.2 obj' hs3
  set t := scanTls ehdr (List.range ehdr.phnum) r.2 obj'
  set x : Prepared := ⟨t.2.1, ehdr, prog.path, prog.script, r.1, savedArgv, savedEnvp, t.1⟩
  obtain ⟨hargs, hshortArgs⟩ := hfits.args (x := x) rfl rfl hargv hshort
  exact Or.inr ⟨x, _, rfl, hmem, hopen.congr _ (htls.trans hscan) rfl, hs4,
    hargs, hshortArgs, henvp.trans (by decide), hshort'⟩

/-! ## The stack of the new program

The stack has room for all that `install` stores on it. So the part fails exactly if an
allocation does. -/

open Vm

variable {m m' : Memory} {pt va perm sp : ℕ}

/-! ## Its pages -/

abbrev stackVas : List ℕ := pagesOf stackBot userTop

theorem pagesOf_nodup (start stop : ℕ) : (pagesOf start stop).Nodup := by
  refine List.Nodup.map (fun i j hij => ?_) nodup_range
  norm_num at hij
  exact hij

theorem mem_stackVas {a : ℕ} (ha : a ∈ stackVas) :
    pageSize ∣ a ∧ a < userTop ∧ indices a 2 = indices stackBot 2 := by
  obtain ⟨hdvd, hle, hlt⟩ := mem_pagesOf (by decide) ha
  refine ⟨hdvd, hlt, ?_⟩
  norm_num at hle hlt
  have hpx2 : px 2 a = px 2 stackBot := by
    apply Fin.ext
    rw [px_val, px_val]
    norm_num
    omega
  have hpx1 : px 1 a = px 1 stackBot := by
    apply Fin.ext
    rw [px_val, px_val]
    norm_num
    omega
  simp only [indices, hpx2, hpx1]

theorem stackVas_page (hle : stackBot ≤ va) (hlt : va < userTop) :
    ∃ a ∈ stackVas, va / pageSize = a / pageSize := by
  refine ⟨stackBot + (va - stackBot) / pageSize * pageSize, ?_, ?_⟩
  · refine mem_map.mpr ⟨(va - stackBot) / pageSize, ?_, rfl⟩
    norm_num at hle hlt ⊢
    omega
  · norm_num at hle hlt ⊢
    omega

theorem userPte_leafPte {pa : ℕ} (hpa : IsPage pa) (hperm : IsPerm perm)
    (huser : perm &&& pteU ≠ 0) : UserPte (leafPte pa perm) := by
  obtain ⟨hvalid, hleaf, -⟩ := leafPte_frame hpa hperm.lt hperm.access
  refine ⟨hvalid, fun hzero => huser ?_, hleaf⟩
  rw [leafPte_eq, and_or_distrib_right, or_eq_zero_iff, leafFlags] at hzero
  simp only [and_or_distrib_right, or_eq_zero_iff] at hzero
  exact hzero.2.1.1.1

structure Stacked (pt : ℕ) (m : Memory) : Prop where
  space : Space m pt
  stack : Designates pt m stackBot (stackPages * pageSize)

theorem mapStack_spec (h : Space m pt) (hnot : ∀ a ∈ stackVas, ¬ IsMapped pt a m) :
    ((mapStack pt m).1 = 0 ∧ Plenty (stackPages + missing stackBot 2 pt m) m ∧
      Stacked pt (mapStack pt m).2) ∨
    (mapStack pt m).1 ≠ 0 ∧ ¬ Plenty (stackPages + missing stackBot 2 pt m) m := by
  have hperm : IsPerm (pteR ||| pteW ||| pteU) := ⟨by decide, by decide⟩
  have hzero : walkaddr pt stackBot m = 0 := by
    rw [walkaddr_eq (by decide), if_neg fun huser => ?_]
    exact hnot stackBot (mem_map.mpr ⟨0, by decide, rfl⟩) huser.1
  have heq : mapStack pt m = forEach (mapFresh pt (pteR ||| pteW ||| pteU)) stackVas m := by
    rw [mapStack, if_pos hzero]
    rfl
  rw [heq]
  have hiff := mapPages_plenty_iff hperm stackVas (pagesOf_nodup _ _) (fun a ha => mem_stackVas ha)
    h hnot (ne_nil_of_mem (mem_map.mpr ⟨0, by decide, rfl⟩))
  have hlen : stackVas.length = stackPages := by norm_num [pagesOf]
  obtain ⟨hext, hres⟩ := mapPages_spec hperm stackVas h
  rw [hlen] at hiff
  rcases hres with herr | ⟨hok, hptes⟩
  · have hne : (forEach (mapFresh pt (pteR ||| pteW ||| pteU)) stackVas m).1 ≠ 0 := by
      rw [herr]
      decide
    exact Or.inr ⟨hne, fun hplenty => hne (hiff.mpr hplenty)⟩
  · refine Or.inl ⟨hok, hiff.mp hok, hext.space, fun i hi => ?_⟩
    have hlt : stackBot + i < userTop := by
      norm_num at hi ⊢
      omega
    obtain ⟨a, ha, hpage⟩ := stackVas_page (le_add_right stackBot i) hlt
    rw [userVa_congr hpage]
    obtain ⟨pa, hpa, hpte⟩ := hptes a ha
    have halt := (mem_stackVas ha).2.1
    refine ⟨halt, ?_⟩
    rw [walkaddr_eq (halt.trans (by decide)), hpte,
      if_pos (userPte_leafPte hpa hperm (by decide)),
      (leafPte_frame hpa hperm.lt hperm.access).2.2]
    exact hpa.ne_zero

/-! ## Copies to it -/

def InStack (w : ℕ × List ℕ) : Prop := stackBot ≤ w.1 ∧ w.1 + w.2.length ≤ userTop

namespace Stacked

theorem copyout (h : Stacked pt m) (w : ℕ × List ℕ) :
    Stacked pt (copyout pt w.1 w.2 m).2 := by
  refine ⟨(h.space.copyout w.1 w.2).1, ?_⟩
  rw [(copyout_untouched h.space.spaces rfl w.1 w.2).2.designates rfl]
  exact h.stack

theorem copyout_ok (h : Stacked pt m) {w : ℕ × List ℕ} (hw : InStack w) :
    (Vm.copyout pt w.1 w.2 m).1 = 0 := by
  have hdes : Designates pt m w.1 w.2.length := by
    intro i hi
    obtain ⟨hle, hlt⟩ := hw
    have hva := h.stack (w.1 + i - stackBot) (by norm_num at hle hlt ⊢; omega)
    rwa [show stackBot + (w.1 + i - stackBot) = w.1 + i by omega] at hva
  rcases copyout_result h.space.spaces rfl w.1 w.2 with ⟨hok, -⟩ | ⟨-, hnot⟩
  · exact hok
  · exact absurd hdes hnot

theorem copyouts (h : Stacked pt m) (ws : List (ℕ × List ℕ)) (hws : ∀ w ∈ ws, InStack w) :
    (copyouts pt ws m).1 = true ∧ Stacked pt (copyouts pt ws m).2 := by
  induction ws generalizing m with
  | nil => exact ⟨rfl, h⟩
  | cons w ws ih =>
    obtain ⟨hw, hws⟩ := forall_mem_cons.mp hws
    have hok : ¬ (Vm.copyout pt w.1 w.2 m).1 < 0 := by
      rw [h.copyout_ok hw]
      decide
    rw [Exec.copyouts, if_neg hok]
    exact ih (h.copyout w) hws

theorem copyoutsAnyway (h : Stacked pt m) (ws : List (ℕ × List ℕ)) :
    Stacked pt (copyoutsAnyway pt ws m) := by
  induction ws generalizing m with
  | nil => exact h
  | cons w ws ih => exact ih (h.copyout w)

end Stacked

/-! ## Its layout -/

theorem sub64_eq {n : ℕ} (hle : n ≤ sp) (hlt : sp < wordSize) : sub64 sp n = sp - n := by
  rw [sub64]
  norm_num at hlt ⊢
  omega

theorem placeStrs_spec (strs : List (List ℕ)) (hshort : Short strs) :
    ∀ sp, stackBot + 256 * strs.length ≤ sp → sp ≤ userTop →
      (∀ w ∈ (placeStrs strs sp).1, InStack w) ∧ (placeStrs strs sp).1.length = strs.length ∧
        sp ≤ (placeStrs strs sp).2 + 256 * strs.length ∧ (placeStrs strs sp).2 ≤ sp := by
  induction strs with
  | nil => exact fun sp _ _ => ⟨fun w hw => (by cases hw), rfl, le_add_right _ _, le_rfl⟩
  | cons str strs ih =>
    intro sp hle htop
    obtain ⟨hstr, hstrs⟩ := forall_mem_cons.mp hshort
    have hsub : sub64 sp (str.length + 1) = sp - (str.length + 1) := by
      refine sub64_eq ?_ (lt_of_le_of_lt htop (by decide))
      rw [length_cons] at hle
      omega
    simp only [placeStrs, length_cons, hsub, forall_mem_cons] at hle ⊢
    obtain ⟨hws, hlen, hlow, hhigh⟩ := ih hstrs (sp - (str.length + 1)) (by omega) (by omega)
    refine ⟨⟨⟨by dsimp only; omega, ?_⟩, hws⟩, by rw [hlen], ?_, ?_⟩
    · simp only [length_append, length_cons, length_nil]
      omega
    · clear hle htop
      omega
    · exact hhigh.trans (sub_le _ _)

theorem placeFrom_inStack {k : ℕ} (srcs : List (List ℕ)) (hlen : ∀ src ∈ srcs, src.length ≤ k) :
    ∀ va, stackBot ≤ va → va + k * srcs.length ≤ userTop → ∀ w ∈ placeFrom va srcs, InStack w := by
  induction srcs with
  | nil => exact fun _ _ _ w hw => by cases hw
  | cons src srcs ih =>
    intro va hle htop
    obtain ⟨hsrc, hsrcs⟩ := forall_mem_cons.mp hlen
    rw [length_cons, mul_succ] at htop
    rw [placeFrom, forall_mem_cons, mod_eq_of_lt (by norm_num at htop ⊢; omega)]
    exact ⟨⟨hle, by dsimp only; omega⟩, ih hsrcs _ (by omega) (by omega)⟩

theorem u64_length (n : ℕ) : (Time.u64 n).length = 8 := length_bytes 8 n

theorem Stacked.storePtrs (h : Stacked pt m) (base : ℕ) (ptrs : List ℕ)
    (hle : stackBot ≤ base) (htop : base + 8 * ptrs.length ≤ userTop) :
    (storePtrs pt base ptrs m).1 = true ∧ Stacked pt (storePtrs pt base ptrs m).2 := by
  obtain ⟨hok, h1⟩ := h.copyouts (placeFrom base (ptrs.map Time.u64)) <| by
    refine placeFrom_inStack (k := 8) _ (fun src hsrc => ?_) base hle (by rwa [length_map])
    obtain ⟨ptr, -, rfl⟩ := mem_map.mp hsrc
    exact le_of_eq (u64_length ptr)
  rw [Exec.storePtrs, if_neg (by rw [hok]; decide)]
  exact ⟨rfl, h1.copyout (_, _)⟩

theorem Stacked.storeVectors (h : Stacked pt m) {aux : List (List ℕ)} {argPtrs envPtrs : List ℕ}
    {rand : ℕ} (haux : aux.length ≤ 64) (hargs : argPtrs.length ≤ 64) (henv : envPtrs.length ≤ 64)
    (hlow : stackBot + 4096 ≤ rand) (hhigh : rand ≤ userTop) :
    ∃ sp, (storeVectors pt aux argPtrs envPtrs rand m).1 = some sp := by
  have hword : rand < wordSize := lt_of_le_of_lt hhigh (by decide)
  unfold Exec.storeVectors
  dsimp only
  rw [sub64_eq (n := aux.length * 16) (by omega) hword]
  generalize hauxBase : rand - aux.length * 16 = auxBase
  have h1 := h.copyoutsAnyway (placeFrom auxBase aux)
  rw [sub64_eq (n := (envPtrs.length + 1) * 8) (by omega) (by omega)]
  generalize henvBase : auxBase - (envPtrs.length + 1) * 8 = envBase
  obtain ⟨hok2, h2⟩ := h1.storePtrs envBase envPtrs (by omega) (by omega)
  rw [if_neg (by rw [hok2]; decide), sub64_eq (n := (argPtrs.length + 1) * 8) (by omega) (by omega)]
  generalize hargBase : envBase - (argPtrs.length + 1) * 8 = argBase
  obtain ⟨hok3, h3⟩ := h2.storePtrs argBase argPtrs (by omega) (by omega)
  rw [if_neg (by rw [hok3]; decide), sub64_eq (n := 8) (by omega) (by omega)]
  generalize hsp : argBase - 8 = sp
  have hin : InStack (sp, Time.u64 argPtrs.length) := by
    refine ⟨by dsimp only; omega, ?_⟩
    rw [u64_length]
    omega
  have hok4 := h3.copyout_ok hin
  rw [if_neg (by rw [hok4]; decide)]
  exact ⟨sp, rfl⟩

theorem buildStack_spec (h : Stacked pt m) (image : Image) {args env : List (List ℕ)}
    (hargs : args.length ≤ 64) (hshort : Short args) (henv : env.length ≤ 64)
    (hshortEnv : Short env) : ∃ sp, (buildStack pt image args env m).1 = some sp := by
  have hbot : stackBot + 524288 = userTop := by decide
  have hword : userTop < wordSize := by decide
  obtain ⟨hws, hlen, hlow, hhigh⟩ := placeStrs_spec args hshort userTop (by omega) le_rfl
  unfold buildStack
  dsimp only
  generalize placeStrs args userTop = a at hws hlen hlow hhigh ⊢
  obtain ⟨hws', hlen', hlow', hhigh'⟩ := placeStrs_spec env hshortEnv a.2 (by omega) hhigh
  generalize placeStrs env a.2 = e at hws' hlen' hlow' hhigh' ⊢
  rw [sub64_eq (n := 16) (by omega) (by omega)]
  generalize hrand : e.2 - 16 = rand
  obtain ⟨hok, h1⟩ := h.copyouts (a.1 ++ e.1 ++ [(rand, List.replicate 16 0)]) <| by
    simp only [forall_mem_append, forall_mem_cons]
    refine ⟨⟨hws, hws'⟩, ⟨by dsimp only; omega, ?_⟩, fun w hw => by cases hw⟩
    rw [length_replicate]
    omega
  have haux : (auxv image rand).length ≤ 64 := by
    unfold auxv
    cases image.interpEntry <;> simp
  rw [if_neg (by rw [hok]; decide)]
  refine h1.storeVectors haux ?_ ?_ (by omega) (by omega)
  · rw [length_map]
    omega
  · rw [length_map]
    omega

end NoobKernel.Exec
