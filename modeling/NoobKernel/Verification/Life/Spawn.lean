import NoobKernel.Verification.Life.Heap
import NoobKernel.Verification.PageTable.Account
import NoobKernel.Verification.UserCopy.Correctness

/-! # Processes that cannot be made -/

namespace NoobKernel.Life

open Library List Outcome

variable {s s0 s' : Kernel} {parent child : Proc} {args : CloneArgs} {pid pt tf a : ℕ} {l : List ℕ}
  {F : ℕ → Prop} {t : Table}

/-- A process whose address space and descriptors are in order. -/
structure Ready (parent : Proc) (s : Kernel) : Prop where
  spaces : Vm.Spaces s.mem (· = parent.pagetable)
  files : ∀ t, parent.fdTable = some t → t.table.Wf ∧ s.files.Holds t.table.files

/-- The reference to the root directory that `alloc_proc` takes. -/
def takeRoot (s : Kernel) : Kernel := s.root.elim s (dentryGet · s)

@[simp] theorem takeRoot_mem (s : Kernel) : (takeRoot s).mem = s.mem := by
  unfold takeRoot
  cases s.root <;> rfl

@[simp] theorem takeRoot_obj (s : Kernel) : (takeRoot s).obj = s.obj := by
  unfold takeRoot
  cases s.root <;> rfl

@[simp] theorem takeRoot_files (s : Kernel) : (takeRoot s).files = s.files := by
  unfold takeRoot
  cases s.root <;> rfl

theorem takeRoot_refs_congr (hrefs : s.refs = s0.refs) (hroot : s.root = s0.root) :
    (takeRoot s).refs = (takeRoot s0).refs := by
  unfold takeRoot
  rw [hroot]
  cases s0.root with
  | none => exact hrefs
  | some d => simp only [Option.elim, dentryGet, addRef, hrefs]

theorem takeRoot_refs_eq_iff : (takeRoot s).refs = s.refs ↔ s.root = none := by
  unfold takeRoot
  cases s.root with
  | none => simp
  | some d =>
    simp only [Option.elim, reduceCtorEq, iff_false]
    intro heq
    have hd := congrFun heq d
    simp [dentryGet, addRef] at hd

theorem allocProc_spec (s : Kernel) :
    (¬ Room 3 s.obj ∧ ∃ obj, allocProc s = .ok (none, { s with obj }) ∧ obj.used = s.obj.used) ∨
    Room 3 s.obj ∧ ∃ self t obj, allocProc s =
        .ok (some ⟨self, 0, 0, 0, some t, s.root, false⟩, takeRoot { s with obj }) ∧
      t.table = emptyTable ∧ Stock s.obj.used [t.fds, t.fdt, self] obj.used := by
  unfold allocProc
  have hnil : Stock s.obj.used [] s.obj.used := Stock.nil
  rcases alloc_stock hnil with ⟨obj, hnone, hs, hroom⟩ | ⟨self, obj1, hsome, hs, hroom⟩
  · rw [hnone]
    exact Or.inl ⟨hroom 2, _, rfl, hs.eq⟩
  rw [hsome, hroom 2]
  dsimp only
  rcases fdTableAlloc_spec (s := { s with obj := obj1 }) hs with
    ⟨hroom', obj, hrun, hs'⟩ | ⟨hroom', t, obj, hrun, ht, hs'⟩
  · rw [hrun, ok_bind]
    dsimp only
    obtain ⟨obj', hfree', hs''⟩ := kfree_stock hs' mem_cons_self
    rw [hfree', ok_bind]
    rw [erase_cons_head] at hs''
    exact Or.inl ⟨hroom', obj', rfl, hs''.eq⟩
  · rw [hrun]
    exact Or.inr ⟨hroom', self, t, obj, rfl, ht, hs'⟩

/-! ## The ladder -/

/-- What a call leaves behind: the objects of `l`, a reference to the root directory and the
pages of `F`. -/
structure Left (s0 : Kernel) (parent : Proc) (l : List ℕ) (F : ℕ → Prop) (s : Kernel) : Prop where
  obj : Stock s0.obj.used l s.obj.used
  files : s.files = s0.files
  refs : s.refs = (takeRoot s0).refs
  pages : Extra s0.mem.used F s.mem.used
  word : ∀ a, Vm.Owns s0.mem parent.pagetable a → s.mem.word a = s0.mem.word a

/-- What a child holds while it is being made: the objects of `l`, its page table and the pages
of `F`. -/
structure Draft (s0 : Kernel) (parent : Proc) (l : List ℕ) (F : ℕ → Prop) (pt : ℕ) (s : Kernel) :
    Prop where
  obj : Stock s0.obj.used l s.obj.used
  refs : s.refs = (takeRoot s0).refs
  held : Vm.Held s0.mem pt F s.mem
  word : ∀ a, Vm.Owns s0.mem parent.pagetable a → s.mem.word a = s0.mem.word a

/-- A child has the descriptors of a table, with a reference to each of its files. -/
structure Taken (s0 : Kernel) (t : Table) (fdTable : Option Table) (files : Files.Heap) :
    Prop where
  table : fdTable = some t
  wf : t.table.Wf
  holds : s0.files.Holds t.table.files
  files : files = s0.files.gets t.table.files

/-- A child that has its descriptors, its kernel stack and its trap frame. -/
structure Whole (s0 : Kernel) (parent : Proc) (l : List ℕ) (F : ℕ → Prop) (t : Table)
    (child : Proc) (s : Kernel) : Prop where
  draft : Draft s0 parent (child.kstack :: t.fds :: t.fdt :: l) (fun a => F a ∨ a = child.tf)
    child.pagetable s
  taken : Taken s0 t child.fdTable s.files
  self : child.self ∈ l
  fresh : ¬ F child.tf

theorem failFreept_spec (child : Proc) (h : Draft s0 parent l F child.pagetable s)
    (hfiles : s.files = s0.files) (hself : child.self ∈ l) :
    ∃ s', failFreept child s = .ok (none, s') ∧ Left s0 parent (l.erase child.self) F s' := by
  obtain ⟨mem, hrun, hword, hpages⟩ := h.held.destroy
  obtain ⟨obj, hrun', hobj⟩ := kfree_stock h.obj hself
  refine ⟨{ s with mem, obj }, ?_, hobj, hfiles, h.refs, hpages, fun a ha => ?_⟩
  · rw [failFreept, hrun, ok_bind, fail, hrun', ok_bind]
  · rw [hword]
    exact h.word a ha

theorem failFreetable_spec (child : Proc)
    (h : Draft s0 parent (t.fds :: t.fdt :: l) F child.pagetable s)
    (ht : Taken s0 t child.fdTable s.files) (hself : child.self ∈ l) :
    ∃ s', failFreetable child s = .ok (none, s') ∧ Left s0 parent (l.erase child.self) F s' := by
  obtain ⟨obj, hrun, hobj⟩ := fdTableFree_spec ht.wf ht.holds ht.files h.obj
  rw [failFreetable, ht.table, hrun, ok_bind]
  exact failFreept_spec child ⟨hobj, h.refs, h.held, h.word⟩ rfl hself

theorem failFreestack_spec (child : Proc)
    (h : Draft s0 parent (child.kstack :: t.fds :: t.fdt :: l) F child.pagetable s)
    (ht : Taken s0 t child.fdTable s.files) (hself : child.self ∈ l) :
    ∃ s', failFreestack child s = .ok (none, s') ∧ Left s0 parent (l.erase child.self) F s' := by
  obtain ⟨obj, hrun, hobj⟩ := kfree_stock h.obj mem_cons_self
  rw [erase_cons_head] at hobj
  rw [failFreestack, hrun, ok_bind]
  exact failFreetable_spec child ⟨hobj, h.refs, h.held, h.word⟩ ht hself

theorem failFreetf_spec (h : Whole s0 parent l F t child s) :
    ∃ s', failFreetf child s = .ok (none, s') ∧ Left s0 parent (l.erase child.self) F s' := by
  obtain ⟨hrun, hheld⟩ := h.draft.held.kfree (Or.inr rfl)
  rw [failFreetf, hrun, ok_bind]
  refine failFreestack_spec child ⟨h.draft.obj, h.draft.refs,
    hheld.congr fun a => ⟨?_, fun ha => ?_⟩, h.draft.word⟩ h.taken h.self
  · rintro ⟨ha | ha, hne⟩
    · exact ha
    · exact absurd ha hne
  · refine ⟨Or.inl ha, ?_⟩
    rintro rfl
    exact h.fresh ha

/-! ## The stages -/

/-- The result of a stage: a child, or what the ladder leaves behind. -/
def Made (s0 : Kernel) (parent : Proc) (l : List ℕ) (F : ℕ → Prop)
    (x : Outcome (Option Proc × Kernel)) : Prop :=
  (∃ child s, x = .ok (some child, s)) ∨ ∃ s, x = .ok (none, s) ∧ Left s0 parent l F s

theorem Made.ite {c : Prop} [Decidable c] {x y : Outcome (Option Proc × Kernel)}
    (hx : Made s0 parent l F x) (hy : Made s0 parent l F y) :
    Made s0 parent l F (if c then x else y) := by
  split
  · exact hx
  · exact hy

section Stages

variable (hparent : Vm.Spaces s0.mem (· = parent.pagetable))

include hparent

theorem Draft.edit {P : ℕ → Prop} {mem : Vm.Memory} (h : Draft s0 parent l F pt s)
    (hgrown : Vm.Grown pt P s.mem mem) : Draft s0 parent l F pt { s with mem } := by
  refine ⟨h.obj, h.refs, h.held.edit hgrown, fun a ha => ?_⟩
  have hused := ((hparent.table _ rfl).pages a ha).2
  have hnot : ¬ Vm.Owns s.mem pt a := by
    intro hown
    cases hused.symm.trans (h.held.extra.fresh a (Or.inl hown))
  exact (hgrown.frame a (h.held.extra.kept hused) hnot).trans (h.word a ha)

theorem Whole.mappages (h : Whole s0 parent l F t child s) (va pa perm : ℕ) :
    Whole s0 parent l F t child
      { s with mem := (Vm.mappages child.pagetable va pa 1 perm s.mem).2 } := by
  obtain ⟨r, m, hr, hgrown, -⟩ := h.draft.held.table.mapPage va pa perm
  rw [hr]
  exact ⟨h.draft.edit hparent hgrown, h.taken, h.self, h.fresh⟩

theorem mapTrapPages_spec (h : Whole s0 parent l F t child s) :
    Made s0 parent (l.erase child.self) F (mapTrapPages parent child s) := by
  have h1 := h.mappages hparent trampoline s.trampolinePa (Vm.pteR ||| Vm.pteX)
  have h2 := h1.mappages hparent trapframe child.tf (Vm.pteR ||| Vm.pteW)
  refine Made.ite (Or.inr (failFreetf_spec h1)) (Made.ite (Or.inr (failFreetf_spec h2)) ?_)
  split <;> exact Or.inl ⟨_, _, rfl⟩

variable (child)
variable (hspaces : Vm.Spaces s.mem (Vm.withRoot (· = parent.pagetable) child.pagetable))

include hspaces

omit hparent in
theorem Whole.copyout (c : Prop) [Decidable c] {pt' : ℕ} (va : ℕ) (src : List ℕ)
    (h : Whole s0 parent l F t child s) (hpt' : pt' = parent.pagetable ∨ pt' = child.pagetable) :
    let mem := (if c then Vm.copyout pt' va src s.mem else (0, s.mem)).2
    Whole s0 parent l F t child { s with mem } ∧
      Vm.Spaces mem (Vm.withRoot (· = parent.pagetable) child.pagetable) := by
  split
  · obtain ⟨hused, hsame⟩ := Vm.copyout_untouched hspaces hpt' va src
    obtain ⟨hobj, hrefs, hheld, hword⟩ := h.draft
    refine ⟨⟨⟨hobj, hrefs, hheld.same hused fun a ha => hsame.word _ a (Or.inr rfl) ha, ?_⟩,
      h.taken, h.self, h.fresh⟩, hsame.spaces hspaces⟩
    intro a ha
    exact (hsame.word _ a (Or.inl rfl) ((Vm.owns_congr hword).mpr ha)).trans (hword a ha)
  · exact ⟨h, hspaces⟩

theorem setTids_spec (h : Whole s0 parent l F t child s) :
    Made s0 parent (l.erase child.self) F (setTids args pid parent child s) := by
  obtain ⟨h1, hspaces1⟩ := h.copyout child hspaces (args.parentSettid = true) args.ptid
    (bytes 4 pid) (Or.inl rfl)
  obtain ⟨h2, -⟩ := h1.copyout child hspaces1
    (args.childSettid = true ∧ pageSize ≤ args.ctid ∧ args.ctid < userTop) args.ctid (bytes 4 pid)
    (Or.inr rfl)
  exact Made.ite (Or.inr (failFreetf_spec h1))
    (Made.ite (Or.inr (failFreetf_spec h2)) (mapTrapPages_spec hparent h2))

theorem allocStack_spec (args : CloneArgs) (pid : ℕ)
    (h : Draft s0 parent (t.fds :: t.fdt :: l) F child.pagetable s)
    (ht : Taken s0 t child.fdTable s.files) (hself : child.self ∈ l) :
    Made s0 parent (l.erase child.self) F (allocStack args pid parent child s) := by
  unfold allocStack
  rcases alloc_stock h.obj with ⟨obj, hnone, hobj, -⟩ | ⟨kstack, obj, hsome, hobj, -⟩
  · rw [hnone]
    exact Or.inr (failFreetable_spec child ⟨hobj, h.refs, h.held, h.word⟩ ht hself)
  rw [hsome]
  rcases hspaces.kzalloc with ⟨mem, hnone, hword, hmused⟩ | ⟨tf, mem, hsome', halloc⟩
  · rw [hnone]
    refine Or.inr (failFreestack_spec { child with kstack }
      ⟨hobj, h.refs, h.held.same hmused (fun a _ => by rw [hword]), fun a ha => ?_⟩ ht hself)
    exact (congrFun hword a).trans (h.word a ha)
  · rw [hsome']
    have htf : ¬ F tf := fun hF => by
      cases halloc.free.symm.trans (h.held.extra.held (Or.inr hF))
    refine setTids_spec _ hparent halloc.spaces
      ⟨⟨hobj, h.refs, h.held.kzalloc hsome', fun a ha => ?_⟩, ht, hself, htf⟩
    have hu := h.held.extra.kept ((hparent.table _ rfl).pages a ha).2
    exact (halloc.word a hu).trans (h.word a ha)

omit hparent in
theorem dupFiles_spec (hready : Ready parent s0)
    (h : Draft s0 parent [t.fds, t.fdt, child.self] F child.pagetable s)
    (htable : child.fdTable = some t) (hempty : t.table = emptyTable)
    (hfiles : s.files = s0.files) :
    Made s0 parent [] F (dupFiles args pid parent child s) := by
  have hself : child.self ∈ [child.self] := mem_cons_self
  have hholds : s0.files.Holds t.table.files := by
    simp [hempty, files_emptyTable, Files.Heap.Holds]
  have hgets : s.files = s0.files.gets t.table.files := by
    rw [hempty, files_emptyTable, Files.Heap.gets_zero, hfiles]
  obtain ⟨obj1, hrun1, hobj1⟩ := fdTableFree_spec (hempty ▸ emptyTable_wf) hholds hgets h.obj
  rw [dupFiles, htable, hrun1, ok_bind]
  rcases fdTableDup_spec (s := { s with files := s0.files, obj := obj1 }) hobj1 parent.fdTable
    hready.files with
    ⟨obj2, hrun2, hobj2⟩ | ⟨t2, files2, obj2, hrun2, hwf2, hholds2, hfiles2, hobj2⟩
  · rw [hrun2, ok_bind]
    obtain ⟨s', hrun', hleft⟩ := failFreept_spec { child with fdTable := none }
      (s := { s with files := s0.files, obj := obj2 }) ⟨hobj2, h.refs, h.held, h.word⟩ rfl hself
    rw [erase_cons_head] at hleft
    exact Or.inr ⟨s', hrun', hleft⟩
  · rw [hrun2, ok_bind]
    have hmade := allocStack_spec { child with fdTable := some t2 } hready.spaces
      (s := { s with files := files2, obj := obj2 }) hspaces args pid
      ⟨hobj2, h.refs, h.held, h.word⟩ ⟨rfl, hwf2, hholds2, hfiles2⟩ hself
    rw [erase_cons_head] at hmade
    exact hmade

end Stages

/-! ## The whole call -/

/-- The page table of a child can be made: there are pages for its tables and for the copies of
the user pages. -/
def Tabled (share : Bool) (parent : Proc) (s : Kernel) : Prop :=
  ∃ pt mem, Vm.uvmcreate s.mem = (some pt, mem) ∧
    ¬ (Vm.childWalk share parent.pagetable pt mem).1 < 0

/-- How a call goes on once there is a process structure. -/
theorem spawn_spec (h : Ready parent s) (hroom : Room 3 s.obj) (args : CloneArgs) (pid : ℕ) :
    (¬ Tabled args.shareVm parent s ∧ ∃ s' a l F, spawn args pid parent s = .ok (none, s') ∧
      Left s parent (a :: l) F s') ∨
    Tabled args.shareVm parent s ∧ ∃ F, Made s parent [] F (spawn args pid parent s) ∧
      ((∀ a, ¬ F a) ↔ args.shareVm = true ∨ Vm.NoUserPage parent.pagetable s.mem) := by
  rcases allocProc_spec s with ⟨hnot, -⟩ | ⟨-, self, t, obj, hrun, ht, hobj⟩
  · exact absurd hroom hnot
  have hself : self ∈ [t.fds, t.fdt, self] := by simp
  have herase : [t.fds, t.fdt, self].erase self = [t.fds, t.fdt] := by
    have hnodup := hobj.nodup
    simp only [nodup_cons, mem_cons, not_mem_nil, or_false, not_or] at hnodup
    rw [erase_cons_tail (by simpa using hnodup.1.2),
      erase_cons_tail (by simpa using hnodup.2.1), erase_cons_head]
  have hrefs : (takeRoot { s with obj }).refs = (takeRoot s).refs := takeRoot_refs_congr rfl rfl
  rw [spawn, hrun, ok_bind]
  dsimp only
  rw [takeRoot_mem]
  cases hcreate : Vm.uvmcreate s.mem with
  | mk root mem =>
    cases root with
    | none =>
      refine Or.inl ⟨?_, ?_⟩
      · rintro ⟨pt, mem', hsome, -⟩
        cases hcreate.symm.trans hsome
      · rcases Vm.kzalloc_cases s.mem with ⟨answers, hkz⟩ | ⟨pa, answers, -, -, hkz⟩
        · obtain ⟨-, rfl⟩ := Prod.mk.inj (hcreate.symm.trans hkz)
          obtain ⟨obj', hrun', hobj'⟩ := kfree_stock hobj hself
          rw [herase] at hobj'
          refine ⟨{ takeRoot { s with obj } with mem := { s.mem with answers }, obj := obj' },
            t.fds, [t.fdt], fun _ => False, ?_, hobj', takeRoot_files _, hrefs, Extra.refl,
            fun _ _ => rfl⟩
          unfold fail
          dsimp only
          rw [takeRoot_obj, hrun', ok_bind]
        · cases hcreate.symm.trans hkz
    | some pt =>
      dsimp only
      have hcreated := h.spaces.uvmcreate hcreate
      have hne : parent.pagetable ≠ pt := fun he => hcreated.fresh he.symm
      have hready := hcreated.spaces.ready (Or.inl rfl) (Or.inr rfl) hne hcreated.empty
      have hheld := Vm.Held.create hcreate
      have hnouser : Vm.NoUserPage parent.pagetable mem ↔ Vm.NoUserPage parent.pagetable s.mem := by
        simp only [Vm.NoUserPage, Vm.IsMapped, hcreated.same _ _ rfl]
      obtain ⟨F, hF, hnone⟩ := Vm.childWalk_held hready hheld args.shareVm
      have hdraft : Draft s parent [t.fds, t.fdt, self] F pt
          { takeRoot { s with obj } with
            mem := (Vm.childWalk args.shareVm parent.pagetable pt mem).2 } := by
        refine ⟨by simpa using hobj, hrefs, hF, fun a ha => ?_⟩
        have hused := ((h.spaces.table _ rfl).pages a ha).2
        have hown : Vm.Owns mem parent.pagetable a :=
          (Vm.owns_congr fun b hb => hcreated.word b ((h.spaces.table _ rfl).pages b hb).2).mpr ha
        exact (hready.agree (Vm.childWalk_edited hready args.shareVm) a hown).trans
          (hcreated.word a hused)
      by_cases hwalk : (Vm.childWalk args.shareVm parent.pagetable pt mem).1 < 0
      · rw [if_pos hwalk]
        refine Or.inl ⟨?_, ?_⟩
        · rintro ⟨pt', mem', hsome, hnot⟩
          obtain ⟨hpt, rfl⟩ := Prod.mk.inj (hcreate.symm.trans hsome)
          obtain rfl := Option.some.inj hpt
          exact hnot hwalk
        · obtain ⟨s', hrun', hleft⟩ := failFreept_spec
            ⟨self, pt, 0, 0, some t, s.root, false⟩ hdraft (takeRoot_files _) hself
          rw [herase] at hleft
          exact ⟨s', _, _, F, hrun', hleft⟩
      · rw [if_neg hwalk]
        have hzero : (Vm.childWalk args.shareVm parent.pagetable pt mem).1 = 0 := by
          rcases Vm.childWalk_result hready args.shareVm with hzero | herr
          · exact hzero
          · rw [herr] at hwalk
            exact absurd (by decide) hwalk
        refine Or.inr ⟨⟨pt, mem, hcreate, hwalk⟩, F, ?_, ?_⟩
        · have hspaces := (hcreated.spaces.childWalk (Or.inl rfl)
            (Or.inr rfl) hne hcreated.empty (Prod.ext hzero rfl)).1
          exact dupFiles_spec _ hspaces h hdraft rfl ht (takeRoot_files _)
        · rw [← hnouser]
          refine ⟨fun hempty => ?_, hnone⟩
          by_contra hnot
          obtain ⟨hshare, hpages⟩ := not_or.mp hnot
          rw [Bool.not_eq_true] at hshare
          rw [hshare] at hF hzero
          obtain ⟨a, ha⟩ := Vm.childWalk_copies hready hheld (Prod.ext hzero rfl) hF hpages
          exact hempty a ha

/-- A call that makes no process. -/
def Fails (x : Outcome (Option Proc × Kernel)) : Prop := ∀ child s, x ≠ .ok (some child, s)

/-- A failed call of `parent` leaves nothing behind: the same pages and objects are in use, the
references are the same, and what the parent has mapped is still its own. -/
def LeavesNothing (x : Outcome (Option Proc × Kernel)) (parent : Proc) (s : Kernel) : Prop :=
  ∃ s', x = .ok (none, s') ∧ s'.mem.used = s.mem.used ∧ s'.obj.used = s.obj.used ∧
    s'.files = s.files ∧ s'.refs = s.refs ∧ Vm.Untouched s.mem (· = parent.pagetable) s'.mem

/-- There is no process structure, or else the page table can be made, no root directory is
mounted, and no page has to be copied. -/
def Clean (share : Bool) (parent : Proc) (s : Kernel) : Prop :=
  ¬ Room 3 s.obj ∨ Tabled share parent s ∧ s.root = none ∧
    (share = true ∨ Vm.NoUserPage parent.pagetable s.mem)

theorem Left.untouched (h : Ready parent s) (hleft : Left s parent l F s') :
    Vm.Untouched s.mem (· = parent.pagetable) s'.mem := by
  refine ⟨?_, ?_, ?_⟩
  · rintro r a rfl ha
    exact hleft.word a ha
  · rintro r a rfl ha
    exact hleft.pages.kept ((h.spaces.table _ rfl).pages a ha).2
  · rintro r va rfl hv
    exact hleft.pages.kept (h.spaces.frame _ va rfl hv).used

theorem Left.leavesNothing_iff {x : Outcome (Option Proc × Kernel)} (h : Ready parent s)
    (hleft : Left s parent l F s') (hx : x = .ok (none, s')) :
    LeavesNothing x parent s ↔ l = [] ∧ s.root = none ∧ ∀ a, ¬ F a := by
  constructor
  · rintro ⟨s'', hx', hmem, hobj, -, hrefs, -⟩
    obtain ⟨-, rfl⟩ := ok_mk_inj (hx'.symm.trans hx)
    refine ⟨?_, takeRoot_refs_eq_iff.mp (hleft.refs.symm.trans hrefs), fun a ha => ?_⟩
    · exact eq_nil_iff_forall_not_mem.mpr fun a ha => hleft.obj.extra.ne ha hobj
    · exact hleft.pages.ne ha hmem
  · rintro ⟨rfl, hroot, hF⟩
    exact ⟨s', hx, hleft.pages.eq hF, hleft.obj.eq, hleft.files,
      hleft.refs.trans (takeRoot_refs_eq_iff.mpr hroot), hleft.untouched h⟩

theorem spawn_leavesNothing_iff (h : Ready parent s) (hfails : Fails (spawn args pid parent s)) :
    LeavesNothing (spawn args pid parent s) parent s ↔ Clean args.shareVm parent s := by
  by_cases hroom : Room 3 s.obj
  · rw [Clean, or_iff_right (not_not_intro hroom)]
    rcases spawn_spec h hroom args pid with
      ⟨hnot, s', a, l, F, hrun, hleft⟩ | ⟨htabled, F, ⟨child, s', hrun⟩ | ⟨s', hrun, hleft⟩, hF⟩
    · rw [hleft.leavesNothing_iff h hrun]
      simp [hnot]
    · exact absurd hrun (hfails child s')
    · rw [hleft.leavesNothing_iff h hrun, hF]
      simp [htabled]
  · refine ⟨fun _ => Or.inl hroom, fun _ => ?_⟩
    rcases allocProc_spec s with ⟨-, obj, hrun, hobj⟩ | ⟨hnot, -⟩
    · refine ⟨{ s with obj }, ?_, rfl, hobj, rfl, rfl, Vm.Untouched.refl h.spaces⟩
      rw [spawn, hrun, ok_bind]
    · exact absurd hnot hroom

/-- A kernel with one process, which has a page table and no memory. -/
def oneProcess (objects : List ℕ) (root : Option ℕ) : Kernel where
  mem := (Vm.emptyProcess 0).mem
  obj := ⟨fun _ => false, objects⟩
  files := ⟨fun _ => none, fun _ => none⟩
  refs _ := 0
  root := root
  trampolinePa := pmStart

def theProcess : Proc := ⟨1, pmStart + pageSize, 0, 0, some ⟨2, 3, emptyTable⟩, none, false⟩

theorem theProcess_ready (objects : List ℕ) (root : Option ℕ) :
    Ready theProcess (oneProcess objects root) := by
  refine ⟨(Vm.emptyProcess_space 0).1.spaces, ?_⟩
  rintro t ⟨⟩
  refine ⟨emptyTable_wf, ?_⟩
  exact fun f hf => absurd hf (Multiset.notMem_zero f)

/-- A failed `fork` or `clone` leaves nothing behind exactly if it is `Clean`. -/
theorem failed_fork_iff (args : CloneArgs) (pid : ℕ) (parent : Proc) (s : Kernel)
    (h : Ready parent s) :
    (Fails (sysFork pid parent s) →
      (LeavesNothing (sysFork pid parent s) parent s ↔ Clean false parent s)) ∧
    (Fails (sysClone args pid parent s) →
      (LeavesNothing (sysClone args pid parent s) parent s ↔ Clean args.shareVm parent s)) :=
  ⟨spawn_leavesNothing_iff h, spawn_leavesNothing_iff h⟩

/-- Without an object for the kernel stack, and without a root directory, nothing is left behind. -/
theorem failed_fork_stack : let s := oneProcess [10, 11, 12, 13, 14] none
    Ready theProcess s ∧ Fails (sysFork 2 theProcess s) ∧
      LeavesNothing (sysFork 2 theProcess s) theProcess s := by
  intro s
  have hready : Ready theProcess s := theProcess_ready _ _
  have hchecks : (sysFork 2 theProcess s).checks (fun x => x.1 = none) = true ∧
      (Vm.uvmcreate s.mem).1 = some (pmStart + 2 * pageSize) ∧
      ¬ (Vm.childWalk false theProcess.pagetable (pmStart + 2 * pageSize)
        (Vm.uvmcreate s.mem).2).1 < 0 := by
    decide +kernel
  have hfails : Fails (sysFork 2 theProcess s) := by
    obtain ⟨⟨r, s'⟩, hrun, hnone⟩ := exists_of_decide hchecks.1
    dsimp only at hnone
    rw [hrun, hnone]
    exact fun child s h => (by cases h)
  exact ⟨hready, hfails, ((failed_fork_iff ⟨false, false, false, 0, 0⟩ 2 _ _ hready).1 hfails).mpr
    (Or.inr ⟨⟨_, _, Prod.ext hchecks.2.1 rfl, hchecks.2.2⟩, rfl,
      Or.inr fun va _ => (Vm.emptyProcess_space 0).2 va⟩)⟩

/-- Without an object for the kernel stack the root directory keeps a reference. -/
theorem failed_fork_keeps_reference : ∃ parent s, Ready parent s ∧ Fails (sysFork 2 parent s) ∧
    ¬ LeavesNothing (sysFork 2 parent s) parent s := by
  refine ⟨theProcess, oneProcess [10, 11, 12, 13, 14] (some 7), theProcess_ready _ _, ?_⟩
  have hchecks : (sysFork 2 theProcess (oneProcess [10, 11, 12, 13, 14] (some 7))).checks
      (fun x => x.1 = none ∧ x.2.refs 7 = 1) = true := by
    decide +kernel
  obtain ⟨⟨r, s'⟩, hrun, hnone, hrefs⟩ := exists_of_decide hchecks
  dsimp only at hnone hrefs
  rw [hrun, hnone]
  refine ⟨fun child s h => (by cases h), ?_⟩
  rintro ⟨s'', h, -, -, -, heq, -⟩
  obtain ⟨-, rfl⟩ := ok_mk_inj h
  cases hrefs.symm.trans (congrFun heq 7)

end NoobKernel.Life
