import NoobKernel.Verification.Files.Counts
import NoobKernel.Verification.Files.Rules
import Mathlib.Algebra.BigOperators.Group.Finset.Basic

/-! # References across all processes

Each operation does to the process that performs it what the rules say, keeps the counts of the
files equal to the references of all processes, and leaves the other processes alone. -/

namespace NoobKernel.Files

open Library Prog Function Outcome Multiset Local

variable {s s' : State} {σ σ' : Local} {p q f : ℕ} {h h' : Heap} {kills : Prop} {t : Table}

/-! ## References of a process -/

def tableFiles : Option FdTable → Multiset ℕ
  | none => 0
  | some fdt => fdt.files

/-- The references in the slots of a process and of the child that it is making. -/
def Proc.slots (pr : Proc) : Multiset ℕ := tableFiles pr.fdTable + tableFiles pr.child

def Proc.refs (pr : Proc) : Multiset ℕ := pr.slots + pr.held

def State.refs (s : State) : Multiset ℕ := ∑ p ∈ Finset.range s.nproc, (s.proc p).refs

/-- The references of the processes other than `p`. -/
def State.others (s : State) (p : ℕ) : Multiset ℕ :=
  ∑ q ∈ (Finset.range s.nproc).erase p, (s.proc q).refs

theorem State.refs_eq (hp : p < s.nproc) : s.refs = (s.proc p).refs + s.others p :=
  (Finset.add_sum_erase _ _ (Finset.mem_range.mpr hp)).symm

theorem State.refs_setProc (hp : p < s.nproc) (pr : Proc) :
    (setProc p pr s).refs = pr.refs + s.others p := by
  rw [State.refs_eq (s := setProc p pr s) hp]
  congr 1
  · exact congrArg Proc.refs (update_self ..)
  · exact Finset.sum_congr rfl (fun q hq =>
      congrArg Proc.refs (update_of_ne (Finset.ne_of_mem_erase hq) ..))

def localFiles : Option Table → Multiset ℕ
  | none => 0
  | some t => t.1.files

theorem tableFiles_map (table : Option Table) :
    tableFiles (table.map Subtype.val) = localFiles table := by
  cases table <;> rfl

def Local.refs (σ : Local) : Multiset ℕ := localFiles σ.table + localFiles σ.child + σ.held

/-- The process `pr` is as the local state says. -/
structure Shows (pr : Proc) (σ : Local) : Prop where
  table : pr.fdTable = σ.table.map Subtype.val
  child : pr.child = σ.child.map Subtype.val
  held : pr.held = σ.held

theorem Shows.refs {pr : Proc} (hs : Shows pr σ) : pr.refs = σ.refs := by
  rw [Proc.refs, Proc.slots, hs.table, hs.child, hs.held, tableFiles_map, tableFiles_map]
  rfl

structure View (p : ℕ) (s : State) (σ : Local) : Prop extends Shows (s.proc p) σ where
  seen : ∀ q ∈ σ.seen, q < s.nproc
  dead : ∀ q ∈ σ.dead, q < s.nproc ∧ (s.proc q).zombie = true
  zombie : (s.proc p).zombie = true → p ∈ σ.dead

/-! ## What an operation leaves -/

/-- A process other than the one that runs may become a zombie and lose its descriptors. -/
structure Left (pr pr' : Proc) : Prop where
  code : pr'.code = pr.code
  child : pr'.child = pr.child
  held : pr'.held = pr.held
  zombie : pr.zombie = true → pr'.zombie = true
  table : pr'.fdTable = pr.fdTable ∨ pr'.zombie = true ∧ pr'.fdTable = none

theorem Left.refl (pr : Proc) : Left pr pr := ⟨rfl, rfl, rfl, id, Or.inl rfl⟩

/-- A process that was just made. -/
structure Fresh (pr : Proc) : Prop where
  code : pr.code = none
  child : pr.child = none
  held : pr.held = 0
  table : ∃ t : Table, pr.fdTable = some t.1

structure Frame (p : ℕ) (s s' : State) : Prop where
  nproc : s.nproc ≤ s'.nproc
  zombie : (s.proc p).zombie = true → (s'.proc p).zombie = true
  left : ∀ q < s.nproc, q ≠ p → Left (s.proc q) (s'.proc q)
  fresh : ∀ q, s.nproc ≤ q → q < s'.nproc → Fresh (s'.proc q)

/-- The state behind an operation of `p`. Processes become zombies only with its knowledge. -/
structure After (p : ℕ) (s s' : State) (σ' : Local) : Prop where
  view : View p s' σ'
  counts : s'.heap.Counts s'.refs
  frame : Frame p s s'
  made : ∀ q < s.nproc, (s'.proc q).zombie = true → (s.proc q).zombie = true ∨ q ∈ σ'.dead

theorem after_setProc (hv : View p s σ) (hq : q < s.nproc) (h' : Heap) (pr : Proc)
    (hshows : Shows ((setProc q pr s).proc p) σ')
    (hleft : q ≠ p → Left (s.proc q) pr) (hzombie : (s.proc q).zombie = true → pr.zombie = true)
    (hseen : σ'.seen = σ.seen)
    (hdead : ∀ r ∈ σ'.dead, r ∈ σ.dead ∨ r = q ∧ pr.zombie = true) (hmono : σ.dead ⊆ σ'.dead)
    (hmade : pr.zombie = true → (s.proc q).zombie = true ∨ q ∈ σ'.dead)
    (hcounts : h'.Counts (pr.refs + s.others q)) :
    After p s (setProc q pr { s with heap := h' }) σ' := by
  have hself : (setProc q pr { s with heap := h' }).proc q = pr := update_self ..
  have hother : ∀ r, r ≠ q → (setProc q pr { s with heap := h' }).proc r = s.proc r :=
    fun r hr => update_of_ne hr ..
  have hkept : ∀ r, (s.proc r).zombie = true →
      ((setProc q pr { s with heap := h' }).proc r).zombie = true := by
    intro r hr
    by_cases hrq : r = q
    · subst hrq
      rw [hself]
      exact hzombie hr
    · rwa [hother r hrq]
  have hnew : ∀ r, ((setProc q pr { s with heap := h' }).proc r).zombie = true →
      (s.proc r).zombie = true ∨ r ∈ σ'.dead := by
    intro r hr
    by_cases hrq : r = q
    · subst hrq
      rw [hself] at hr
      exact hmade hr
    · rw [hother r hrq] at hr
      exact Or.inl hr
  refine ⟨⟨hshows, hseen ▸ hv.seen, ?_, ?_⟩, ?_, ⟨le_rfl, hkept p, ?_, ?_⟩, fun r _ => hnew r⟩
  · intro r hr
    rcases hdead r hr with hold | ⟨rfl, hz⟩
    · exact ⟨(hv.dead r hold).1, hkept r (hv.dead r hold).2⟩
    · exact ⟨hq, by rwa [hself]⟩
  · intro hz
    exact (hnew p hz).elim (fun hold => hmono (hv.zombie hold)) id
  · rw [State.refs_setProc (s := { s with heap := h' }) hq]
    exact hcounts
  · intro r _ hr
    by_cases hrq : r = q
    · subst hrq
      rw [hself]
      exact hleft hr
    · rw [hother r hrq]
      exact Left.refl _
  · intro r hge hlt
    exact absurd hlt (not_lt.mpr hge)

theorem after_own (hp : p < s.nproc) (hv : View p s σ) (h' : Heap) (pr : Proc)
    (hshows : Shows pr σ') (hzombie : pr.zombie = (s.proc p).zombie)
    (hseen : σ'.seen = σ.seen) (hdead : σ'.dead = σ.dead)
    (hcounts : h'.Counts (σ'.refs + s.others p)) :
    After p s (setProc p pr { s with heap := h' }) σ' := by
  have hself : (setProc p pr s).proc p = pr := update_self ..
  refine after_setProc hv hp h' pr (hself.symm ▸ hshows) (fun hne => absurd rfl hne)
    (fun hz => hzombie.trans hz) hseen (fun r hr => Or.inl (hdead ▸ hr))
      (fun r hr => hdead.symm ▸ hr)
    (fun hz => Or.inl (hzombie.symm.trans hz)) ?_
  rwa [hshows.refs]

theorem after_same (hv : View p s σ) (hc : s.heap.Counts s.refs) : After p s s σ :=
  ⟨hv, hc, ⟨le_rfl, id, fun _ _ _ => Left.refl _,
    fun _ hge hlt => absurd hlt (not_lt.mpr hge)⟩, fun _ _ => Or.inl⟩

/-! ## Operations on the own process -/

section Own

variable (hp : p < s.nproc) (hv : View p s σ) (hc : s.heap.Counts (σ.refs + s.others p))

/-- An operation does what the rules say. -/
def Does (kills : Prop) (p : ℕ) (ans : Answer) (s : State) (σ : Local) (op : Op) : Prop :=
  ∃ a s' σ', exec p ans s op = .ok (a, s') ∧ (rules kills p).step op σ a σ' ∧ After p s s' σ'

theorem Local.refs_hold (f : ℕ) : (σ.hold f).refs = f ::ₘ σ.refs := add_cons f _ _

theorem Local.refs_put (hf : f ∈ σ.held) : σ.refs = f ::ₘ (σ.put f).refs := by
  rw [refs, ← cons_erase hf, add_cons]
  rfl

theorem Local.refs_setTable (ht : σ.table = some t) {t' : Table} (hfiles : t'.1.files = t.1.files) :
    (σ.setTable (some t')).refs = σ.refs := by
  rw [refs, refs, ht]
  change t'.1.files + _ + _ = t.1.files + _ + _
  rw [hfiles]
  rfl

theorem Local.mem_refs (ht : σ.table = some t) (hf : f ∈ t.1.files) : f ∈ σ.refs := by
  rw [refs, ht]
  exact mem_add.mpr (Or.inl (mem_add.mpr (Or.inl hf)))

theorem View.fdTable_some (hv : View p s σ) {fdt : FdTable} (h : (s.proc p).fdTable = some fdt) :
    ∃ t : Table, σ.table = some t ∧ t.1 = fdt := by
  rw [hv.table] at h
  exact Option.map_eq_some_iff.mp h

include hp hv hc

theorem after_idle : After p s s σ := after_same hv (by rwa [State.refs_eq hp, hv.refs])

theorem does_setTable {t' : Table} (ht : σ.table = some t) (hfiles : t'.1.files = t.1.files) :
    After p s (setProc p { s.proc p with fdTable := some t'.1 } s) (σ.setTable (some t')) := by
  refine after_own hp hv s.heap _ ⟨rfl, hv.child, hv.held⟩ rfl rfl rfl ?_
  rw [refs_setTable ht hfiles]
  exact hc

theorem does_keepTable (ht : σ.table = some t) :
    After p s (setProc p { s.proc p with fdTable := some t.1 } s) σ := by
  have hsame : σ.setTable (some t) = σ := by rw [← ht]; rfl
  exact hsame ▸ does_setTable hp hv hc ht rfl

omit hc in
theorem does_hold (hcounts : h'.Counts (f ::ₘ (σ.refs + s.others p))) :
    After p s (setProc p { s.proc p with held := f ::ₘ (s.proc p).held } { s with heap := h' })
      (σ.hold f) := by
  refine after_own hp hv h' _ ⟨hv.table, hv.child, ?_⟩ rfl rfl rfl ?_
  · rw [hv.held]
    rfl
  · rw [refs_hold, cons_add]
    exact hcounts

theorem exec_fdGet (ans : Answer) (fd : ℤ) : Does kills p ans s σ (.fdGet fd) := by
  cases htable : (s.proc p).fdTable with
  | none =>
    refine ⟨none, s, σ, ?_, Or.inl ⟨rfl, rfl⟩, after_idle hp hv hc⟩
    simp only [exec, htable]
  | some fdt =>
    obtain ⟨t, ht, rfl⟩ := hv.fdTable_some htable
    rcases fdGet_spec t.2 fd with hrun | ⟨f, hslot, hrun⟩
    · refine ⟨none, s, σ, ?_, Or.inl ⟨rfl, rfl⟩, after_idle hp hv hc⟩
      simp only [exec, htable, hrun, ok_bind]
    obtain ⟨hget, hcounts⟩ := hc.get (mem_add.mpr
      (Or.inl (mem_refs ht (FdTable.mem_files hslot))))
    refine ⟨some f, _, σ.hold f, ?_, Or.inr ⟨f, rfl, rfl⟩, does_hold hp hv hcounts⟩
    simp only [exec, htable, hrun, hget, ok_bind]

theorem sets_aside (ht : σ.table = some t) {alloc : Outcome (ℤ × FdTable)}
    (hspec : Allots t.1 alloc) :
    ∃ r fdt' σ', alloc = .ok (r, fdt') ∧ SetsAside σ r σ' ∧
      After p s (setProc p { s.proc p with fdTable := some fdt' } s) σ' := by
  rcases hspec with hrun | ⟨fd, fdt', hrun, hres⟩
  · exact ⟨_, _, σ, hrun, Or.inl ⟨by decide, rfl⟩, does_keepTable hp hv hc ht⟩
  · have hfiles : (⟨fdt', hres.wf⟩ : Table).1.files = t.1.files := hres.files
    exact ⟨_, _, _, hrun, Or.inr ⟨fd, t, ⟨fdt', hres.wf⟩, rfl, ht, hres, rfl⟩,
      does_setTable hp hv hc ht hfiles⟩

theorem exec_fdAlloc (ans : Answer) : Does kills p ans s σ .fdAlloc := by
  cases htable : (s.proc p).fdTable with
  | none =>
    refine ⟨-einval, s, σ, ?_, Or.inl ⟨by decide, rfl⟩, after_idle hp hv hc⟩
    simp only [exec, htable]
  | some fdt =>
    obtain ⟨t, ht, rfl⟩ := hv.fdTable_some htable
    obtain ⟨r, fdt', σ', hrun, hstep, hafter⟩ := sets_aside hp hv hc ht (fdAlloc_spec t.2 ans.room)
    refine ⟨r, _, σ', ?_, hstep, hafter⟩
    simp only [exec, htable, hrun, ok_bind]

theorem exec_dupfdAlloc (ans : Answer) {minfd : ℕ} (hok : σ.table.isSome) :
    Does kills p ans s σ (.dupfdAlloc minfd) := by
  obtain ⟨t, ht⟩ := Option.isSome_iff_exists.mp hok
  have htable : (s.proc p).fdTable = some t.1 := by rw [hv.table, ht]; rfl
  obtain ⟨r, fdt', σ', hrun, hstep, hafter⟩ := sets_aside hp hv hc ht (dupfdAlloc_spec t.2 minfd)
  refine ⟨r, _, σ', ?_, hstep, hafter⟩
  simp only [exec, htable, hrun, ok_bind]

theorem exec_dup3Grow (ans : Answer) {newfd : ℕ} (hok : σ.table.isSome) :
    Does kills p ans s σ (.dup3Grow newfd) := by
  obtain ⟨t, ht⟩ := Option.isSome_iff_exists.mp hok
  have htable : (s.proc p).fdTable = some t.1 := by rw [hv.table, ht]; rfl
  rcases dup3Grow_spec t.2 ans.room newfd with ⟨r, hneg, hrun⟩ | ⟨fdt', hrun, hwf, hfiles, -⟩
  · refine ⟨r, _, σ, ?_, Or.inl ⟨hneg, rfl⟩, does_keepTable hp hv hc ht⟩
    simp only [exec, htable, hrun, ok_bind]
  · have hfiles' : (⟨fdt', hwf⟩ : Table).1.files = t.1.files := hfiles
    refine ⟨0, _, _, ?_, Or.inr ⟨rfl, ⟨fdt', hwf⟩, rfl⟩, does_setTable hp hv hc ht hfiles'⟩
    simp only [exec, htable, hrun, ok_bind]

theorem exec_fdInstall (ans : Answer) {fd : ℤ} (hok : f ∈ σ.held) :
    Does kills p ans s σ (.fdInstall fd f) := by
  cases htable : (s.proc p).fdTable with
  | none =>
    have ht : σ.table = none := Option.map_eq_none_iff.mp (hv.table.symm.trans htable)
    refine ⟨-einval, s, σ, ?_, Or.inr ⟨by decide, rfl, ?_⟩, after_idle hp hv hc⟩
    · simp only [exec, htable]
    · intro t n hsome
      cases ht.symm.trans hsome
  | some fdt =>
    obtain ⟨t, ht, rfl⟩ := hv.fdTable_some htable
    rcases fdInstall_cases t.2 fd f with ⟨r, hneg, hrun, hslot⟩ | ⟨n, fdt', hrun, rfl, hinst⟩
    · refine ⟨r, _, σ, ?_, Or.inr ⟨hneg, rfl, ?_⟩, does_keepTable hp hv hc ht⟩
      · simp only [exec, htable, hrun, ok_bind]
        rw [if_neg hneg.ne]
      · intro t' n ht'
        obtain rfl := Option.mem_unique ht ht'
        exact hslot n
    · refine ⟨0, _, σ.store ⟨fdt', hinst.wf⟩ f, ?_,
        Or.inl ⟨t, ⟨fdt', hinst.wf⟩, rfl, ht, hinst, rfl⟩,
        after_own hp hv s.heap
          { s.proc p with fdTable := some fdt', held := (s.proc p).held.erase f }
          ⟨rfl, hv.child, ?_⟩ rfl rfl rfl ?_⟩
      · simp only [exec, htable, hrun, ok_bind]
        rfl
      · dsimp only
        rw [hv.held]
        rfl
      · have hrefs : (σ.store ⟨fdt', hinst.wf⟩ f).refs = σ.refs := by
          change fdt'.files + localFiles σ.child + σ.held.erase f = _
          rw [hinst.files, refs_put hok, cons_add, cons_add]
          change _ = f ::ₘ (localFiles σ.table + localFiles σ.child + σ.held.erase f)
          rw [ht]
          rfl
        rw [hrefs]
        exact hc

theorem exec_fdFree (ans : Answer) (fd : ℤ) : Does kills p ans s σ (.fdFree fd) := by
  cases htable : (s.proc p).fdTable with
  | none =>
    refine ⟨(), s, σ, ?_, Or.inl rfl, after_idle hp hv hc⟩
    simp only [exec, htable]
  | some fdt =>
    obtain ⟨t, ht, rfl⟩ := hv.fdTable_some htable
    have hsome : σ.table.isSome := by rw [ht]; rfl
    rcases fdFree_spec t.2 fd with hrun | ⟨_, slot, fdt', hcloses, hrun⟩
    · refine ⟨(), _, σ, ?_, Or.inl rfl, does_keepTable hp hv hc ht⟩
      simp only [exec, htable, hrun, ok_bind]
    have hrefs : σ.refs = slot.files + (σ.setTable (some ⟨fdt', hcloses.wf⟩)).refs := by
      rw [refs, ht]
      change t.1.files + _ + _ = slot.files + (fdt'.files + _ + _)
      rw [hcloses.files, add_assoc, add_assoc, add_assoc]
      rfl
    rw [hrefs, add_assoc] at hc
    obtain ⟨h', hput, hcounts⟩ := hc.putSlot
    refine ⟨(), _, _, ?_, Or.inr ⟨hsome, ⟨fdt', hcloses.wf⟩, rfl⟩,
      after_own hp hv h' { s.proc p with fdTable := some fdt' }
        ⟨rfl, hv.child, hv.held⟩ rfl rfl rfl hcounts⟩
    simp only [exec, htable, hrun, hput, ok_bind]

theorem exec_fileGet (ans : Answer) (hok : f ∈ σ.held) : Does kills p ans s σ (.fileGet f) := by
  have hmem : f ∈ σ.refs + s.others p := by
    rw [refs_put hok, cons_add]
    exact mem_cons_self f _
  obtain ⟨hget, hcounts⟩ := hc.get hmem
  refine ⟨(), _, σ.hold f, ?_, rfl, does_hold hp hv hcounts⟩
  simp only [exec, hget, ok_bind]

theorem exec_filePut (ans : Answer) (hok : f ∈ σ.held) : Does kills p ans s σ (.filePut f) := by
  rw [refs_put hok, cons_add] at hc
  obtain ⟨h', hput, hcounts⟩ := hc.put
  refine ⟨(), _, σ.put f, ?_, rfl,
    after_own hp hv h' { s.proc p with held := (s.proc p).held.erase f }
      ⟨hv.table, hv.child, ?_⟩ rfl rfl rfl hcounts⟩
  · simp only [exec, hput, ok_bind]
  · dsimp only
    rw [hv.held]
    rfl

theorem exec_vfsOpen (ans : Answer) : Does kills p ans s σ .vfsOpen := by
  by_cases hroom : ans.room ∧ s.heap.file ans.addr = none
  · refine ⟨some ans.addr, _, σ.hold ans.addr, if_pos hroom, Or.inr ⟨_, rfl, rfl⟩,
      does_hold hp hv (hc.vfsOpen hroom.2)⟩
  · exact ⟨none, s, σ, if_neg hroom, Or.inl ⟨rfl, rfl⟩, after_idle hp hv hc⟩

theorem exec_pipeFiles (ans : Answer) : Does kills p ans s σ .pipeFiles := by
  by_cases hroom : ans.room ∧ s.heap.file ans.addr = none ∧ s.heap.file ans.addr' = none ∧
      ans.addr ≠ ans.addr' ∧ s.heap.pipe ans.pipe = none
  · obtain ⟨-, hrf, hwf, hne, hk⟩ := id hroom
    refine ⟨some (ans.addr, ans.addr'), _, (σ.hold ans.addr').hold ans.addr, if_pos hroom,
      Or.inr ⟨_, _, rfl, rfl⟩, after_own hp hv _ _ ⟨hv.table, hv.child, ?_⟩ rfl rfl rfl ?_⟩
    · dsimp only
      rw [hv.held]
      rfl
    · rw [refs_hold, refs_hold, cons_add, cons_add]
      exact hc.pipeCreate hrf hwf hne hk
  · exact ⟨none, s, σ, if_neg hroom, Or.inl ⟨rfl, rfl⟩, after_idle hp hv hc⟩

end Own

/-! ## References of other processes

The operations that make a child, end a process or free the descriptors of one. -/

open List State

variable {fdt : FdTable}

theorem Local.refs_child (hchild : σ.child = none) (t : Table) :
    ({ σ with child := some t } : Local).refs = t.1.files + σ.refs := by
  rw [refs, refs, hchild]
  change localFiles σ.table + t.1.files + σ.held = t.1.files + (localFiles σ.table + 0 + σ.held)
  rw [add_zero, add_comm (localFiles σ.table), add_assoc]

theorem Local.refs_dropChild (σ : Local) :
    σ.refs = localFiles σ.child + ({ σ with child := none } : Local).refs := by
  change localFiles σ.table + localFiles σ.child + σ.held =
    localFiles σ.child + (localFiles σ.table + 0 + σ.held)
  rw [add_zero, add_comm (localFiles σ.table), add_assoc]

theorem files_fdTableAlloc (hr : fdTableAlloc true = some fdt) : fdt.files = 0 := by
  obtain rfl := Option.some.inj hr
  exact sum_files_replicate _

theorem FdTable.kept_subset : fdt.kept ⊆ fdt.files := by
  rw [fdt.files_eq]
  exact Multiset.subset_of_le (Multiset.le_add_right _ _)

/-! ## The child of a process -/

section Child

variable (hp : p < s.nproc) (hv : View p s σ) (hc : s.heap.Counts (σ.refs + s.others p))
  (ans : Answer)

include hp hv hc

theorem exec_allocProc (hok : σ.child = none) : Does kills p ans s σ .allocProc := by
  cases hroom : ans.room with
  | false =>
    refine ⟨false, s, σ, ?_, Or.inl ⟨rfl, rfl⟩, after_idle hp hv hc⟩
    simp only [exec, hroom]
    rfl
  | true =>
    obtain ⟨fdt, hfdt⟩ : ∃ fdt, fdTableAlloc true = some fdt := ⟨_, rfl⟩
    have hfiles := files_fdTableAlloc hfdt
    refine ⟨true, _, { σ with child := some ⟨fdt, wf_fdTableAlloc hfdt⟩ }, ?_,
      Or.inr ⟨rfl, ⟨fdt, wf_fdTableAlloc hfdt⟩, hfiles, rfl⟩,
      after_own hp hv s.heap { s.proc p with child := some fdt }
        ⟨hv.table, rfl, hv.held⟩ rfl rfl rfl ?_⟩
    · simp only [exec, hroom, hfdt]
    · rw [refs_child hok, hfiles, zero_add]
      exact hc

theorem exec_childFree : Does kills p ans s σ .childFree := by
  cases hchild : σ.child with
  | none =>
    have hnone : (s.proc p).child = none := by rw [hv.child, hchild]; rfl
    have hsame : { σ with child := none } = σ := by rw [← hchild]
    refine ⟨(), s, σ, ?_, hsame.symm, after_idle hp hv hc⟩
    simp only [exec, hnone]
  | some t =>
    have hsome : (s.proc p).child = some t.1 := by rw [hv.child, hchild]; rfl
    rw [refs_dropChild, hchild, add_assoc] at hc
    obtain ⟨h', hfree, hcounts⟩ := hc.fdTableFree t.2
    refine ⟨(), _, _, ?_, rfl, after_own hp hv h' { s.proc p with child := none }
      ⟨hv.table, rfl, hv.held⟩ rfl rfl rfl hcounts⟩
    simp only [exec, hsome, hfree, ok_bind]

theorem exec_childDup (hok : σ.child = none) : Does kills p ans s σ .childDup := by
  cases htable : (s.proc p).fdTable with
  | none =>
    refine ⟨false, s, σ, ?_, Or.inl ⟨rfl, rfl⟩, after_idle hp hv hc⟩
    simp only [exec, htable]
  | some fdt =>
    obtain ⟨t, ht, rfl⟩ := hv.fdTable_some htable
    have hmem : ∀ f ∈ t.1.files, f ∈ σ.refs + s.others p := fun f hf =>
      Multiset.mem_add.mpr (Or.inl (mem_refs ht hf))
    cases hroom : ans.room with
    | false =>
      have hnone : (none : Option FdTable) = σ.child.map Subtype.val := by rw [hok]; rfl
      refine ⟨false, _, σ, ?_, Or.inl ⟨rfl, rfl⟩,
        after_own hp hv s.heap { s.proc p with child := none }
          ⟨hv.table, hnone, hv.held⟩ rfl rfl rfl hc⟩
      simp only [exec, htable, hroom, fdTableDup_failed, ok_bind, Option.isSome_none]
    | true =>
      have hdup := fdTableDup_spec t.2 (fun f hf => hc.ne_none (hmem f hf))
      refine ⟨true, _, { σ with child := some ⟨t.1.copy, t.2.copy⟩ }, ?_, Or.inr ⟨rfl, _, rfl⟩,
        after_own hp hv (s.heap.gets t.1.kept) { s.proc p with child := some t.1.copy }
          ⟨hv.table, rfl, hv.held⟩ rfl rfl rfl ?_⟩
      · simp only [exec, htable, hroom, hdup, ok_bind, Option.isSome_some]
      · rw [refs_child hok, FdTable.files_copy, add_assoc]
        exact hc.gets (fun f hf => hmem f (FdTable.kept_subset hf))

theorem exec_childDrop (hok : ∀ t ∈ σ.child, t.1.files = 0) : Does kills p ans s σ .childDrop := by
  refine ⟨(), _, { σ with child := none }, rfl, rfl,
    after_own hp hv s.heap { s.proc p with child := none }
      ⟨hv.table, rfl, hv.held⟩ rfl rfl rfl ?_⟩
  have hzero : localFiles σ.child = 0 := by
    cases hchild : σ.child with
    | none => rfl
    | some t => exact hok t hchild
  rw [refs_dropChild, hzero, zero_add] at hc
  exact hc

end Child

/-! ## A new process -/

/-- The child of `p` becomes a process of its own. -/
def State.enqueued (p : ℕ) (s : State) : State :=
  { setProc s.nproc ⟨(s.proc p).child, none, 0, false, none⟩ s with nproc := s.nproc + 1 }

theorem State.enqueued_new :
    (s.enqueued p).proc s.nproc = ⟨(s.proc p).child, none, 0, false, none⟩ :=
  update_self ..

theorem State.enqueued_of_ne (hq : q ≠ s.nproc) : (s.enqueued p).proc q = s.proc q :=
  update_of_ne hq ..

theorem State.others_enqueued (hp : p < s.nproc) :
    (s.enqueued p).others p = tableFiles (s.proc p).child + s.others p := by
  have hrange : (Finset.range (s.nproc + 1)).erase p =
      insert s.nproc ((Finset.range s.nproc).erase p) := by
    rw [Finset.range_add_one, Finset.erase_insert_of_ne hp.ne']
  have hnew : s.nproc ∉ (Finset.range s.nproc).erase p := fun hmem =>
    Finset.notMem_range_self (Finset.mem_of_mem_erase hmem)
  change ∑ q ∈ (Finset.range (s.nproc + 1)).erase p, _ = _
  rw [hrange, Finset.sum_insert hnew, enqueued_new]
  congr 1
  · simp [Proc.refs, Proc.slots, tableFiles]
  · refine Finset.sum_congr rfl (fun q hq => ?_)
    rw [enqueued_of_ne (Finset.mem_range.mp (Finset.mem_of_mem_erase hq)).ne]

theorem exec_enqueue (hp : p < s.nproc) (hv : View p s σ)
    (hc : s.heap.Counts (σ.refs + s.others p)) (ans : Answer) (hok : σ.child.isSome) :
    Does kills p ans s σ .enqueue := by
  obtain ⟨t, ht⟩ := Option.isSome_iff_exists.mp hok
  have hchild : (s.proc p).child = some t.1 := by rw [hv.child, ht]; rfl
  have hp' : p < (s.enqueued p).nproc := Nat.lt_succ_of_lt hp
  have hself : (s.enqueued p).proc p = s.proc p := enqueued_of_ne hp.ne
  have hv' : View p (s.enqueued p) σ := by
    refine ⟨hself ▸ hv.toShows, fun q hq => Nat.lt_succ_of_lt (hv.seen q hq), fun q hq => ?_, ?_⟩
    · rw [enqueued_of_ne (hv.dead q hq).1.ne]
      exact ⟨Nat.lt_succ_of_lt (hv.dead q hq).1, (hv.dead q hq).2⟩
    · rw [hself]
      exact hv.zombie
  have hown : After p (s.enqueued p)
      (setProc p { s.proc p with child := none } { s.enqueued p with heap := s.heap })
      { σ with child := none } := by
    refine after_own hp' hv' s.heap { s.proc p with child := none }
      ⟨hv.table, rfl, hv.held⟩ (by rw [hself]) rfl rfl ?_
    rw [others_enqueued hp, hchild, add_left_comm, ← add_assoc]
    rw [refs_dropChild, ht] at hc
    exact hc
  refine ⟨ans.value, _, _, rfl, rfl, hown.view, hown.counts, ⟨?_, ?_, ?_, ?_⟩, ?_⟩
  · exact Nat.le_succ _
  · exact fun hz => hown.frame.zombie (by rwa [hself])
  · intro q hq hne
    have hleft := hown.frame.left q (Nat.lt_succ_of_lt hq) hne
    rwa [enqueued_of_ne hq.ne] at hleft
  · intro q hge hlt
    obtain rfl : q = s.nproc := Nat.le_antisymm (Nat.lt_succ_iff.mp hlt) hge
    have hnew : (setProc p { s.proc p with child := none } (s.enqueued p)).proc s.nproc =
        ⟨some t.1, none, 0, false, none⟩ := by
      rw [← hchild, ← enqueued_new]
      exact update_of_ne hp.ne' ..
    exact hnew ▸ ⟨rfl, rfl, rfl, t, rfl⟩
  · intro q hq hz
    have hmade := hown.made q (Nat.lt_succ_of_lt hq) hz
    rwa [enqueued_of_ne hq.ne] at hmade

/-! ## The end of a process -/

theorem Proc.refs_dropTable (pr : Proc) :
    pr.refs = tableFiles pr.fdTable + ({ pr with fdTable := none } : Proc).refs := by
  change tableFiles pr.fdTable + tableFiles pr.child + pr.held =
    tableFiles pr.fdTable + (0 + tableFiles pr.child + pr.held)
  rw [zero_add, add_assoc]

section End

variable (hp : p < s.nproc) (hv : View p s σ) (hc : s.heap.Counts s.refs)

include hv hc

section

variable (hq : q < s.nproc) (hwf : ∀ fdt, (s.proc q).fdTable = some fdt → fdt.Wf)
  (hzombie : q ≠ p → (s.proc q).zombie = true)

include hq hwf hzombie

theorem closeTable_spec :
    ∃ s', closeTable q s = .ok s' ∧ After p s s' (if q = p then σ.setTable none else σ) := by
  cases htable : (s.proc q).fdTable with
  | none =>
    refine ⟨s, by rw [closeTable, htable], ?_⟩
    have hsame : (if q = p then σ.setTable none else σ) = σ := by
      split
      · subst q
        have ht : σ.table = none := Option.map_eq_none_iff.mp (hv.table.symm.trans htable)
        rw [← ht]
        rfl
      · rfl
    rw [hsame]
    exact after_same hv hc
  | some fdt =>
    rw [refs_eq hq, Proc.refs_dropTable, htable, add_assoc] at hc
    obtain ⟨h', hfree, hcounts⟩ := hc.fdTableFree (hwf fdt htable)
    refine ⟨setProc q { s.proc q with fdTable := none } { s with heap := h' },
      by simp only [closeTable, htable, hfree, ok_bind], ?_⟩
    by_cases hqp : q = p
    · subst hqp
      have hshows : Shows { s.proc q with fdTable := none } (σ.setTable none) :=
        ⟨rfl, hv.child, hv.held⟩
      rw [if_pos rfl]
      exact after_own hq hv h' _ hshows rfl rfl rfl (hshows.refs ▸ hcounts)
    · rw [if_neg hqp]
      have hself : (setProc q { s.proc q with fdTable := none } s).proc p = s.proc p :=
        update_of_ne (Ne.symm hqp) ..
      exact after_setProc hv hq h' { s.proc q with fdTable := none } (hself.symm ▸ hv.toShows)
        (fun _ => ⟨rfl, rfl, rfl, id, Or.inr ⟨hzombie hqp, rfl⟩⟩) id rfl
        (fun _ => Or.inl) (fun _ => id) Or.inl hcounts

theorem exec_fdTableFree (ans : Answer) : Does kills p ans s σ (.fdTableFree q) := by
  obtain ⟨s', hrun, hafter⟩ := closeTable_spec hv hc hq hwf hzombie
  refine ⟨(), s', _, ?_, rfl, hafter⟩
  simp only [exec, hrun, ok_bind]

end

theorem exec_reap (ans : Answer)
    (hwf : ∀ q < s.nproc, ∀ fdt, (s.proc q).fdTable = some fdt → fdt.Wf) :
    Does kills p ans s σ .reap := by
  by_cases hcan : ans.addr < s.nproc ∧ ans.addr ≠ p ∧ (s.proc ans.addr).zombie = true
  · obtain ⟨hq, hne, hz⟩ := id hcan
    obtain ⟨s', hrun, hafter⟩ := closeTable_spec hv hc hq (hwf _ hq) (fun _ => hz)
    rw [if_neg hne] at hafter
    refine ⟨(), s', σ, ?_, rfl, hafter⟩
    simp only [exec, if_pos hcan, hrun, ok_bind]
  · refine ⟨(), s, σ, ?_, rfl, after_same hv hc⟩
    simp only [exec, if_neg hcan]

theorem exec_zombie (ans : Answer) (hq : q < s.nproc) : Does kills p ans s σ (.zombie q) := by
  have hshows : Shows ((setProc q { s.proc q with zombie := true } s).proc p)
      { σ with dead := q :: σ.dead } := by
    by_cases hqp : q = p
    · subst hqp
      have hself : (setProc q { s.proc q with zombie := true } s).proc q =
          { s.proc q with zombie := true } := update_self ..
      rw [hself]
      exact ⟨hv.table, hv.child, hv.held⟩
    · have hself : (setProc q { s.proc q with zombie := true } s).proc p = s.proc p :=
        update_of_ne (Ne.symm hqp) ..
      rw [hself]
      exact ⟨hv.table, hv.child, hv.held⟩
  rw [refs_eq hq] at hc
  refine ⟨(), _, _, rfl, rfl, after_setProc hv hq s.heap { s.proc q with zombie := true } hshows
    (fun _ => ⟨rfl, rfl, rfl, fun _ => rfl, Or.inl rfl⟩) (fun _ => rfl) rfl ?_
    (fun r hr => mem_cons_of_mem q hr) (fun _ => Or.inr mem_cons_self) hc⟩
  intro r hr
  rcases mem_cons.mp hr with rfl | hr
  · exact Or.inr ⟨rfl, rfl⟩
  · exact Or.inl hr

theorem exec_target (ans : Answer) : Does kills p ans s σ .target := by
  by_cases hcan : ans.room ∧ ans.addr < s.nproc
  · have hafter := after_same hv hc
    refine ⟨some ans.addr, s, _, if_pos hcan, Or.inr ⟨_, rfl, rfl⟩, ?_⟩
    refine ⟨⟨⟨hv.table, hv.child, hv.held⟩, fun q hq => ?_, hv.dead, hv.zombie⟩, hc, hafter.frame,
      hafter.made⟩
    rcases mem_cons.mp hq with rfl | hq
    · exact hcan.2
    · exact hv.seen q hq
  · exact ⟨none, s, σ, if_neg hcan, Or.inl ⟨rfl, rfl⟩, after_same hv hc⟩

theorem exec_ask (ans : Answer) : Does kills p ans s σ .ask :=
  ⟨ans.value, s, σ, rfl, rfl, after_same hv hc⟩

end End

/-- Every operation that meets the rules does what they say. -/
theorem exec_spec (hp : p < s.nproc) (hv : View p s σ) (hc : s.heap.Counts s.refs)
    (hwf : ∀ q < s.nproc, ∀ fdt, (s.proc q).fdTable = some fdt → fdt.Wf) (ans : Answer)
    {op : Op} (hok : (rules kills p).ok op σ) : Does kills p ans s σ op := by
  have hown : s.heap.Counts (σ.refs + s.others p) := by rwa [← hv.refs, ← refs_eq hp]
  cases op with
  | fdGet fd => exact exec_fdGet hp hv hown ans fd
  | fdAlloc => exact exec_fdAlloc hp hv hown ans
  | dupfdAlloc minfd => exact exec_dupfdAlloc hp hv hown ans hok
  | dup3Grow newfd => exact exec_dup3Grow hp hv hown ans hok
  | fdInstall fd f => exact exec_fdInstall hp hv hown ans hok
  | fdFree fd => exact exec_fdFree hp hv hown ans fd
  | fileGet f => exact exec_fileGet hp hv hown ans hok.1
  | filePut f => exact exec_filePut hp hv hown ans hok
  | vfsOpen => exact exec_vfsOpen hp hv hown ans
  | pipeFiles => exact exec_pipeFiles hp hv hown ans
  | ask => exact exec_ask hv hc ans
  | allocProc => exact exec_allocProc hp hv hown ans hok.1
  | childFree => exact exec_childFree hp hv hown ans
  | childDup => exact exec_childDup hp hv hown ans hok.1
  | childDrop => exact exec_childDrop hp hv hown ans hok
  | enqueue => exact exec_enqueue hp hv hown ans hok
  | reap => exact exec_reap hv hc ans hwf
  | fdTableFree q =>
    have hq : q < s.nproc ∧ (q ≠ p → (s.proc q).zombie = true) := by
      rcases hok with rfl | hdead
      · exact ⟨hp, fun hne => absurd rfl hne⟩
      · exact ⟨(hv.dead q hdead).1, fun _ => (hv.dead q hdead).2⟩
    exact exec_fdTableFree hv hc hq.1 (hwf q hq.1) hq.2 ans
  | zombie q =>
    have hq : q < s.nproc := by
      by_cases hqp : q = p
      · exact hqp ▸ hp
      · exact hv.seen q (hok.2 hqp).2
    exact exec_zombie hv hc ans hq
  | target => exact exec_target hv hc ans

end NoobKernel.Files
