import NoobKernel.Verification.PageTable.Copy
import NoobKernel.Model.Mmap

/-! # Page tables in one memory -/

namespace NoobKernel.Vm

open Library Library.Radix Function

/-- Pages that may be mapped: in use and no tables. -/
structure IsFrame (m : Memory) (roots : ℕ → Prop) (a : ℕ) : Prop where
  isPage : IsPage a
  used : m.used a = true
  notOwns : ∀ r, roots r → ¬ Owns m r a

/-- Page tables that share no table and map pages only. -/
structure Spaces (m : Memory) (roots : ℕ → Prop) : Prop where
  table : ∀ r, roots r → Table m r
  apart : ∀ r r', roots r → roots r' → r ≠ r' → ∀ a, Owns m r a → ¬ Owns m r' a
  leaf : ∀ r va, roots r → IsMapped r va m → IsLeaf (pteOf r va m)
  frame : ∀ r va, roots r → IsMapped r va m → IsFrame m roots (frameOf r va m)

variable {m m' : Memory} {roots : ℕ → Prop} {r r' va pa a : ℕ}

theorem Spaces.mono {roots' : ℕ → Prop} (h : Spaces m roots) (hsub : ∀ r, roots' r → roots r) :
    Spaces m roots' := by
  refine ⟨fun r hr => h.table r (hsub r hr),
    fun r r' hr hr' => h.apart r r' (hsub r hr) (hsub r' hr'),
    fun r va hr => h.leaf r va (hsub r hr), fun r va hr hv => ?_⟩
  obtain ⟨hpage, hused, hnot⟩ := h.frame r va (hsub r hr) hv
  exact ⟨hpage, hused, fun r' hr' => hnot r' (hsub r' hr')⟩

theorem isMapped_congr {va' : ℕ} (h : vpn va = vpn va') : IsMapped r va m ↔ IsMapped r va' m := by
  rw [IsMapped, IsMapped, pteOf_congr h]

theorem frameOf_congr {va' : ℕ} (h : vpn va = vpn va') : frameOf r va m = frameOf r va' m := by
  rw [frameOf, frameOf, pteOf_congr h]

/-! ## Changes of one table -/

section Edit

variable {P : ℕ → Prop} (h : Spaces m roots) (hr : roots r) (hedit : Edited r P m m')

include h hr hedit

theorem Spaces.word_other (hr' : roots r') (hne : r' ≠ r) :
    ∀ a, Owns m r' a → m'.word a = m.word a := by
  intro a ha
  exact hedit.frame a ((h.table r' hr').pages a ha).2 (h.apart r' r hr' hr hne a ha)

theorem Spaces.pteOf_other (hr' : roots r') (hne : r' ≠ r) (va : ℕ) :
    pteOf r' va m' = pteOf r' va m :=
  pteOf_owned (h.word_other hr hedit hr' hne) va

theorem Spaces.owns_other (hr' : roots r') (hne : r' ≠ r) : Owns m' r' a ↔ Owns m r' a :=
  owns_congr (h.word_other hr hedit hr' hne)

theorem Spaces.isFrame_edit (ha : IsFrame m roots a) : IsFrame m' roots a := by
  refine ⟨ha.isPage, hedit.used a ha.used, fun r' hr' => ?_⟩
  by_cases hne : r' = r
  · rw [hne]
    exact hedit.notOwns ha.used (ha.notOwns r hr)
  · rw [h.owns_other hr hedit hr' hne]
    exact ha.notOwns r' hr'

theorem Spaces.edit (hnew : ∀ va, P va → IsMapped r va m' →
      IsLeaf (pteOf r va m') ∧ IsFrame m' roots (frameOf r va m')) :
    Spaces m' roots := by
  have hentry : ∀ r' va, roots r' → IsMapped r' va m' →
      IsLeaf (pteOf r' va m') ∧ IsFrame m' roots (frameOf r' va m') := by
    intro r' va hr' hv
    by_cases hne : r' = r
    · subst hne
      by_cases hp : P va
      · exact hnew va hp hv
      · rw [IsMapped, hedit.same va hp] at hv
        rw [frameOf, hedit.same va hp]
        exact ⟨h.leaf r' va hr' hv, h.isFrame_edit hr hedit (h.frame r' va hr' hv)⟩
    · have hsame := h.pteOf_other hr hedit hr' hne va
      rw [IsMapped, hsame] at hv
      rw [frameOf, hsame]
      exact ⟨h.leaf r' va hr' hv, h.isFrame_edit hr hedit (h.frame r' va hr' hv)⟩
  -- a page that is new in the changed table was free, so no other table has it
  have hapart : ∀ r', roots r' → r' ≠ r → ∀ a, Owns m' r a → ¬ Owns m' r' a := by
    intro r' hr' hne a ha ha'
    rw [h.owns_other hr hedit hr' hne] at ha'
    rcases hedit.fresh a ha with hold | hfree
    · exact h.apart r r' hr hr' hne.symm a hold ha'
    · exact (h.table r' hr').notOwns hfree ha'
  refine ⟨?_, ?_, fun r' va hr' hv => (hentry r' va hr' hv).1,
    fun r' va hr' hv => (hentry r' va hr' hv).2⟩
  · intro r' hr'
    by_cases hne : r' = r
    · exact hne ▸ hedit.table
    · refine (h.table r' hr').other (fun a ha => ?_)
      exact ⟨h.word_other hr hedit hr' hne a ha, hedit.used a ((h.table r' hr').pages a ha).2⟩
  · intro r' r'' hr' hr'' hne a ha ha''
    by_cases hr1 : r' = r
    · subst hr1
      exact hapart r'' hr'' hne.symm a ha ha''
    by_cases hr2 : r'' = r
    · subst hr2
      exact hapart r' hr' hr1 a ha'' ha
    · rw [h.owns_other hr hedit hr' hr1] at ha
      rw [h.owns_other hr hedit hr'' hr2] at ha''
      exact h.apart r' r'' hr' hr'' hne a ha ha''

end Edit

/-! ## Changes elsewhere -/

/-- The tables and the pages that they map are as they were. -/
structure Untouched (m : Memory) (roots : ℕ → Prop) (m' : Memory) : Prop where
  word : ∀ r a, roots r → Owns m r a → m'.word a = m.word a
  used : ∀ r a, roots r → Owns m r a → m'.used a = true
  frame : ∀ r va, roots r → IsMapped r va m → m'.used (frameOf r va m) = true

namespace Untouched

variable (hsame : Untouched m roots m')

include hsame

theorem owns (hr : roots r) : Owns m' r a ↔ Owns m r a := owns_congr (fun b => hsame.word r b hr)

theorem pteOf_eq (hr : roots r) (va : ℕ) : pteOf r va m' = pteOf r va m :=
  pteOf_owned (fun b => hsame.word r b hr) va

theorem isFrame (ha : IsFrame m roots a) (hu : m'.used a = true) : IsFrame m' roots a := by
  refine ⟨ha.isPage, hu, fun r hr => ?_⟩
  rw [hsame.owns hr]
  exact ha.notOwns r hr

theorem trans {m'' : Memory} (hsame' : Untouched m' roots m'') : Untouched m roots m'' := by
  have hown : ∀ r a, roots r → Owns m r a → Owns m' r a := fun r a hr ha => (hsame.owns hr).mpr ha
  refine ⟨?_, fun r a hr ha => hsame'.used r a hr (hown r a hr ha), ?_⟩
  · intro r a hr ha
    rw [hsame'.word r a hr (hown r a hr ha), hsame.word r a hr ha]
  · intro r va hr hv
    have hpte := hsame.pteOf_eq hr va
    have hframe := hsame'.frame r va hr (by rwa [IsMapped, hpte])
    rwa [frameOf, hpte] at hframe

theorem spaces (h : Spaces m roots) : Spaces m' roots := by
  refine ⟨?_, ?_, ?_, ?_⟩
  · intro r hr
    exact (h.table r hr).other (fun a ha => ⟨hsame.word r a hr ha, hsame.used r a hr ha⟩)
  · intro r r' hr hr' hne a
    rw [hsame.owns hr, hsame.owns hr']
    exact h.apart r r' hr hr' hne a
  · intro r va hr
    rw [IsMapped, hsame.pteOf_eq hr]
    exact h.leaf r va hr
  · intro r va hr hv
    rw [IsMapped, hsame.pteOf_eq hr] at hv
    rw [frameOf, hsame.pteOf_eq hr]
    exact hsame.isFrame (h.frame r va hr hv) (hsame.frame r va hr hv)

end Untouched

theorem Spaces.untouched (h : Spaces m roots) (hword : ∀ a, m.used a = true → m'.word a = m.word a)
    (hused : ∀ a, m.used a = true → m'.used a = true) : Untouched m roots m' :=
  ⟨fun r a hr ha => hword a ((h.table r hr).pages a ha).2,
    fun r a hr ha => hused a ((h.table r hr).pages a ha).2,
    fun r va hr hv => hused _ (h.frame r va hr hv).used⟩

theorem Untouched.refl (h : Spaces m roots) : Untouched m roots m :=
  h.untouched (fun _ _ => rfl) (fun _ hu => hu)

theorem Spaces.write {row : Index → ℕ} (h : Spaces m roots) (hpa : IsFrame m roots pa) :
    Untouched m roots { m with word := update m.word pa row } := by
  refine ⟨fun r a hr ha => update_of_ne ?_ _ _,
    fun r a hr ha => ((h.table r hr).pages a ha).2, fun r va hr hv => (h.frame r va hr hv).used⟩
  rintro rfl
  exact hpa.notOwns r hr ha

/-! ## The allocator -/

/-- What the allocator does to the tables. -/
structure Allocated (m : Memory) (roots : ℕ → Prop) (pa : ℕ) (m' : Memory) : Prop where
  spaces : Spaces m' roots
  frame : IsFrame m' roots pa
  free : m.used pa = false
  same : ∀ r va, roots r → pteOf r va m' = pteOf r va m
  word : ∀ a, m.used a = true → m'.word a = m.word a
  used : ∀ a, m'.used a = true ↔ m.used a = true ∨ a = pa
  isFrame : ∀ a, IsFrame m roots a → IsFrame m' roots a

theorem Spaces.kzalloc (h : Spaces m roots) :
    (∃ m', kzalloc m = (none, m') ∧ m'.word = m.word ∧ m'.used = m.used) ∨
      ∃ pa m', kzalloc m = (some pa, m') ∧ Allocated m roots pa m' := by
  rcases kzalloc_cases m with ⟨answers, hnone⟩ | ⟨pa, answers, hpage, hfree, hsome⟩
  · exact Or.inl ⟨_, hnone, rfl, rfl⟩
  set m1 := m.take pa answers with hm1
  refine Or.inr ⟨pa, m1, hsome, ?_⟩
  have hword : ∀ a, m.used a = true → m1.word a = m.word a :=
    fun a hu => update_of_ne (ne_of_used hu hfree) _ _
  have hused : ∀ a, m1.used a = true ↔ m.used a = true ∨ a = pa := by
    intro a
    by_cases ha : a = pa <;> simp [hm1, ha]
  have hsame := h.untouched hword (fun a hu => (hused a).mpr (Or.inl hu))
  refine ⟨hsame.spaces h, ⟨hpage, (hused pa).mpr (Or.inr rfl), ?_⟩, hfree,
    fun r va hr => hsame.pteOf_eq hr va, hword, hused,
    fun a ha => hsame.isFrame ha ((hused a).mpr (Or.inl ha.used))⟩
  intro r hr
  rw [hsame.owns hr]
  exact (h.table r hr).notOwns hfree

theorem Allocated.frame_ne (halloc : Allocated m roots pa m') (h : Spaces m roots) (hr : roots r)
    (hv : IsMapped r va m') : frameOf r va m' ≠ pa := by
  rw [IsMapped, halloc.same r va hr] at hv
  rw [frameOf, halloc.same r va hr]
  exact ne_of_used (h.frame r va hr hv).used halloc.free

@[simp] theorem pteOf_kfree : pteOf r va (kfree a m) = pteOf r va m := pteOf_of_word rfl

/-! ## Pages are given back -/

/-- Only pages in `P` have been freed, and nothing else has changed. -/
structure Freed (P : ℕ → Prop) (m m' : Memory) : Prop where
  word : m'.word = m.word
  answers : m'.answers = m.answers
  same : ∀ a, ¬ P a → m'.used a = m.used a
  free : ∀ a, m.used a = false → m'.used a = false

namespace Freed

variable {m'' : Memory} {P Q : ℕ → Prop}

theorem refl : Freed P m m := ⟨rfl, rfl, fun _ _ => rfl, fun _ hfree => hfree⟩

theorem mono (h : Freed P m m') (hPQ : ∀ a, P a → Q a) : Freed Q m m' :=
  ⟨h.word, h.answers, fun a ha => h.same a (fun hp => ha (hPQ a hp)), h.free⟩

theorem trans (h : Freed P m m') (h' : Freed P m' m'') : Freed P m m'' :=
  ⟨h'.word.trans h.word, h'.answers.trans h.answers,
    fun a ha => (h'.same a ha).trans (h.same a ha), fun a hfree => h'.free a (h.free a hfree)⟩

theorem kfree (ha : P a) : Freed P m (kfree a m) := by
  refine ⟨rfl, rfl, fun b hb => update_of_ne (fun he : b = a => hb (he ▸ ha)) _ _, ?_⟩
  intro b hfree
  by_cases he : b = a
  · rw [he]
    exact update_self _ _ _
  · exact (update_of_ne he _ _).trans hfree

theorem untouched (hf : Freed P m m') (h : Spaces m roots)
    (hnot : ∀ r a, roots r → Owns m r a → ¬ P a)
    (hun : ∀ r va, roots r → IsMapped r va m → ¬ P (frameOf r va m)) : Untouched m roots m' := by
  refine ⟨fun _ _ _ _ => by rw [hf.word], fun r a hr ha => ?_, fun r va hr hv => ?_⟩
  · rw [hf.same a (hnot r a hr ha)]
    exact ((h.table r hr).pages a ha).2
  · rw [hf.same _ (hun r va hr hv)]
    exact (h.frame r va hr hv).used

end Freed

/-! ## Page tables are given back -/

variable {m : Memory} {P : ℕ → Prop}

theorem Freed.foldl {α : Type} {f : Memory → α → Memory} {xs : List α}
    (hf : ∀ x m', m'.word = m.word → Freed P m' (f m' x)) : Freed P m (xs.foldl f m) := by
  suffices hrun : ∀ m', Freed P m m' → Freed P m (xs.foldl f m') from hrun m Freed.refl
  induction xs with
  | nil => exact fun _ h => h
  | cons x xs ih => exact fun m' h => ih _ (h.trans (hf x m' h.word))

/-- `pagetable_destroy_level` frees the tables from a level downward. -/
theorem pagetableDestroyLevel_spec (level : ℕ) : ∀ pt m,
    Freed (Below pteChild m.word pt level) m (pagetableDestroyLevel level pt m) := by
  induction level with
  | zero =>
    intro pt m
    exact Freed.kfree Below.self
  | succ level ih =>
    intro pt m
    refine Freed.trans (Freed.foldl ?_) (Freed.kfree Below.self)
    intro i m' hword
    split
    · rename_i hv
      refine (ih (pte2pa (m'.word pt i)) m').mono (fun a ha => ?_)
      have hchild := pteChild_of_valid hv
      rw [← hword]
      exact ha.cons hchild
    · exact Freed.refl

theorem pagetableDestroy_spec (pt : ℕ) (m : Memory) : Freed (Owns m pt) m (pagetableDestroy pt m) :=
  pagetableDestroyLevel_spec 2 pt m

/-! ## Single pages of a table -/

variable {root : ℕ}

theorem mappages_one (va pa perm : ℕ) :
    (∃ e, e ≠ 0 ∧ ∀ root m, root ≠ 0 → mappages root va pa 1 perm m = (e, m)) ∨
      ∀ root m, root ≠ 0 →
        mappages root va pa 1 perm m = mapLoop root 1 va pa (perm &&& permMask) m := by
  unfold mappages
  simp only [one_ne_zero, if_false]
  split
  · exact Or.inl ⟨-einval, by decide, fun _ _ hroot => if_neg hroot⟩
  split
  · exact Or.inl ⟨-erange, by decide, fun _ _ hroot => if_neg hroot⟩
  split
  · exact Or.inl ⟨-erange, by decide, fun _ _ hroot => if_neg hroot⟩
  · exact Or.inr fun _ _ hroot => if_neg hroot

/-- `mappages` for one page either fails and changes no entry, or maps a page that was not
valid. -/
theorem Table.mapPage (h : Table m root) (va pa perm : ℕ) :
    ∃ r m', Vm.mappages root va pa 1 perm m = (r, m') ∧ Grown root (AtPage va) m m' ∧
      (r ≠ 0 ∧ (∀ va', pteOf root va' m' = pteOf root va' m) ∨
        r = 0 ∧ ¬ IsMapped root va m ∧ pteOf root va m' = leafPte pa (perm &&& permMask)) := by
  have hroot := h.root_ne_zero
  rcases mappages_one va pa perm with ⟨e, he, hfail⟩ | hloop
  · exact ⟨e, m, hfail root m hroot, Grown.refl h, Or.inl ⟨he, fun _ => rfl⟩⟩
  rw [hloop root m hroot, mapLoop]
  obtain ⟨r, m1, hr, hgrown, hloc⟩ := h.va2pte va
  rw [hr]
  cases r with
  | none => exact ⟨_, m1, rfl, hgrown.any, Or.inl ⟨by decide, hgrown.pteOf_eq⟩⟩
  | some loc =>
    obtain ⟨hold, hwrite⟩ := hloc loc rfl
    dsimp only
    rw [hold]
    by_cases hv : pteOf root va m &&& pteV ≠ 0
    · rw [if_pos hv]
      exact ⟨_, m1, rfl, hgrown.any, Or.inl ⟨by decide, hgrown.pteOf_eq⟩⟩
    · rw [if_neg hv]
      obtain ⟨hset, hnew⟩ := hwrite (leafPte pa (perm &&& permMask))
      exact ⟨0, _, rfl, hset, Or.inr ⟨rfl, hv, hnew⟩⟩

theorem Table.reservePage (h : Table m root) (va : ℕ) :
    ∃ r m', Vm.reservePage va root m = (r, m') ∧ Grown root (AtPage va) m m' ∧
      (r ≠ 0 ∧ (∀ va', pteOf root va' m' = pteOf root va' m) ∨
        r = 0 ∧ pteOf root va m' = pteMmapReserved) := by
  unfold Vm.reservePage
  obtain ⟨r, m1, hr, hgrown, hloc⟩ := h.va2pte va
  rw [hr]
  cases r with
  | none => exact ⟨_, m1, rfl, hgrown.any, Or.inl ⟨by decide, hgrown.pteOf_eq⟩⟩
  | some loc =>
    obtain ⟨hset, hnew⟩ := (hloc loc rfl).2 pteMmapReserved
    exact ⟨0, _, rfl, hset, Or.inr ⟨rfl, hnew⟩⟩

theorem unmapLoop_invalid {n : ℕ} (h : ∀ i < n, pteOf root (va + i * pageSize) m &&& pteV = 0) :
    unmapLoop root n va m = m := by
  induction n generalizing va with
  | zero => rfl
  | succ n ih =>
    have hhead : pteOf root va m &&& pteV = 0 := by simpa using h 0 (Nat.succ_pos n)
    have htail : unmapLoop root n (va + pageSize) m = m := by
      refine ih (fun i hi => ?_)
      have hnext := h (i + 1) (Nat.succ_lt_succ hi)
      rwa [Nat.succ_mul, Nat.add_comm _ pageSize, ← Nat.add_assoc] at hnext
    rw [unmapLoop, va2pte_false]
    cases ha : descend pteChild m.word root (indices va 2) with
    | none => exact htail
    | some a =>
      rw [pteOf_some ha] at hhead
      simp only [Option.map_some, hhead, ne_eq, not_true_eq_false, if_false]
      exact htail

theorem vpn_alignDown (hva : va < wordSize) : vpn (alignDown va pageSize) = vpn va := by
  rw [alignDown_two_pow hva (by decide)]
  unfold vpn
  norm_num

theorem Table.unmapPage (h : Table m root) (hva : va < wordSize) :
    Grown root (AtPage va) m (Vm.unmapPage va root m) ∧
      pteOf root va (Vm.unmapPage va root m) = 0 := by
  have hloop : ∀ m', pteOf root va m' = 0 → (Vm.unmappages root va 1 m').2 = m' := by
    intro m' hzero
    refine unmapLoop_invalid (fun i hi => ?_)
    have hcount : i = 0 := by
      have hle : ((alignDown va pageSize + 1 * pageSize) % wordSize - alignDown va pageSize) /
          pageSize ≤ 1 := by
        have hmod := Nat.mod_le (alignDown va pageSize + 1 * pageSize) wordSize
        exact Nat.div_le_of_le_mul (by omega)
      omega
    have hpte : pteOf root (alignDown va pageSize + i * pageSize) m' = pteOf root va m' := by
      rw [hcount, Nat.zero_mul, Nat.add_zero]
      exact pteOf_congr (vpn_alignDown hva)
    rw [hpte, hzero]
    rfl
  unfold Vm.unmapPage
  rcases h.findPte va with ⟨hnone, hzero⟩ | ⟨loc, hsome, -, hwrite⟩
  · simp only [hnone, hloop m hzero]
    exact ⟨Grown.refl h, hzero⟩
  · obtain ⟨hset, hnew⟩ := hwrite 0
    simp only [hsome, hloop _ hnew]
    exact ⟨hset, hnew⟩

theorem Table.protectPage (h : Table m root) (va perm : ℕ) :
    (¬ IsMapped root va m ∧ Vm.protectPage va perm root m = (-enomem, m)) ∨
      IsMapped root va m ∧ ∃ m', Vm.protectPage va perm root m = (0, m') ∧
        Grown root (AtPage va) m m' ∧ pteOf root va m' = leafPte (frameOf root va m) perm := by
  unfold Vm.protectPage
  rcases h.findPte va with ⟨hnone, hzero⟩ | ⟨loc, hsome, hold, hwrite⟩
  · rw [hnone]
    refine Or.inl ⟨?_, rfl⟩
    rw [IsMapped, hzero]
    exact not_not.mpr rfl
  · rw [hsome]
    dsimp only
    rw [hold]
    obtain ⟨hset, hnew⟩ := hwrite (leafPte (frameOf root va m) perm)
    by_cases hv : pteOf root va m &&& pteV = 0
    · rw [if_pos hv]
      exact Or.inl ⟨not_not.mpr hv, rfl⟩
    · rw [if_neg hv]
      exact Or.inr ⟨hv, _, rfl, hset, hnew⟩

end NoobKernel.Vm
