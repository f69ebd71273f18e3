import NoobKernel.Model.Vma

/-! # Regions are sorted and disjoint

`vma_insert` ends its test for overlaps at the first region behind the new one. That is enough as
long as no region ends behind the last address of a register. -/

namespace NoobKernel.Region

open List Vm

variable {a b new vma : Vma} {vmas rest : List Vma} {va : ℕ} {e : Event}

/-- The addresses of a region, in exact arithmetic. -/
def Vma.Has (vma : Vma) (va : ℕ) : Prop := vma.start ≤ va ∧ va < vma.start + vma.length

/-- Regions in their order in the list. -/
structure Before (a b : Vma) : Prop where
  le : a.start ≤ b.start
  disjoint : ∀ va, ¬ (a.Has va ∧ b.Has va)

def Inside (vma : Vma) : Prop := vmStart ≤ vma.start ∧ vma.start + vma.length ≤ vmEnd

structure Sound (vmas : List Vma) : Prop where
  ordered : vmas.Pairwise Before
  inside : ∀ vma ∈ vmas, Inside vma

theorem Inside.stop_eq (h : Inside vma) : vma.stop = vma.start + vma.length :=
  Nat.mod_eq_of_lt (lt_of_le_of_lt h.2 (by decide))

theorem disjoint_of_test (ha : Inside a) (hb : Inside b)
    (h : a.stop ≤ b.start ∨ b.stop ≤ a.start) (va : ℕ) : ¬ (a.Has va ∧ b.Has va) := by
  rw [ha.stop_eq, hb.stop_eq] at h
  simp only [Vma.Has]
  omega

theorem sound_cons : Sound (vma :: rest) ↔
    (∀ b ∈ rest, Before vma b) ∧ Inside vma ∧ Sound rest := by
  constructor
  · rintro ⟨hordered, hinside⟩
    obtain ⟨hbefore, hrest⟩ := pairwise_cons.mp hordered
    obtain ⟨hvma, hinside⟩ := forall_mem_cons.mp hinside
    exact ⟨hbefore, hvma, hrest, hinside⟩
  · rintro ⟨hbefore, hvma, hrest, hinside⟩
    exact ⟨pairwise_cons.mpr ⟨hbefore, hrest⟩, forall_mem_cons.mpr ⟨hvma, hinside⟩⟩

theorem mem_vmaInsert (h : vma ∈ (vmaInsert new vmas).2) : vma = new ∨ vma ∈ vmas := by
  induction vmas with
  | nil => simpa [vmaInsert] using h
  | cons a rest ih =>
    unfold vmaInsert at h
    split at h
    · exact Or.inr h
    split at h
    · simpa using h
    · rcases mem_cons.mp h with rfl | h
      · simp
      · exact (ih h).imp_right (mem_cons_of_mem a)

theorem Sound.vmaInsert (h : Sound vmas) (hnew : Inside new) : Sound (vmaInsert new vmas).2 := by
  induction vmas with
  | nil => exact sound_cons.mpr ⟨by simp, hnew, h⟩
  | cons a rest ih =>
    obtain ⟨hbefore, ha, hrest⟩ := sound_cons.mp h
    unfold Region.vmaInsert
    split
    · exact h
    next htest =>
      have hdisjoint := disjoint_of_test hnew ha (not_not.mp htest)
      split
      next hlt =>
        refine sound_cons.mpr ⟨fun b hb => ?_, hnew, h⟩
        -- the regions behind `a` begin where it does or later
        have hle : a.start ≤ b.start := by
          rcases mem_cons.mp hb with rfl | hb
          · exact le_rfl
          · exact (hbefore b hb).le
        rw [not_not, hnew.stop_eq, ha.stop_eq] at htest
        refine ⟨by omega, fun va => ?_⟩
        simp only [Vma.Has]
        omega
      next hge =>
        refine sound_cons.mpr ⟨fun b hb => ?_, ha, ih hrest⟩
        rcases mem_vmaInsert hb with rfl | hb
        · exact ⟨not_lt.mp hge, fun va hva => hdisjoint va hva.symm⟩
        · exact hbefore b hb

theorem Sound.vmaRemove (h : Sound vmas) (start length : ℕ) :
    Sound (vmaRemove start length vmas).2 := by
  unfold Region.vmaRemove
  split
  · exact h
  split
  · exact h
  · exact ⟨h.ordered.sublist erase_sublist, fun vma hvma => h.inside vma (mem_of_mem_erase hvma)⟩

theorem Sound.vmaFind_iff (h : Sound vmas) :
    vmaFind va vmas = some vma ↔ vma ∈ vmas ∧ vma.Has va := by
  induction vmas with
  | nil => simp [vmaFind]
  | cons a rest ih =>
    obtain ⟨hbefore, ha, hrest⟩ := sound_cons.mp h
    unfold vmaFind
    rw [ha.stop_eq, mem_cons]
    split
    next hlt =>
      refine ⟨nofun, ?_⟩
      rintro ⟨rfl | hmem, hhas⟩
      · exact absurd hhas.1 (not_le.mpr hlt)
      · exact absurd ((hbefore vma hmem).le.trans hhas.1) (not_le.mpr hlt)
    next hge =>
      split
      next hlt =>
        have hhas : a.Has va := ⟨not_lt.mp hge, hlt⟩
        constructor
        · rintro ⟨⟩
          exact ⟨Or.inl rfl, hhas⟩
        · rintro ⟨rfl | hmem, hhas'⟩
          · rfl
          · exact absurd ⟨hhas, hhas'⟩ ((hbefore vma hmem).disjoint va)
      next hbehind =>
        rw [ih hrest]
        refine ⟨fun hfound => ⟨Or.inr hfound.1, hfound.2⟩, ?_⟩
        rintro ⟨rfl | hmem, hhas⟩
        · exact absurd hhas.2 hbehind
        · exact ⟨hmem, hhas⟩

/-! ## Runs -/

/-- The end of a region that is to be inserted is a 64-bit number. -/
def Event.Fits : Event → Prop
  | .insert _ start length _ _ => start + length < wordSize
  | .remove _ _ => True

theorem Sound.next (h : Sound vmas) (hfits : e.Fits) : Sound (next vmas e) := by
  cases e with
  | insert room start length perm type =>
    simp only [Region.next]
    split
    · exact h
    next vma hcreate =>
      refine h.vmaInsert ?_
      unfold vmaCreate at hcreate
      dsimp only at hcreate
      split at hcreate
      · cases hcreate
      next htest =>
        split at hcreate
        · cases hcreate
          rw [not_or, not_or, Vma.stop, Nat.mod_eq_of_lt hfits] at htest
          exact ⟨not_lt.mp htest.1, (not_le.mp htest.2.1).le⟩
        · cases hcreate
  | remove start length => exact h.vmaRemove start length

theorem sound_foldl (h : Sound vmas) (events : List Event) (hfits : ∀ e ∈ events, e.Fits) :
    Sound (events.foldl Region.next vmas) := by
  induction events generalizing vmas with
  | nil => exact h
  | cons e events ih =>
    obtain ⟨he, hfits⟩ := forall_mem_cons.mp hfits
    exact ih (h.next he) hfits

/-- The regions of a process are sorted, disjoint and inside user memory, and `vma_find` finds the
one that has an address. -/
theorem vmas_sound (events : List Event) (hfits : ∀ e ∈ events, e.Fits) :
    Sound (events.foldl next []) ∧ ∀ va vma, vmaFind va (events.foldl next []) = some vma ↔
      vma ∈ events.foldl next [] ∧ vma.Has va := by
  have h : Sound (events.foldl next []) := sound_foldl ⟨.nil, by simp⟩ events hfits
  exact ⟨h, fun va vma => h.vmaFind_iff⟩

theorem vmas_sound_two : vmaFind 0x2800 ([.insert true 0x2000 0x1000 0 0,
    .insert true 0x1000 0x1000 0 0].foldl next []) = some ⟨0x2000, 0x1000, 0, 0⟩ :=
  ((vmas_sound [.insert true 0x2000 0x1000 0 0, .insert true 0x1000 0x1000 0 0]
    (by simp [Event.Fits, wordSize])).2 0x2800 ⟨0x2000, 0x1000, 0, 0⟩).mpr
      ⟨by decide, by decide, by decide⟩

/-- A region whose end wraps is accepted, and its addresses are not found. -/
theorem wrapped_region_accepted :
    ¬ Sound ([.insert true (wordSize - 1) 2 0 0].foldl next []) ∧
      ∃ vma ∈ [.insert true (wordSize - 1) 2 0 0].foldl next [],
        vma.Has (wordSize - 1) ∧
          vmaFind (wordSize - 1) ([.insert true (wordSize - 1) 2 0 0].foldl next []) = none := by
  refine ⟨fun h => ?_, ⟨wordSize - 1, 2, 0, 0⟩, by decide, ⟨by decide, by decide⟩, by decide⟩
  exact absurd (h.inside ⟨wordSize - 1, 2, 0, 0⟩ (by decide)).2 (by decide)

end NoobKernel.Region
