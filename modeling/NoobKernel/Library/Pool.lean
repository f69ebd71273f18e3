import Mathlib.Data.List.Nodup

/-! # Pools

A pool tells which of its units are in use. `Extra` compares two states of a pool: the units in
`P` have come into use in between, and all others are as they were. -/

namespace NoobKernel.Library

open Function

variable {α : Type*} {u0 u u' : α → Bool} {P Q : α → Prop} {a b : α}

/-- The units in `P` were free and are in use now, and nothing else has changed. -/
structure Extra (u0 : α → Bool) (P : α → Prop) (u : α → Bool) : Prop where
  fresh : ∀ a, P a → u0 a = false
  used : ∀ a, u a = true ↔ u0 a = true ∨ P a

namespace Extra

theorem refl : Extra u (fun _ => False) u := ⟨fun _ h => h.elim, fun a => by simp⟩

section

variable (h : Extra u0 P u)

include h

theorem congr (hPQ : ∀ a, P a ↔ Q a) : Extra u0 Q u :=
  ⟨fun a ha => h.fresh a ((hPQ a).mpr ha), fun a => (h.used a).trans (or_congr_right (hPQ a))⟩

theorem kept (ha : u0 a = true) : u a = true := (h.used a).mpr (Or.inl ha)

theorem held (ha : P a) : u a = true := (h.used a).mpr (Or.inr ha)

theorem not_held (ha : u a = false) : ¬P a := by
  intro hP
  rw [h.held hP] at ha
  cases ha

theorem was_free (ha : u a = false) : u0 a = false := by
  rw [← Bool.not_eq_true]
  intro hold
  rw [h.kept hold] at ha
  cases ha

theorem eq (hP : ∀ a, ¬P a) : u = u0 := by
  funext a
  rw [Bool.eq_iff_iff, h.used a]
  exact or_iff_left (hP a)

theorem ne (ha : P a) : u ≠ u0 := by
  rintro rfl
  cases (h.fresh a ha).symm.trans (h.held ha)

end

variable [DecidableEq α]

theorem take (h : Extra u0 P u) (ha : u a = false) :
    Extra u0 (fun b => P b ∨ b = a) (update u a true) := by
  refine ⟨?_, fun b => ?_⟩
  · rintro b (hb | rfl)
    · exact h.fresh b hb
    · exact h.was_free ha
  · by_cases hb : b = a
    · simp [hb]
    · simp [hb, h.used b]

theorem give (h : Extra u0 P u) (ha : P a) :
    Extra u0 (fun b => P b ∧ b ≠ a) (update u a false) := by
  refine ⟨fun b hb => h.fresh b hb.1, fun b => ?_⟩
  by_cases hb : b = a
  · simp [hb, h.fresh a ha]
  · simp [hb, h.used b]

end Extra

/-- The units of a list have come into use, each of them once. -/
structure Stock (u0 : α → Bool) (l : List α) (u : α → Bool) : Prop where
  nodup : l.Nodup
  extra : Extra u0 (· ∈ l) u

namespace Stock

variable {l : List α}

theorem nil : Stock u [] u := ⟨List.nodup_nil, Extra.refl.congr (fun a => by simp)⟩

theorem not_mem (h : Stock u0 l u) (ha : u a = false) : a ∉ l := h.extra.not_held ha

theorem used (h : Stock u0 l u) (ha : a ∈ l) : u a = true := h.extra.held ha

theorem eq (h : Stock u0 [] u) : u = u0 := h.extra.eq (fun _ => List.not_mem_nil)

theorem perm {l' : List α} (h : Stock u0 l u) (hperm : l.Perm l') : Stock u0 l' u :=
  ⟨hperm.nodup_iff.mp h.nodup, h.extra.congr fun _ => hperm.mem_iff⟩

variable [DecidableEq α]

theorem take (h : Stock u0 l u) (ha : u a = false) : Stock u0 (a :: l) (update u a true) := by
  refine ⟨List.nodup_cons.mpr ⟨h.not_mem ha, h.nodup⟩, (h.extra.take ha).congr fun b => ?_⟩
  rw [List.mem_cons, or_comm]

theorem give (h : Stock u0 l u) (ha : a ∈ l) : Stock u0 (l.erase a) (update u a false) := by
  refine ⟨h.nodup.erase a, (h.extra.give ha).congr fun b => ?_⟩
  rw [h.nodup.mem_erase_iff, and_comm]

end Stock

end NoobKernel.Library
