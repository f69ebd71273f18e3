import NoobKernel.Model.Slab
import NoobKernel.Verification.Math
import Mathlib.Tactic.NormNum

/-! # The layout of a slab

Where the objects of a slab start, how many there are, and that header, bitmap and
objects fit into the blob for every object size the caches are made with. -/

namespace NoobKernel

open Nat

theorem add_pred_mod {x m : ℕ} (hpos : 0 < x) (hle : x ≤ m) : (x + m - 1) % m = x - 1 := by
  have hsum : x + m - 1 = x - 1 + m := by omega
  rw [hsum, add_mod_right, mod_eq_of_lt (by omega)]

/-! ## Alignment by masks -/

/-- The mask of a multiple of eight clears the three low bits, whether or not it is a
power of two. -/
theorem alignDown_mod_eight (x : ℕ) {n : ℕ} (hn : 0 < n) (h : 8 ∣ n) : alignDown x n % 8 = 0 := by
  have hlow : (n - 1) % 2 ^ 3 = 7 := by omega
  unfold alignDown
  rw [show (8 : ℕ) = 2 ^ 3 from rfl, and_mod_two_pow, xor_mod_two_pow, hlow]
  exact and_zero _

theorem alignDown_blob {a x : ℕ} (ha : slabBlobSize ∣ a) (hlow : a ≤ x)
    (hhigh : x < a + slabBlobSize) (hx : x < wordSize) : alignDown x slabBlobSize = a := by
  have hsum := alignDown_add hx (show slabBlobSize ≤ wordSize by decide)
  have hmask : x &&& (slabBlobSize - 1) = x % slabBlobSize := and_two_pow_sub_one_eq_mod x 16
  obtain ⟨m, rfl⟩ := ha
  rw [hmask] at hsum
  norm_num at hlow hhigh hsum ⊢
  omega

namespace Slab

/-! ## The number and the offset of the objects -/

/-- The sizes that a cache may be made with. -/
structure ObjSize (n : ℕ) : Prop where
  pos : 0 < n
  le : n ≤ slabMaxObjSize

/-- The distances between objects. -/
structure AllocSize (n : ℕ) : Prop where
  pos : 0 < n
  dvd : 8 ∣ n
  le : n ≤ slabMaxObjSize

theorem ObjSize.alignUp_eight {n : ℕ} (h : ObjSize n) : AllocSize (alignUp n 8) := by
  have hle := h.le
  have hpos := h.pos
  obtain ⟨hlow, hhigh⟩ := alignUp_bounds (show 0 < 8 by decide) (show n + 8 ≤ wordSize by
    norm_num at hle ⊢
    omega)
  have hmod : alignUp n 8 % 8 = 0 := alignDown_mod_eight _ (by decide) (dvd_refl 8)
  refine ⟨by omega, dvd_of_mod_eq_zero hmod, ?_⟩
  norm_num at hle ⊢
  omega

theorem ObjSize.alignUp_eq {n : ℕ} (h : ObjSize n) (hdvd : 8 ∣ n) : alignUp n 8 = n := by
  have hle := h.le
  obtain ⟨hlow, hhigh⟩ := alignUp_bounds (show 0 < 8 by decide) (show n + 8 ≤ wordSize by
    norm_num at hle ⊢
    omega)
  have hdvd' := h.alignUp_eight.dvd
  omega

namespace AllocSize

variable {n : ℕ}

theorem mod_eq (h : AllocSize n) : (8 * n + 1) % u32Size = 8 * n + 1 := by
  have hle := h.le
  norm_num at hle ⊢
  omega

theorem objectNum_mul_le (h : AllocSize n) : objectNum n * n ≤ slabBlobSize - sizeofSlab := by
  have hdiv : objectNum n ≤ (8 * (slabBlobSize - sizeofSlab) - 7) / (8 * n + 1) := by
    unfold objectNum
    rw [h.mod_eq]
    exact mod_le _ _
  have hmul := Nat.mul_le_of_le_div _ _ _ hdiv
  have hexpand : objectNum n * (8 * n + 1) = 8 * (objectNum n * n) + objectNum n := by
    rw [mul_add, mul_one, mul_left_comm]
  omega

theorem objectNum_le (h : AllocSize n) : objectNum n ≤ 8192 := by
  have hmul := h.objectNum_mul_le
  have hpos : 8 ≤ n := le_of_dvd h.pos h.dvd
  have h8 : objectNum n * 8 ≤ objectNum n * n := mul_le_mul_left _ hpos
  norm_num at hmul
  omega

theorem objectNum_pos (h : AllocSize n) : 0 < objectNum n := by
  have hle := h.le
  have hnum : (8 * (slabBlobSize - sizeofSlab) - 7) / (8 * n + 1) < u32Size :=
    (div_le_self _ _).trans_lt (by decide)
  unfold objectNum
  rw [h.mod_eq, mod_eq_of_lt hnum]
  norm_num at hle ⊢
  omega

end AllocSize

theorem le_bitmapSize {total : ℕ} (h : total ≤ 8192) :
    total ≤ 8 * bitmapSize total ∧ bitmapSize total ≤ 1024 := by
  obtain ⟨hlow, hhigh⟩ := alignUp_bounds (show 0 < 8 by decide) (show total + 8 ≤ wordSize by
    norm_num
    omega)
  have hmod : alignUp total 8 % 8 = 0 := alignDown_mod_eight _ (by decide) (dvd_refl 8)
  unfold bitmapSize
  omega

/-- Where the objects of size `n` start: behind the header and the bitmap, and on a
multiple of eight when their size is one. -/
structure IsOffset (n total offset : ℕ) : Prop where
  header_le : sizeofSlab + bitmapSize total ≤ offset
  dvd : 8 ∣ n → 8 ∣ offset

theorem objectOffset_spec {n total : ℕ} (hn : ObjSize n) (ht : total ≤ 8192) :
    IsOffset n total (objectOffset n total) ∧
      objectOffset n total ≤ sizeofSlab + bitmapSize total + (n - 1) := by
  have hle := hn.le
  have hbm := (le_bitmapSize ht).2
  obtain ⟨hlow, hhigh⟩ := alignUp_bounds (x := sizeofSlab + bitmapSize total) hn.pos (by
    norm_num at hle ⊢
    omega)
  have heq : objectOffset n total = alignUp (sizeofSlab + bitmapSize total) n := by
    apply mod_eq_of_lt
    norm_num at hle hhigh ⊢
    omega
  rw [heq]
  refine ⟨⟨hlow, ?_⟩, hhigh⟩
  intro hdvd
  exact dvd_of_mod_eq_zero (alignDown_mod_eight _ hn.pos hdvd)

theorem fitTotal_spec {n m : ℕ} (hn : ObjSize n) (hm : AllocSize m) {total : ℕ} (hpos : 0 < total)
    (hle : total ≤ objectNum m) :
    ∃ t, fitTotal n m total = .ok t ∧ 0 < t ∧ t ≤ objectNum m ∧
      objectOffset n t + t * m ≤ slabBlobSize := by
  induction total with
  | zero => omega
  | succ total ih =>
    have hnum := hm.objectNum_le
    have hmax := hn.le
    have hmmax := hm.le
    have hoff := (objectOffset_spec hn (show total + 1 ≤ 8192 by omega)).2
    have hbm := le_bitmapSize (show total + 1 ≤ 8192 by omega)
    have hmul : (total + 1) * m ≤ slabBlobSize - sizeofSlab :=
      (mul_le_mul_right m hle).trans hm.objectNum_mul_le
    have hlt : objectOffset n (total + 1) + (total + 1) * m < u32Size := by
      norm_num at hmax hmul hoff ⊢
      omega
    unfold fitTotal
    rw [mod_eq_of_lt hlt]
    by_cases hfit : objectOffset n (total + 1) + (total + 1) * m > slabBlobSize
    · rw [if_pos hfit]
      apply ih _ (by omega)
      by_contra hzero
      have htotal : total = 0 := by omega
      subst htotal
      have hone : bitmapSize (0 + 1) = 1 := by decide
      rw [hone] at hoff
      norm_num at hmax hmmax hoff hfit
      omega
    · rw [if_neg hfit]
      exact ⟨total + 1, rfl, by omega, hle, by omega⟩

end Slab

end NoobKernel
