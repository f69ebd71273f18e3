import NoobKernel.Model.Basic
import Mathlib.Data.Nat.Log
import Mathlib.Tactic.Ring

/-! # Integer helpers -/

namespace NoobKernel

open Nat

/-! ## Integer logarithm -/

/-- The pair holds `n` bits of the logarithm, and a rest of less than `2 ^ w`. -/
structure Bisected (size : ℕ) (result : ℤ × ℕ) (n w : ℕ) : Prop where
  bits : result.1 = n
  value : result.2 = size >>> n
  pos : 0 < result.2
  lt : result.2 < 2 ^ w

theorem Bisected.step {size n w : ℕ} {result : ℤ × ℕ} (h : Bisected size result n (w + w)) :
    ∃ m, Bisected size (log2Step w result) m w := by
  unfold log2Step
  by_cases hw : result.2 ≥ 2 ^ w
  · rw [if_pos hw]
    refine ⟨n + w, by simp [h.bits], by simp [h.value, shiftRight_add], ?_, ?_⟩
    · rw [shiftRight_eq_div_pow]
      exact Nat.div_pos hw (Nat.two_pow_pos w)
    · rw [shiftRight_eq_div_pow]
      apply Nat.div_lt_of_lt_mul
      rw [← pow_add]
      exact h.lt
  · rw [if_neg hw]
    exact ⟨n, h.bits, h.value, h.pos, not_le.mp hw⟩

theorem shiftRight_eq_one {size n : ℕ} (h : size >>> n = 1) : 2 ^ n ≤ size ∧ size < 2 ^ (n + 1) := by
  rw [shiftRight_eq_div_pow] at h
  have hdiv := div_add_mod size (2 ^ n)
  rw [h] at hdiv
  omega

theorem land_pred_eq_zero {size n : ℕ} (hlow : 2 ^ n ≤ size) (hhigh : size < 2 ^ (n + 1)) :
    size &&& (size - 1) = 0 ↔ size = 2 ^ n := by
  constructor
  · intro hand
    by_contra hne
    have hbit := testBit_of_two_pow_le_and_two_pow_add_one_gt hlow hhigh
    have hbit' : (size - 1).testBit n = true :=
      testBit_of_two_pow_le_and_two_pow_add_one_gt (by omega) (by omega)
    have hboth : (size &&& (size - 1)).testBit n = true := by
      rw [testBit_and, hbit, hbit']
      rfl
    rw [hand, zero_testBit] at hboth
    cases hboth
  · intro heq
    rw [heq, and_two_pow_sub_one_eq_mod, mod_self]

theorem clog_eq_of_range {size n : ℕ} (hlow : 2 ^ n ≤ size) (hhigh : size < 2 ^ (n + 1)) :
    clog 2 size = if size = 2 ^ n then n else n + 1 := by
  split
  next heq => rw [heq, clog_pow 2 n (by decide)]
  next hne =>
    apply le_antisymm
    · exact (clog_le_iff_le_pow (by decide)).mpr hhigh.le
    · by_contra hlt
      have hle : clog 2 size ≤ n := by omega
      have := (clog_le_iff_le_pow (by decide)).mp hle
      omega

theorem log2Ceil_eq_clog {size : ℕ} (hpos : 0 < size) (hlt : size < 2 ^ 64) :
    log2Ceil size = clog 2 size := by
  have h0 : Bisected size (0, size) 0 (32 + 32) := ⟨rfl, shiftRight_zero.symm, hpos, hlt⟩
  obtain ⟨n1, h1⟩ := h0.step
  obtain ⟨n2, h2⟩ := (show Bisected _ _ _ (16 + 16) from h1).step
  obtain ⟨n3, h3⟩ := (show Bisected _ _ _ (8 + 8) from h2).step
  obtain ⟨n4, h4⟩ := (show Bisected _ _ _ (4 + 4) from h3).step
  obtain ⟨n5, h5⟩ := (show Bisected _ _ _ (2 + 2) from h4).step
  obtain ⟨n6, h6⟩ := (show Bisected _ _ _ (1 + 1) from h5).step
  have hone : size >>> n6 = 1 := by
    have hpos := h6.pos
    have hlt := h6.lt
    rw [h6.value] at hpos hlt
    omega
  obtain ⟨hlow, hhigh⟩ := shiftRight_eq_one hone
  rw [clog_eq_of_range hlow hhigh, log2Ceil, if_neg hpos.ne']
  simp only [h6.bits, ne_eq, land_pred_eq_zero hlow hhigh]
  by_cases hpow : size = 2 ^ n6 <;> simp [hpow]

/-! ## Alignment -/

theorem and_add_and_not (x m : BitVec 64) : (x &&& m).toNat + (x &&& ~~~m).toNat = x.toNat := by
  have hzero : (x &&& m) &&& (x &&& ~~~m) = 0#64 := by
    apply BitVec.eq_of_getLsbD_eq
    intro j hj
    simp only [BitVec.getLsbD_and, BitVec.getLsbD_not, hj, BitVec.getLsbD_zero]
    cases x.getLsbD j <;> cases m.getLsbD j <;> rfl
  have hor : (x &&& m) ||| (x &&& ~~~m) = x := by
    apply BitVec.eq_of_getLsbD_eq
    intro j hj
    simp only [BitVec.getLsbD_and, BitVec.getLsbD_or, BitVec.getLsbD_not, hj]
    cases x.getLsbD j <;> cases m.getLsbD j <;> rfl
  rw [← BitVec.toNat_add_of_and_eq_zero hzero, BitVec.add_eq_or_of_and_eq_zero _ _ hzero, hor]

theorem alignDown_add {x n : ℕ} (hx : x < wordSize) (hn : n ≤ wordSize) :
    (x &&& (n - 1)) + alignDown x n = x := by
  have hm : n - 1 < wordSize := by
    omega
  have hnot : (~~~(BitVec.ofNat 64 (n - 1))).toNat = (wordSize - 1) ^^^ (n - 1) := by
    rw [BitVec.not_def, BitVec.toNat_xor, BitVec.toNat_allOnes, BitVec.toNat_ofNat,
      mod_eq_of_lt hm]
  have h := and_add_and_not (BitVec.ofNat 64 x) (BitVec.ofNat 64 (n - 1))
  rw [BitVec.toNat_and, BitVec.toNat_and, hnot, BitVec.toNat_ofNat, BitVec.toNat_ofNat,
    mod_eq_of_lt hx, mod_eq_of_lt hm] at h
  exact h

theorem alignUp_bounds {x n : ℕ} (hn : 0 < n) (h : x + n ≤ wordSize) :
    x ≤ alignUp x n ∧ alignUp x n ≤ x + (n - 1) := by
  have hlt : x + (n - 1) < wordSize := by omega
  have hsum := alignDown_add hlt (show n ≤ wordSize by omega)
  have hmask : (x + (n - 1)) &&& (n - 1) ≤ n - 1 := and_le_right
  unfold alignUp
  rw [mod_eq_of_lt hlt]
  omega

theorem alignDown_two_pow {x k : ℕ} (hx : x < wordSize) (hk : k ≤ 64) :
    alignDown x (2 ^ k) = x / 2 ^ k * 2 ^ k := by
  have hsum := alignDown_add hx (Nat.pow_le_pow_right (by decide) hk)
  rw [and_two_pow_sub_one_eq_mod] at hsum
  have hdiv := div_add_mod' x (2 ^ k)
  omega

end NoobKernel
