import Mathlib.Tactic.Ring

/-! # Bytes of a number

The bytes of a number are its digits to the base 256, the lowest first. -/

namespace NoobKernel.Library

open Nat

variable {w b i j : ℕ}

def getByte (w i : ℕ) : ℕ := w / 256 ^ i % 256

/-- The number with byte `i` replaced by `b`. -/
def setByte (w i b : ℕ) : ℕ := w / 256 ^ (i + 1) * 256 ^ (i + 1) + (b * 256 ^ i + w % 256 ^ i)

/-- The bytes of a number from the lowest on. -/
def bytes (n w : ℕ) : List ℕ := (List.range n).map (getByte w)

theorem getByte_lt : getByte w i < 256 := mod_lt _ (by decide)

theorem length_bytes (n w : ℕ) : (bytes n w).length = n := by simp [bytes]

theorem lt_of_mem_bytes {n : ℕ} (h : b ∈ bytes n w) : b < 256 := by
  obtain ⟨i, -, rfl⟩ := List.mem_map.mp h
  exact getByte_lt

theorem setByte_div (hb : b < 256) : setByte w i b / 256 ^ (i + 1) = w / 256 ^ (i + 1) := by
  have hlow : b * 256 ^ i + w % 256 ^ i < 256 ^ (i + 1) := by
    have hmul : (b + 1) * 256 ^ i ≤ 256 * 256 ^ i := mul_le_mul_right _ hb
    rw [succ_mul] at hmul
    omega
  rw [setByte, Nat.add_comm, Nat.add_mul_div_right _ _ (Nat.pow_pos (by decide)),
    div_eq_of_lt hlow, zero_add]

theorem setByte_eq : setByte w i b = w % 256 ^ i + 256 ^ i * (w / 256 ^ (i + 1) * 256 + b) := by
  rw [setByte, pow_succ]
  ring

theorem setByte_mod : setByte w i b % 256 ^ i = w % 256 ^ i := by
  rw [setByte_eq, add_mul_mod_self_left, mod_mod]

theorem getByte_setByte_self (hb : b < 256) : getByte (setByte w i b) i = b := by
  rw [getByte, setByte_eq, Nat.add_mul_div_left _ _ (Nat.pow_pos (by decide)),
    div_eq_of_lt (mod_lt _ (Nat.pow_pos (by decide))), zero_add,
    mul_add_mod_of_lt hb]

theorem getByte_above (h : i < j) : getByte w j = w / 256 ^ (i + 1) / 256 ^ (j - (i + 1)) % 256 := by
  rw [getByte, Nat.div_div_eq_div_mul, ← Nat.pow_add, Nat.add_sub_cancel' h]

theorem getByte_below (h : j < i) : getByte w j = w % 256 ^ i / 256 ^ j % 256 := by
  have hpow : 256 ^ i = 256 ^ j * 256 ^ (i - j) := by rw [← Nat.pow_add, Nat.add_sub_cancel' h.le]
  have hdvd : 256 ∣ 256 ^ (i - j) := dvd_pow_self 256 (sub_ne_zero_of_lt h)
  rw [getByte, hpow, mod_mul_right_div_self, mod_mod_of_dvd _ hdvd]

theorem getByte_setByte_ne (hb : b < 256) (h : j ≠ i) : getByte (setByte w i b) j = getByte w j := by
  rcases lt_or_gt_of_ne h with hlt | hgt
  · rw [getByte_below hlt, setByte_mod, ← getByte_below hlt]
  · rw [getByte_above hgt, setByte_div hb, ← getByte_above hgt]

theorem setByte_getByte : setByte w i (getByte w i) = w := by
  have hlow : w % 256 ^ (i + 1) = 256 ^ i * getByte w i + w % 256 ^ i := by
    rw [pow_succ, mod_mul, getByte]
    ring
  rw [setByte, mul_comm (getByte w i), ← hlow, mul_comm, div_add_mod]

end NoobKernel.Library
