import NoobKernel.Model.Bitmap
import Mathlib.Data.Nat.Count

/-! # Bitmaps as sets of bits -/

namespace NoobKernel

open Nat Finset

/-- Bit `i` of the data, whatever the length of the map. -/
def Bitmap.bit (bm : Bitmap) (i : ℕ) : Bool := (bm.data (i / 8)).getLsbD (i % 8)

def Bitmap.clearBits (bm : Bitmap) (n : ℕ) : ℕ := Nat.count (fun i => bitmapGet bm i = 0) n

theorem shiftRight_three (i : ℕ) : i >>> 3 = i / 8 := shiftRight_eq_div_pow i 3

theorem and_seven (i : ℕ) : i &&& 7 = i % 8 := and_two_pow_sub_one_eq_mod i 3

theorem and_one_eq_zero_iff : ∀ b : BitVec 8, b &&& 1 = 0 ↔ b.getLsbD 0 = false := by
  decide

theorem exists_bit_of_ne_zero {b : BitVec 8} (h : b ≠ 0) : ∃ j < 8, b.getLsbD j = true := by
  by_contra hnone
  push Not at hnone
  apply h
  apply BitVec.eq_of_getLsbD_eq
  intro j hj
  simpa using hnone j hj

/-! ## Reading and writing one bit -/

section Bits

variable {bm : Bitmap} {i j : ℕ}

theorem bitmapGet_eq_zero_iff (h : i < bm.len) : bitmapGet bm i = 0 ↔ bm.bit i = false := by
  unfold bitmapGet Bitmap.bit
  rw [if_neg (by omega), shiftRight_three, and_seven, and_one_eq_zero_iff,
    BitVec.getLsbD_ushiftRight]
  simp

@[simp] theorem bitmapSet_len : (bitmapSet bm i).len = bm.len := by
  unfold bitmapSet
  split <;> rfl

@[simp] theorem bitmapClear_len : (bitmapClear bm i).len = bm.len := by
  unfold bitmapClear
  split <;> rfl

theorem getLsbD_one_shiftLeft : ∀ o < 8, ∀ j < 8, (1#8 <<< o).getLsbD j = decide (j = o) := by
  decide

theorem bit_bitmapSet (h : i < bm.len) : (bitmapSet bm i).bit j = (bm.bit j || decide (j = i)) := by
  unfold bitmapSet Bitmap.bit
  rw [if_neg (by omega)]
  by_cases hb : j / 8 = i / 8
  · have hji : j % 8 = i % 8 ↔ j = i := by omega
    have hlt : j % 8 < 8 := mod_lt j (by decide)
    simp only [shiftRight_three, and_seven, hb, Function.update_self, BitVec.getLsbD_or]
    rw [getLsbD_one_shiftLeft _ (mod_lt i (by decide)) _ hlt]
    simp only [hji]
  · have hne : j ≠ i := fun he => hb (by rw [he])
    simp [shiftRight_three, hb, hne]

theorem bit_bitmapClear (h : i < bm.len) :
    (bitmapClear bm i).bit j = (bm.bit j && !decide (j = i)) := by
  unfold bitmapClear Bitmap.bit
  rw [if_neg (by omega)]
  by_cases hb : j / 8 = i / 8
  · have hji : j % 8 = i % 8 ↔ j = i := by omega
    have hlt : j % 8 < 8 := mod_lt j (by decide)
    simp only [shiftRight_three, and_seven, hb, Function.update_self, BitVec.getLsbD_and,
      BitVec.getLsbD_not]
    rw [getLsbD_one_shiftLeft _ (mod_lt i (by decide)) _ hlt]
    simp only [hji, hlt, decide_true, Bool.true_and]
  · have hne : j ≠ i := fun he => hb (by rw [he])
    simp [shiftRight_three, hb, hne]

theorem bitmapGet_bitmapSet (h : i < bm.len) (hj : j < bm.len) :
    bitmapGet (bitmapSet bm i) j = 0 ↔ bitmapGet bm j = 0 ∧ j ≠ i := by
  rw [bitmapGet_eq_zero_iff (by simpa using hj), bitmapGet_eq_zero_iff hj, bit_bitmapSet h]
  simp

theorem bitmapGet_bitmapClear (h : i < bm.len) (hj : j < bm.len) :
    bitmapGet (bitmapClear bm i) j = 0 ↔ bitmapGet bm j = 0 ∨ j = i := by
  rw [bitmapGet_eq_zero_iff (by simpa using hj), bitmapGet_eq_zero_iff hj, bit_bitmapClear h,
    Bool.and_eq_false_iff]
  simp

end Bits

/-! ## The searches -/

/-- The inner loop stops at the lowest set bit. -/
theorem trailingZeros_spec (n : ℕ) (b : BitVec 8) (h : ∃ j < n, b.getLsbD j = true) :
    trailingZeros n b < n ∧ b.getLsbD (trailingZeros n b) = true ∧
      ∀ j < trailingZeros n b, b.getLsbD j = false := by
  induction n generalizing b with
  | zero =>
    omega
  | succ n ih =>
    unfold trailingZeros
    by_cases hb : b &&& 1 = 0
    · have h0 := (and_one_eq_zero_iff b).mp hb
      have hshift : ∀ j, (b >>> 1).getLsbD j = b.getLsbD (j + 1) := by
        intro j
        rw [BitVec.getLsbD_ushiftRight, add_comm]
      have hex : ∃ j < n, (b >>> 1).getLsbD j = true := by
        obtain ⟨j, hj, hbit⟩ := h
        cases j with
        | zero => exact absurd (h0.symm.trans hbit) (by decide)
        | succ j => exact ⟨j, by omega, by rw [hshift, hbit]⟩
      obtain ⟨hlt, hbit, hbelow⟩ := ih (b >>> 1) hex
      rw [if_pos hb]
      refine ⟨by omega, by rw [← hshift, hbit], ?_⟩
      intro j hj
      cases j with
      | zero => exact h0
      | succ j => rw [← hshift, hbelow j (by omega)]
    · rw [if_neg hb]
      have h0 : b.getLsbD 0 = true := by
        rw [and_one_eq_zero_iff] at hb
        simpa using hb
      exact ⟨by omega, h0, by simp⟩

/-- A byte of clear bits that is not zero gives a position and all positions below it
in the byte are set. -/
theorem trailingZeros_byte {b : BitVec 8} (h : b ≠ 0) :
    trailingZeros 8 b < 8 ∧ b.getLsbD (trailingZeros 8 b) = true ∧
      ∀ j < trailingZeros 8 b, b.getLsbD j = false :=
  trailingZeros_spec 8 b (exists_bit_of_ne_zero h)

theorem getLsbD_tailMask : ∀ t < 8, ∀ j < 8, (1#8 <<< t - 1).getLsbD j = decide (j < t) := by
  decide

theorem bit_byte (bm : Bitmap) {i j : ℕ} (hj : j < 8) :
    bm.bit (i * 8 + j) = (bm.data i).getLsbD j := by
  rw [Bitmap.bit, show (i * 8 + j) / 8 = i by omega, show (i * 8 + j) % 8 = j by omega]

theorem getLsbD_clearByte (bm : Bitmap) {i j : ℕ} (hi : i < (bm.len + 7) / 8) (hj : j < 8) :
    (clearByte bm i).getLsbD j = (!bm.bit (i * 8 + j) && decide (i * 8 + j < bm.len)) := by
  unfold clearByte
  rw [bit_byte bm hj, shiftRight_three, and_seven]
  by_cases hlast : i = (bm.len + 7) / 8 - 1 ∧ bm.len % 8 ≠ 0
  · have hin : j < bm.len % 8 ↔ i * 8 + j < bm.len := by omega
    rw [if_pos hlast, BitVec.getLsbD_and, BitVec.getLsbD_not,
      getLsbD_tailMask _ (mod_lt _ (by decide)) _ hj]
    simp [hj, hin]
  · have hin : i * 8 + j < bm.len := by omega
    rw [if_neg hlast, BitVec.getLsbD_not]
    simp [hj, hin]

/-- The least index from `start` on with a property, or `len`. -/
structure IsNext (p : ℕ → Prop) (start len r : ℕ) : Prop where
  le : r ≤ len
  found : r < len → start ≤ r ∧ p r
  least : ∀ j, start ≤ j → j < r → ¬ p j

section Next

variable {p : ℕ → Prop} {start start' len r r' i off : ℕ} {b : BitVec 8}

theorem IsNext.unique (h : IsNext p start len r) (h' : IsNext p start len r') : r = r' := by
  have hnot : ∀ {r r'}, IsNext p start len r → IsNext p start len r' → ¬ r < r' := fun h h' hlt =>
    have hp := h.found (hlt.trans_le h'.le)
    h'.least _ hp.1 hlt hp.2
  exact le_antisymm (not_lt.mp (hnot h' h)) (not_lt.mp (hnot h h'))

theorem isNext_len (h : len ≤ start) : IsNext p start len len :=
  ⟨le_rfl, fun hlt => absurd hlt (lt_irrefl _), fun j _ _ => by omega⟩

theorem IsNext.skip (h : IsNext p start' len r) (hle : start ≤ start')
    (hnone : ∀ j, start ≤ j → j < start' → j < len → ¬ p j) : IsNext p start len r := by
  refine ⟨h.le, fun hlt => ⟨hle.trans (h.found hlt).1, (h.found hlt).2⟩, fun j hj hjr => ?_⟩
  by_cases hj' : j < start'
  · exact hnone j hj hj' (hjr.trans_le h.le)
  · exact h.least j (not_lt.mp hj') hjr

/-- The lowest set bit of a byte that shows where the property holds from a bit on. -/
theorem isNext_byte (off : ℕ) (hb : b ≠ 0)
    (hbit : ∀ j < 8, b.getLsbD j = true → off ≤ j ∧ p (i * 8 + j))
    (hp : ∀ j < 8, off ≤ j → i * 8 + j < len → p (i * 8 + j) → b.getLsbD j = true) :
    IsNext p (i * 8 + off) len (min (i * 8 + trailingZeros 8 b) len) := by
  obtain ⟨hlt, hset, hlow⟩ := trailingZeros_byte hb
  obtain ⟨hoff, hfound⟩ := hbit _ hlt hset
  refine ⟨Nat.min_le_right _ _, fun hr => ?_, fun j hj hjr hpj => ?_⟩
  · rw [min_eq_left (by omega)]
    exact ⟨by omega, hfound⟩
  · obtain ⟨k, rfl⟩ := Nat.exists_eq_add_of_le (show i * 8 ≤ j by omega)
    have hk := hp k (by omega) (by omega) (by omega) hpj
    rw [hlow k (by omega)] at hk
    cases hk

/-- What a search needs: its first byte has no bit that it looks for, or it starts at the first bit
of that byte and finds one there that is not behind the end. -/
def NextOk (p : ℕ → Prop) (start len : ℕ) : Prop :=
  len ≤ start ∨ (∀ j, start ≤ j → j / 8 = start / 8 → ¬ p j) ∨
    start % 8 = 0 ∧ ∃ j ≤ len, j / 8 = start / 8 ∧ p j

theorem getLsbD_headMask : ∀ o < 8, ∀ j < 8, (0xFF#8 <<< o).getLsbD j = decide (o ≤ j) := by
  decide

theorem isNext_search_iff (hb : ∀ j < 8, b.getLsbD j = true ↔ p (start / 8 * 8 + j))
    (hrest : start < len → IsNext p ((start / 8 + 1) * 8) len r) :
    IsNext p start len (if start ≥ len then len
      else if b &&& (0xFF#8 <<< (start % 8)) ≠ 0 then
        start / 8 * 8 + start % 8 + trailingZeros 8 (b &&& (0xFF#8 <<< (start % 8)))
      else r) ↔ NextOk p start len := by
  have hmask : ∀ j < 8, (b &&& (0xFF#8 <<< (start % 8))).getLsbD j = true ↔
      start % 8 ≤ j ∧ p (start / 8 * 8 + j) := by
    intro j hj
    rw [BitVec.getLsbD_and, getLsbD_headMask _ (mod_lt _ (by decide)) _ hj, Bool.and_eq_true,
      hb j hj,
      decide_eq_true_eq, and_comm]
  split
  next hge => exact iff_of_true (isNext_len hge) (Or.inl hge)
  next hlt =>
    split
    next hne =>
      obtain ⟨htz, hset, hlow⟩ := trailingZeros_byte hne
      have hnext : IsNext p _ len _ := isNext_byte _ hne (fun j hj => (hmask j hj).mp)
        fun j hj hoff _ hpj => (hmask j hj).mpr ⟨hoff, hpj⟩
      set t := trailingZeros 8 (b &&& (0xFF#8 <<< (start % 8)))
      obtain ⟨hoff, hpt⟩ := (hmask t htz).mp hset
      rw [div_add_mod'] at hnext ⊢
      have hresult : IsNext p start len (start + t) ↔ start % 8 = 0 ∧ start / 8 * 8 + t ≤ len := by
        constructor
        · intro h
          have heq := h.unique hnext
          omega
        · rintro ⟨hzero, hle⟩
          rwa [min_eq_left hle, show start / 8 * 8 = start by omega] at hnext
      rw [hresult]
      constructor
      · rintro ⟨hzero, hle⟩
        exact Or.inr (Or.inr ⟨hzero, _, hle, by omega, hpt⟩)
      · rintro (hge | hnone | ⟨hzero, j, hle, hbyte, hpj⟩)
        · exact absurd hge hlt
        · exact absurd hpt (hnone _ (by omega) (by omega))
        · refine ⟨hzero, le_trans (not_lt.mp fun hjt => ?_) hle⟩
          have hbit := (hmask (j % 8) (mod_lt _ (by decide))).mpr ⟨by omega, by
            rwa [← hbyte, div_add_mod']⟩
          rw [hlow _ (by omega)] at hbit
          cases hbit
    next hzero =>
      have hnone : ∀ j, start ≤ j → j / 8 = start / 8 → ¬ p j := by
        intro j hj hbyte hpj
        have hbit := (hmask (j % 8) (mod_lt _ (by decide))).mpr ⟨by omega, by
          rwa [← hbyte, div_add_mod']⟩
        rw [not_not.mp hzero] at hbit
        simp at hbit
      exact iff_of_true
        ((hrest (not_le.mp hlt)).skip (by omega) fun j hj hj' _ => hnone j hj (by omega))
        (Or.inr (Or.inl hnone))

end Next

section Searches

variable {bm : Bitmap} {n i : ℕ}

theorem findSetByte_isNext (hn : i + n = (bm.len + 7) / 8) :
    IsNext (fun j => bm.bit j = true) (i * 8) bm.len (findSetByte bm n i) := by
  induction n generalizing i with
  | zero => exact isNext_len (by omega)
  | succ n ih =>
    rw [findSetByte]
    split
    next hb =>
      dsimp only
      rw [← min_def_lt, shiftLeft_eq]
      exact isNext_byte 0 hb (fun j hj hset => ⟨Nat.zero_le j, (bit_byte bm hj).trans hset⟩)
        fun j hj _ _ hset => (bit_byte bm hj).symm.trans hset
    next hb =>
      refine (ih (by omega)).skip (by omega) fun j hj hj' _ hset => ?_
      obtain ⟨k, rfl⟩ := Nat.exists_eq_add_of_le hj
      rw [bit_byte bm (by omega), not_not.mp hb] at hset
      simp at hset

theorem findClearByte_isNext (hn : i + n = (bm.len + 7) / 8) :
    IsNext (fun j => bm.bit j = false) (i * 8) bm.len (findClearByte bm n i) := by
  induction n generalizing i with
  | zero => exact isNext_len (by omega)
  | succ n ih =>
    have hbit : ∀ j < 8, (clearByte bm i).getLsbD j = true ↔
        bm.bit (i * 8 + j) = false ∧ i * 8 + j < bm.len := by
      intro j hj
      rw [getLsbD_clearByte bm (by omega) hj]
      simp
    rw [findClearByte]
    split
    next hb =>
      have hlt := ((hbit _ (trailingZeros_byte hb).1).mp (trailingZeros_byte hb).2.1).2
      rw [shiftLeft_eq, ← min_eq_left hlt.le]
      exact isNext_byte 0 hb (fun j hj hset => ⟨Nat.zero_le j, ((hbit j hj).mp hset).1⟩)
        fun j hj _ hlen hclear => (hbit j hj).mpr ⟨hclear, hlen⟩
    next hb =>
      refine (ih (by omega)).skip (by omega) fun j hj hj' hlen hclear => ?_
      obtain ⟨k, rfl⟩ := Nat.exists_eq_add_of_le hj
      have hset := (hbit k (by omega)).mpr ⟨hclear, hlen⟩
      rw [not_not.mp hb] at hset
      simp at hset

theorem bitmapFindNextSet_iff (bm : Bitmap) (start : ℕ) :
    IsNext (fun j => bm.bit j = true) start bm.len (bitmapFindNextSet bm start) ↔
      NextOk (fun j => bm.bit j = true) start bm.len := by
  unfold bitmapFindNextSet
  simp only [shiftRight_three, and_seven, shiftLeft_eq]
  exact isNext_search_iff (fun j hj => by rw [bit_byte bm hj])
    fun hlt => findSetByte_isNext (by omega)

theorem bitmapFindNextClear_iff (bm : Bitmap) (start : ℕ) :
    IsNext (fun j => bm.bit j = false) start bm.len (bitmapFindNextClear bm start) ↔
      NextOk (fun j => bm.bit j = false) start bm.len := by
  unfold bitmapFindNextClear
  simp only [shiftRight_three, and_seven, shiftLeft_eq]
  exact isNext_search_iff (fun j hj => by rw [bit_byte bm hj]; simp [hj])
    fun hlt => findClearByte_isNext (by omega)

theorem bitmapFindNextClear_zero (bm : Bitmap) (hex : ∃ p < bm.len, bm.bit p = false) :
    bitmapFindNextClear bm 0 < bm.len ∧ bm.bit (bitmapFindNextClear bm 0) = false := by
  obtain ⟨p, hp, hclear⟩ := hex
  have hok : NextOk (fun j => bm.bit j = false) 0 bm.len := by
    by_cases hbyte : p / 8 = 0
    · exact Or.inr (Or.inr ⟨rfl, p, hp.le, hbyte, hclear⟩)
    by_cases hnone : ∀ j, 0 ≤ j → j / 8 = 0 / 8 → bm.bit j ≠ false
    · exact Or.inr (Or.inl hnone)
    · push Not at hnone
      obtain ⟨j, -, hj, hjclear⟩ := hnone
      exact Or.inr (Or.inr ⟨rfl, j, by omega, hj, hjclear⟩)
  have hnext := (bitmapFindNextClear_iff bm 0).mpr hok
  have hlt : bitmapFindNextClear bm 0 < bm.len := by
    by_contra hge
    exact hnext.least p (Nat.zero_le p) (by omega) hclear
  exact ⟨hlt, (hnext.found hlt).2⟩

section Reads

variable {bm' : Bitmap} (hlen : bm'.len = bm.len)
  (hdata : ∀ i < (bm.len + 7) / 8, bm'.data i = bm.data i)

include hlen hdata

theorem findSetByte_congr (hn : i + n ≤ (bm.len + 7) / 8) :
    findSetByte bm' n i = findSetByte bm n i := by
  induction n generalizing i with
  | zero => exact hlen
  | succ n ih => rw [findSetByte, findSetByte, hdata i (by omega), hlen, ih (by omega)]

theorem findClearByte_congr (hn : i + n ≤ (bm.len + 7) / 8) :
    findClearByte bm' n i = findClearByte bm n i := by
  induction n generalizing i with
  | zero => exact hlen
  | succ n ih =>
    have hbyte : clearByte bm' i = clearByte bm i := by
      rw [clearByte, hdata i (by omega), hlen, clearByte]
    rw [findClearByte, findClearByte, hbyte, ih (by omega)]

theorem searches_congr (start : ℕ) : bitmapFindNextSet bm' start = bitmapFindNextSet bm start ∧
    bitmapFindNextClear bm' start = bitmapFindNextClear bm start := by
  unfold bitmapFindNextSet bitmapFindNextClear
  simp only [shiftRight_three, hlen]
  split
  · exact ⟨rfl, rfl⟩
  · rw [hdata _ (by omega), findSetByte_congr hlen hdata (by omega),
      findClearByte_congr hlen hdata (by omega)]
    exact ⟨rfl, rfl⟩

end Reads

/-- The searches find the next bit exactly under the condition, and they look at the bytes of the map
only. -/
theorem bitmap_searches_iff (bm : Bitmap) (start : ℕ) :
    (IsNext (fun j => bm.bit j = true) start bm.len (bitmapFindNextSet bm start) ↔
      NextOk (fun j => bm.bit j = true) start bm.len) ∧
    (IsNext (fun j => bm.bit j = false) start bm.len (bitmapFindNextClear bm start) ↔
      NextOk (fun j => bm.bit j = false) start bm.len) ∧
    ∀ bm' : Bitmap, bm'.len = bm.len → (∀ i < (bm.len + 7) / 8, bm'.data i = bm.data i) →
      bitmapFindNextSet bm' start = bitmapFindNextSet bm start ∧
        bitmapFindNextClear bm' start = bitmapFindNextClear bm start :=
  ⟨bitmapFindNextSet_iff bm start, bitmapFindNextClear_iff bm start,
    fun _ hlen hdata => searches_congr hlen hdata start⟩

/-- The search from bit `1` of a byte with this bit alone returns `2`, and the search for a clear bit
in three set bits returns `4`. -/
theorem bitmap_searches_miss :
    (⟨fun _ => 2, 16⟩ : Bitmap).bit 1 = true ∧ bitmapFindNextSet ⟨fun _ => 2, 16⟩ 1 = 2 ∧
      bitmapFindNextClear ⟨fun _ => 0xF, 3⟩ 0 = 4 := by
  decide

end Searches

/-! ## Counting clear bits -/

theorem count_remove {p q : ℕ → Prop} [DecidablePred p] [DecidablePred q] {i n : ℕ} (hi : i < n)
    (hp : p i) (h : ∀ j < n, q j ↔ p j ∧ j ≠ i) : Nat.count q n + 1 = Nat.count p n := by
  rw [count_eq_card_filter_range, count_eq_card_filter_range]
  have herase : (Finset.range n).filter q = ((Finset.range n).filter p).erase i := by
    ext j
    simp only [mem_filter, mem_range, mem_erase]
    constructor
    · intro hj
      exact ⟨((h j hj.1).mp hj.2).2, hj.1, ((h j hj.1).mp hj.2).1⟩
    · intro hj
      exact ⟨hj.2.1, (h j hj.2.1).mpr ⟨hj.2.2, hj.1⟩⟩
  have hmem : i ∈ (Finset.range n).filter p := by simp [hi, hp]
  rw [herase, card_erase_add_one hmem]

theorem bitmapGet_of_zero {bm : Bitmap} {i : ℕ} (h : bm.data (i / 8) = 0) : bitmapGet bm i = 0 := by
  unfold bitmapGet
  rw [shiftRight_three, h]
  split <;> simp

section Count

variable {bm : Bitmap} {i n : ℕ}

theorem clearBits_bitmapSet (hi : i < n) (hn : n ≤ bm.len) (h : bitmapGet bm i = 0) :
    (bitmapSet bm i).clearBits n + 1 = bm.clearBits n :=
  count_remove hi h (fun _ hj =>
    bitmapGet_bitmapSet (hi.trans_le hn) (hj.trans_le hn))

theorem clearBits_bitmapClear (hi : i < n) (hn : n ≤ bm.len) (h : bitmapGet bm i ≠ 0) :
    (bitmapClear bm i).clearBits n = bm.clearBits n + 1 := by
  have hlt := hi.trans_le hn
  refine (count_remove hi ((bitmapGet_bitmapClear hlt hlt).mpr (Or.inr rfl)) ?_).symm
  intro j hj
  rw [bitmapGet_bitmapClear hlt (hj.trans_le hn)]
  constructor
  · intro hj0
    exact ⟨Or.inl hj0, fun he => h (he ▸ hj0)⟩
  · rintro ⟨hj0 | he, hne⟩
    · exact hj0
    · exact absurd he hne

theorem exists_clear_of_clearBits (h : 0 < bm.clearBits bm.len) :
    ∃ p < bm.len, bm.bit p = false := by
  unfold Bitmap.clearBits at h
  rw [count_eq_card_filter_range, card_pos] at h
  obtain ⟨p, hp⟩ := h
  simp only [mem_filter, mem_range] at hp
  exact ⟨p, hp.1, (bitmapGet_eq_zero_iff hp.1).mp hp.2⟩

theorem clearBits_le : bm.clearBits n ≤ n := by
  unfold Bitmap.clearBits
  rw [count_eq_card_filter_range]
  exact (card_filter_le _ _).trans_eq (card_range n)

theorem clearBits_eq_self (h : ∀ i < n, bitmapGet bm i = 0) : bm.clearBits n = n := by
  unfold Bitmap.clearBits
  rw [count_eq_card_filter_range, filter_true_of_mem (by simpa using h),
    card_range]

theorem clearBits_lt (hi : i < n) (h : bitmapGet bm i ≠ 0) : bm.clearBits n < n := by
  unfold Bitmap.clearBits
  rw [count_eq_card_filter_range]
  calc ((Finset.range n).filter (fun i => bitmapGet bm i = 0)).card
      < (Finset.range n).card :=
        card_lt_card (filter_ssubset.mpr ⟨i, by simpa using hi, h⟩)
    _ = n := card_range n

end Count

end NoobKernel
