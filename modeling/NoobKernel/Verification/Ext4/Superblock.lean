import NoobKernel.Verification.Ext4.Mapping
import Mathlib.Algebra.Order.Floor.Div

/-! # What the checks of the superblock are worth

`ext4_fill_super` looks at the magic number and at the size of a block. What later code takes for
granted about the other fields is said here exactly. -/

namespace NoobKernel.Ext4

open Library

variable {sb bitmap : List UInt8} {info : SuperInfo} {bits : List ℕ}

/-- What the code takes for granted after a superblock has been accepted. -/
structure Sufficient (sb : List UInt8) (info : SuperInfo) : Prop where
  divisors : 0 ∉ [info.blocksPerGroup, info.inodesPerGroup, info.inodeSize, info.descSize]
  scans : ∀ bg < info.groupsCount, ∀ bitmap : List UInt8, bitmap.length = info.blockSize →
    scanBitmap bitmap (inodeBits info bg) ≠ none ∧ scanBitmap bitmap (blockBits info) ≠ none
  groups : info.groupsCount = sBlocksCount sb ⌈/⌉ sBlocksPerGroup sb
  slots : ∀ i < info.inodesPerGroup, i * info.inodeSize + rawInodeSize ≤ (i + 1) * info.inodeSize

/-! ## Searches -/

theorem scanBitmap_eq (h : ∀ i ∈ bits, i / 8 < bitmap.length) :
    scanBitmap bitmap bits = some (bits.find? fun i => !bitSet bitmap i) := by
  induction bits with
  | nil => rfl
  | cons i rest ih =>
    have hi := h i List.mem_cons_self
    specialize ih fun j hj => h j (List.mem_cons_of_mem i hj)
    by_cases hbit : bitmap[i / 8].toNat.testBit (i % 8) <;> simp [scanBitmap, bitSet, hi, hbit, ih]

theorem scanBitmap_ones {n : ℕ} (h : scanBitmap (List.replicate n 255) bits ≠ none) :
    ∀ i ∈ bits, i / 8 < n := by
  induction bits with
  | nil => simp
  | cons i rest ih =>
    by_cases hi : i / 8 < n
    · have hbit : Nat.testBit 255 (i % 8) :=
        (by decide : ∀ k < 8, Nat.testBit 255 k) _ (Nat.mod_lt i (by decide))
      have hrest := ih (by simpa [scanBitmap, List.getElem?_replicate, hi, hbit] using h)
      simpa [hi] using hrest
    · simp [scanBitmap, hi] at h

theorem mem_inodeBits {bg i : ℕ} :
    i ∈ inodeBits info bg ↔ (bg = 0 → 10 ≤ i) ∧ i < info.inodesPerGroup := by
  rw [inodeBits, List.mem_range'_1]
  split <;> grind

theorem scans_iff :
    (∀ bg < info.groupsCount, ∀ bitmap : List UInt8, bitmap.length = info.blockSize →
      scanBitmap bitmap (inodeBits info bg) ≠ none ∧ scanBitmap bitmap (blockBits info) ≠ none) ↔
    (info.groupsCount = 0 ∨ info.inodesPerGroup ≤ 8 * info.blockSize) := by
  have hsize := info.toSbInfo.le_blockSize
  constructor
  · intro h
    by_contra! hlarge
    have hscan := (h 0 (by omega) (List.replicate info.blockSize 255) (by simp)).1
    have hbyte := scanBitmap_ones hscan (8 * info.blockSize) (mem_inodeBits.mpr (by omega))
    omega
  · intro h bg hbg bitmap hlen
    have hcount : searchCount info.toSbInfo ≤ info.blockSize * 8 := min_le_right _ _
    rw [scanBitmap_eq fun i hi => ?_, scanBitmap_eq fun i hi => ?_]
    · simp
    · have := List.mem_range.mp hi
      omega
    · have := mem_inodeBits.mp hi
      omega

/-! ## The number of groups -/

/-- The quotient is the true one where the sum does not leave the register. -/
theorem groups_iff {a b : ℕ} (ha : a < 2 ^ 32) (hb : b < 2 ^ 32) (hpos : b ≠ 0) :
    divu ((a + b + (2 ^ 32 - 1)) % 2 ^ 32) b = a ⌈/⌉ b ↔ a + b ≤ 2 ^ 32 := by
  rw [divu, if_neg hpos, Nat.ceilDiv_eq_add_pred_div]
  constructor
  · intro h
    by_contra! hlarge
    -- Without the carry, the quotient is too small by one at least.
    have hsum : a + b - 1 = (a + b + (2 ^ 32 - 1)) % 2 ^ 32 + 2 ^ 32 := by omega
    have hle : (a + b + (2 ^ 32 - 1)) % 2 ^ 32 + b ≤ a + b - 1 := by omega
    have hdiv := Nat.div_le_div_right (c := b) hle
    rw [Nat.add_div_right _ (Nat.pos_of_ne_zero hpos)] at hdiv
    omega
  · intro h
    rw [show (a + b + (2 ^ 32 - 1)) % 2 ^ 32 = a + b - 1 by omega]

theorem ceilDiv_eq_zero {a b : ℕ} (hpos : b ≠ 0) : a ⌈/⌉ b = 0 ↔ a = 0 := by
  rw [← Nat.le_zero, ceilDiv_le_iff_le_mul (Nat.pos_of_ne_zero hpos)]
  simp

theorem slots_iff {n size len : ℕ} (hpos : n ≠ 0) :
    (∀ i < n, i * size + len ≤ (i + 1) * size) ↔ len ≤ size := by
  simp only [Nat.add_mul, Nat.one_mul, Nat.add_le_add_iff_left]
  exact ⟨fun h => h 0 (Nat.pos_of_ne_zero hpos), fun h _ _ => h⟩

/-! ## The condition -/

theorem fillSuper_ok (h : fillSuper sb = .ok info) :
    info.blocksPerGroup = sBlocksPerGroup sb ∧ info.inodesPerGroup = sInodesPerGroup sb ∧
    info.inodeSize = (if sInodeSize sb ≠ 0 then sInodeSize sb else 128) ∧ info.descSize ≠ 0 ∧
    info.groupsCount =
      divu ((sBlocksCount sb + sBlocksPerGroup sb + (2 ^ 32 - 1)) % 2 ^ 32) (sBlocksPerGroup sb) ∧
    info.blockSize = 1024 <<< sLogBlockSize sb := by
  unfold fillSuper at h
  split at h
  next => cases h
  next =>
    split at h
    next => cases h
    next =>
      obtain rfl := Except.ok.inj h
      refine ⟨rfl, rfl, rfl, ?_, rfl, rfl⟩
      dsimp only
      split <;> decide

/-- A superblock that is accepted is good enough for later code exactly if its groups have blocks
and inodes, the sum for the number of groups stays in a register, the bits of the inodes of a group
lie in one block, and an inode is as large as its structure. -/
theorem fillSuper_sufficient_iff (h : fillSuper sb = .ok info) :
    Sufficient sb info ↔
      sBlocksPerGroup sb ≠ 0 ∧ sInodesPerGroup sb ≠ 0 ∧
      sBlocksCount sb + sBlocksPerGroup sb ≤ 2 ^ 32 ∧
      (sBlocksCount sb = 0 ∨ sInodesPerGroup sb ≤ 8 * 1024 <<< sLogBlockSize sb) ∧
      (sInodeSize sb = 0 ∨ rawInodeSize ≤ sInodeSize sb) := by
  obtain ⟨hblocks, hinodes, hsize, hdesc, hgroups, hblock⟩ := fillSuper_ok h
  have hinode : info.inodeSize ≠ 0 ∧
      (rawInodeSize ≤ info.inodeSize ↔ sInodeSize sb = 0 ∨ rawInodeSize ≤ sInodeSize sb) := by
    rw [hsize]
    split <;> grind
  have hsum := groups_iff (a := sBlocksCount sb) (b := sBlocksPerGroup sb) field_lt field_lt
  rw [← hgroups] at hsum
  constructor
  · rintro ⟨hdiv, hscan, hgroups, hslots⟩
    simp only [List.mem_cons, not_or, hblocks, hinodes, eq_comm (a := 0)] at hdiv
    obtain ⟨hb, hi, -⟩ := hdiv
    rw [scans_iff, hgroups, ceilDiv_eq_zero hb, hinodes, hblock] at hscan
    rw [hinodes, slots_iff hi, hinode.2] at hslots
    exact ⟨hb, hi, (hsum hb).mp hgroups, hscan, hslots⟩
  · rintro ⟨hb, hi, hle, hscan, hslots⟩
    refine ⟨?_, scans_iff.mpr ?_, (hsum hb).mpr hle, ?_⟩
    · simp [hblocks, hinodes, hb.symm, hi.symm, hinode.1.symm, hdesc.symm]
    · rwa [(hsum hb).mpr hle, ceilDiv_eq_zero hb, hinodes, hblock]
    · rwa [hinodes, slots_iff hi, hinode.2]

/-- A superblock with a group of 8192 blocks, and with no blocks in a group. -/
def superblock (perGroup : UInt8) : List UInt8 :=
  patch 0x20 [0, perGroup] (patch 0x28 [8] (patch 0x38 [0x53, 0xef] (List.replicate 1024 0)))

theorem fillSuper_sufficient_superblock :
    ∃ info, fillSuper (superblock 32) = .ok info ∧ Sufficient (superblock 32) info :=
  ⟨_, rfl, (fillSuper_sufficient_iff rfl).mpr (by decide +kernel)⟩

theorem fillSuper_insufficient : (superblock 0).length = 1024 ∧
    ∃ info, fillSuper (superblock 0) = .ok info ∧ ¬ Sufficient (superblock 0) info := by
  refine ⟨by decide +kernel, _, rfl, fun h => h.divisors ?_⟩
  decide +kernel

end NoobKernel.Ext4
