import NoobKernel.Model.Ext4
import Mathlib.Tactic.NormNum

/-! # Access to the device

`ext4_read_at` and `ext4_write_at` go through the blocks of the cache, but they read and write the
range that they are given. -/

namespace NoobKernel.Ext4

open Library Nat Disk List

variable {sbi : SbInfo} {d : Disk UInt8} {offset size n m : ℕ} {buf : List UInt8}

/-! ## Block sizes -/

theorem SbInfo.blockSize_eq : sbi.blockSize = 1024 * 2 ^ sbi.sLogBlockSize := by
  rw [blockSize, shiftLeft_eq]

theorem SbInfo.le_blockSize : 1024 ≤ sbi.blockSize := by
  rw [blockSize_eq]
  exact Nat.le_mul_of_pos_right 1024 (Nat.two_pow_pos _)

theorem SbInfo.blockSize_le : sbi.blockSize ≤ 32768 := by
  rw [blockSize_eq]
  exact Nat.mul_le_mul_left 1024 (Nat.pow_le_pow_right (by decide) sbi.log_le : _ ≤ 2 ^ 5)

theorem SbInfo.le_blockSize_of_lt (h : 1024 < sbi.blockSize) : 2048 ≤ sbi.blockSize := by
  rw [blockSize_eq] at h ⊢
  cases hlog : sbi.sLogBlockSize with
  | zero => simp [hlog] at h
  | succ k =>
    have hpow := Nat.two_pow_pos k
    omega

theorem SbInfo.blockSize_pos : 0 < sbi.blockSize := lt_of_lt_of_le (by decide) sbi.le_blockSize

theorem SbInfo.four_dvd_blockSize : 4 ∣ sbi.blockSize := by
  rw [blockSize_eq]
  exact Dvd.dvd.mul_right (by decide) _

theorem sub_mod_pos (p : ℕ) (h : 0 < m) : 0 < m - p % m := Nat.sub_pos_of_lt (Nat.mod_lt p h)

theorem add_div_of_lt {p i : ℕ} (h : i < m - p % m) : (p + i) / m = p / m := by
  have hm : 0 < m := by omega
  rw [Nat.div_eq_iff hm]
  have hsplit := div_add_mod p m
  rw [mul_comm] at hsplit
  omega

theorem add_mod_of_lt {p i : ℕ} (h : i < m - p % m) : (p + i) % m = p % m + i := by
  rw [add_mod, mod_eq_of_lt (show i < m by omega), mod_eq_of_lt (by omega)]

/-! ## Reading -/

theorem take_drop_bread (h : n ≤ sectorSize - offset % sectorSize) :
    ((bread (offset / sectorSize) d).drop (offset % sectorSize)).take n = d.slice offset n := by
  rw [bread, block, drop_slice, take_slice, min_eq_left h,
    mul_comm, div_add_mod]

theorem readAtLoop_eq (fuel : ℕ) : ∀ offset size, size ≤ fuel →
    readAtLoop d fuel offset size = d.slice offset size := by
  induction fuel with
  | zero =>
    intro offset size h
    obtain rfl := le_zero.mp h
    rfl
  | succ fuel ih =>
    intro offset size h
    rw [readAtLoop]
    split
    next hzero => simp [hzero]
    next hne =>
      have hpos := sub_mod_pos offset (show 0 < sectorSize by decide)
      dsimp only
      rw [take_drop_bread (min_le_left _ _), ih _ _ (by omega), ← slice_add,
        Nat.add_sub_cancel' (Nat.min_le_right _ _)]

@[simp] theorem readAt_eq : readAt offset size d = d.slice offset size :=
  readAtLoop_eq size offset size le_rfl

/-! ## Writing -/

theorem bwrite_patch (h : buf.length ≤ sectorSize - offset % sectorSize) :
    bwrite (offset / sectorSize)
      (patch (offset % sectorSize) buf (bread (offset / sectorSize) d)) d = d.store offset buf := by
  have hmod := Nat.mod_lt offset (show 0 < sectorSize by decide)
  rw [bwrite, setBlock, bread, block, store_patch (by omega), mul_comm,
    div_add_mod]

theorem writeAtLoop_eq (fuel : ℕ) : ∀ offset buf d, buf.length ≤ fuel →
    writeAtLoop fuel offset buf d = store offset buf d := by
  induction fuel with
  | zero =>
    intro offset buf d h
    obtain rfl := eq_nil_of_length_eq_zero (le_zero.mp h)
    simp [writeAtLoop]
  | succ fuel ih =>
    intro offset buf d h
    rw [writeAtLoop]
    split
    next hnil => simp [hnil]
    next hne =>
      have hpos := sub_mod_pos offset (show 0 < sectorSize by decide)
      have hn : (buf.take (min (sectorSize - offset % sectorSize) buf.length)).length =
          min (sectorSize - offset % sectorSize) buf.length := by
        rw [length_take, min_eq_left (Nat.min_le_right _ _)]
      dsimp only
      rw [bwrite_patch (by omega), ih _ _ _ (by rw [length_drop]; omega)]
      conv_rhs =>
        rw [← take_append_drop (min (sectorSize - offset % sectorSize) buf.length) buf,
        store_append, hn]

@[simp] theorem writeAt_eq : writeAt offset buf d = d.store offset buf :=
  writeAtLoop_eq buf.length offset buf d le_rfl

/-! ## Sequences of writes -/

/-- The byte that a write has for an address. -/
def written (a : ℕ) (w : ℕ × List UInt8) : Option UInt8 := if w.1 ≤ a then w.2[a - w.1]? else none

theorem writeAt_apply (w : ℕ × List UInt8) (a : ℕ) :
    writeAt w.1 w.2 d a = (written a w).getD (d a) := by
  rw [writeAt_eq, store, written]
  split
  · exact getD_eq_getElem?_getD
  · rfl

theorem foldl_writeAt_apply (writes : List (ℕ × List UInt8)) (a : ℕ) :
    writes.foldl (fun d w => writeAt w.1 w.2 d) d a =
      (writes.reverse.findSome? (written a)).getD (d a) := by
  induction writes generalizing d with
  | nil => rfl
  | cons w writes ih =>
    rw [foldl_cons, ih, writeAt_apply, reverse_cons, findSome?_append, Option.getD_or]
    simp

/-- Reads and writes of ranges of the device, whatever sectors they start and end in. -/
theorem device_access (offset : ℕ) (d : Disk UInt8) :
    (∀ size, readAt offset size d = (range' offset size).map d) ∧
    (∀ buf, writeAt offset buf d = fun a =>
      if offset ≤ a ∧ a < offset + buf.length then buf.getD (a - offset) 0 else d a) ∧
    ∀ (writes : List (ℕ × List UInt8)) size,
      readAt offset size (writes.foldl (fun d w => writeAt w.1 w.2 d) d) =
        (range' offset size).map fun a =>
          (writes.reverse.findSome? (written a)).getD (d a) := by
  refine ⟨fun size => readAt_eq, fun buf => ?_, fun writes size => ?_⟩
  · rw [writeAt_eq]
    funext a
    split
    next h => exact store_apply h.1 h.2 0
    next h => exact store_of_not_mem h
  · rw [readAt_eq, slice]
    exact map_congr_left fun a _ => foldl_writeAt_apply writes a

/-! ## Blocks of a file

An inode maps the logical blocks of its file by the entries of a table or by extents. -/

variable {sbi : SbInfo} {raw : RawInode} {d d' : Disk UInt8} {lb b : ℕ}

/-! ## Mappings -/

/-- The entry for a logical block of a file mapped by blocks, in the inode or in its table. -/
def blockEntry (sbi : SbInfo) (raw : RawInode) (d : Disk UInt8) (lb : ℕ) : ℕ :=
  if lb < directBlocks then raw.iBlock lb
  else if lb - directBlocks < sbi.blockSize / 4 ∧ raw.iBlock directBlocks ≠ 0 then
    word (d.block sbi.blockSize (raw.iBlock directBlocks)) (lb - directBlocks)
  else 0

/-- The block that a file mapped by blocks has for a logical block. -/
def blockMapping (sbi : SbInfo) (raw : RawInode) (d : Disk UInt8) (lb : ℕ) : Option ℕ :=
  if blockEntry sbi raw d lb = 0 then none else some (blockEntry sbi raw d lb)

/-- The block that a file mapped by extents has for a logical block, where the extents lie in the
inode or in blocks that the inode points to. -/
def extentMapping (sbi : SbInfo) (raw : RawInode) (d : Disk UInt8) (lb : ℕ) : Option ℕ :=
  let w := raw.iBlock
  if ehMagic w ≠ extentMagic then none
  else if ehDepth w = 0 then findInLeaf w lb
  else if indexBefore w lb = 0 then none
  else findInLeaf (word (d.block sbi.blockSize (leafBlock w (indexBefore w lb - 1)))) lb

def mapping (sbi : SbInfo) (raw : RawInode) (d : Disk UInt8) (lb : ℕ) : Option ℕ :=
  if raw.extents then extentMapping sbi raw d lb else blockMapping sbi raw d lb

/-- The blocks with the table or with the nodes of a file. -/
def nodeBlock (raw : RawInode) (i : ℕ) : Option ℕ :=
  if raw.extents then
    if ehDepth raw.iBlock ≠ 0 ∧ i < ehEntries raw.iBlock then some (leafBlock raw.iBlock i) else none
  else if i = 0 ∧ raw.iBlock directBlocks ≠ 0 then some (raw.iBlock directBlocks) else none

/-- What a block is for: the bytes of a logical block, or the mapping of others. -/
inductive Key where
  | data (lb : ℕ)
  | node (i : ℕ)
deriving DecidableEq

/-- The blocks of a file. -/
def place (sbi : SbInfo) (raw : RawInode) (d : Disk UInt8) : Key → Option ℕ
  | .data lb => mapping sbi raw d lb
  | .node i => nodeBlock raw i

def Belongs (sbi : SbInfo) (raw : RawInode) (d : Disk UInt8) (b : ℕ) : Prop :=
  ∃ k, place sbi raw d k = some b

theorem blockMapping_eq_some :
    blockMapping sbi raw d lb = some b ↔ blockEntry sbi raw d lb = b ∧ b ≠ 0 := by
  unfold blockMapping
  split
  next hzero =>
    rw [hzero]
    simp only [reduceCtorEq, false_iff, not_and, not_not]
    exact Eq.symm
  next hne =>
    rw [Option.some.injEq]
    exact ⟨fun h => ⟨h, h ▸ hne⟩, And.left⟩

theorem blockMapping_eq_none : blockMapping sbi raw d lb = none ↔ blockEntry sbi raw d lb = 0 := by
  simp [blockMapping]

theorem getIndirectBlockEntry_eq (h : lb < directBlocks + sbi.blockSize / 4) :
    getIndirectBlockEntry sbi raw lb d = blockEntry sbi raw d lb := by
  unfold getIndirectBlockEntry blockEntry
  split
  · rfl
  next hdirect =>
    have hin : lb - directBlocks < sbi.blockSize / 4 := by omega
    rw [if_neg (not_le.mpr hin), readAt_eq]
    by_cases htable : raw.iBlock directBlocks = 0
    · rw [if_pos htable, if_neg fun h => h.2 htable]
    · rw [if_neg htable, if_pos ⟨hin, htable⟩, block]

theorem blockEntry_beyond (h : directBlocks + sbi.blockSize / 4 ≤ lb) :
    blockEntry sbi raw d lb = 0 := by
  rw [blockEntry, if_neg (by omega), if_neg fun hin => absurd hin.1 (by omega)]

theorem findExtentBlock_eq :
    findExtentBlock sbi raw lb d = (extentMapping sbi raw d lb).getD noBlock := by
  simp only [findExtentBlock, extentMapping, readAt_eq, block]
  split
  · rfl
  split
  · rfl
  split <;> rfl

theorem getFileBlock_of_mapping (h : mapping sbi raw d lb = some b) :
    getFileBlock sbi raw lb d = b := by
  unfold mapping at h
  unfold getFileBlock
  by_cases hext : raw.extents
  · rw [if_pos hext] at h ⊢
    rw [findExtentBlock_eq, h, Option.getD_some]
  rw [if_neg hext] at h ⊢
  obtain ⟨hentry, hne⟩ := blockMapping_eq_some.mp h
  have hin : lb < directBlocks + sbi.blockSize / 4 := by
    by_contra hbeyond
    exact hne (hentry.symm.trans (blockEntry_beyond (not_lt.mp hbeyond)))
  rw [getIndirectBlockEntry_eq hin, hentry]

theorem getFileBlock_extents_hole (hext : raw.extents = true) (h : mapping sbi raw d lb = none) :
    getFileBlock sbi raw lb d = noBlock := by
  rw [mapping, if_pos hext] at h
  rw [getFileBlock, if_pos hext, findExtentBlock_eq, h, Option.getD_none]

theorem getFileBlock_blocks_hole (hext : raw.extents = false)
    (hlb : lb < directBlocks + sbi.blockSize / 4) (h : mapping sbi raw d lb = none) :
    getFileBlock sbi raw lb d = 0 := by
  rw [mapping, hext, if_neg Bool.false_ne_true] at h
  rw [getFileBlock, hext, if_neg Bool.false_ne_true, getIndirectBlockEntry_eq hlb,
    blockMapping_eq_none.mp h]

theorem indexBefore_le (w : ℕ → ℕ) (lb : ℕ) : indexBefore w lb ≤ ehEntries w := by
  unfold indexBefore
  cases hfind : (range (ehEntries w)).find? fun i => lb < w (3 + 3 * i) with
  | none => exact le_rfl
  | some i => exact (mem_range.mp (mem_of_find?_eq_some hfind)).le

theorem mapping_congr (h : ∀ i b, nodeBlock raw i = some b →
    d'.block sbi.blockSize b = d.block sbi.blockSize b) :
    mapping sbi raw d' lb = mapping sbi raw d lb := by
  unfold mapping
  split
  next hext =>
    simp only [extentMapping]
    split
    · rfl
    split
    · rfl
    next hdepth =>
      split
      · rfl
      next hindex =>
        have hle := indexBefore_le raw.iBlock lb
        rw [h (indexBefore raw.iBlock lb - 1)]
        rw [nodeBlock, if_pos hext, if_pos ⟨hdepth, by omega⟩]
  next hext =>
    have hentry : blockEntry sbi raw d' lb = blockEntry sbi raw d lb := by
      unfold blockEntry
      split
      · rfl
      split
      next hin =>
        rw [h 0]
        rw [nodeBlock, if_neg hext, if_pos ⟨rfl, hin.2⟩]
      · rfl
    rw [blockMapping, blockMapping, hentry]

end NoobKernel.Ext4
