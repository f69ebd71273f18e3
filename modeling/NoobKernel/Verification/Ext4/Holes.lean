import NoobKernel.Verification.Ext4.Mapping

/-! # Reading files with holes

A logical block without a block of the device is a hole. `ext4_read_data` finds the number 0 for a
hole of a file that is mapped by blocks, and reads block 0 of the device; it finds `~0` for a hole of
a file that is mapped by extents, and stops. -/

namespace NoobKernel.Ext4

open Library List Nat Disk

variable {sbi : SbInfo} {raw : RawInode} {d d' : Disk UInt8} {pos len lb b a : ℕ}

/-! ## Reads -/

/-- Another device with the same blocks of a file. -/
def Agrees (sbi : SbInfo) (raw : RawInode) (d d' : Disk UInt8) : Prop :=
  ∀ a, Belongs sbi raw d (a / sbi.blockSize) → d' a = d a

/-- A range of positions within the reach of the mapping: a table of one block for blocks, and
nodes of one level for extents. -/
structure Addressable (sbi : SbInfo) (raw : RawInode) (pos len : ℕ) : Prop where
  depth : raw.extents = true → ehDepth raw.iBlock ≤ 1
  fits : pos + len < 2 ^ 64
  reach : ∀ a, pos ≤ a → a < pos + len → a < raw.iSize →
    a / sbi.blockSize < if raw.extents then 2 ^ 32 else directBlocks + sbi.blockSize / 4

/-- No block of the device has the number that stands for an error. -/
def NoErrorBlock (sbi : SbInfo) (raw : RawInode) (d : Disk UInt8) : Prop :=
  ∀ lb b, mapping sbi raw d lb = some b → b ≠ noBlock

/-! ## Bytes of a file -/

/-- The byte that is read at a position. -/
def fileByte (sbi : SbInfo) (raw : RawInode) (d : Disk UInt8) : Disk UInt8 := fun a =>
  d (getFileBlock sbi raw (a / sbi.blockSize) d * sbi.blockSize + a % sbi.blockSize)

theorem slice_fileByte {n : ℕ} (h : n ≤ sbi.blockSize - pos % sbi.blockSize) :
    d.slice (getFileBlock sbi raw (pos / sbi.blockSize) d * sbi.blockSize + pos % sbi.blockSize) n =
      (fileByte sbi raw d).slice pos n := by
  refine ext_getElem (by simp) fun i hi _ => ?_
  have hi' : i < sbi.blockSize - pos % sbi.blockSize := by
    rw [length_slice] at hi
    omega
  simp only [slice, getElem_map, getElem_range', one_mul, fileByte,
    add_div_of_lt hi', add_mod_of_lt hi', add_assoc]

theorem readLoop_eq (fuel : ℕ) : ∀ pos len read, len ≤ fuel →
    (∀ a, pos ≤ a → a < pos + len → a / sbi.blockSize < 2 ^ 32 ∧
      getFileBlock sbi raw (a / sbi.blockSize) d ≠ noBlock) →
    readLoop sbi raw d fuel pos len read = .ok (read ++ (fileByte sbi raw d).slice pos len) := by
  induction fuel with
  | zero =>
    intro pos len read hfuel _
    obtain rfl := le_zero.mp hfuel
    simp [readLoop]
  | succ fuel ih =>
    intro pos len read hfuel hall
    rw [readLoop]
    split
    next hzero => simp [hzero]
    next hne =>
      obtain ⟨hlb, hblock⟩ := hall pos le_rfl (by omega)
      have hpos := sub_mod_pos pos sbi.blockSize_pos
      rw [mod_eq_of_lt hlb, if_neg hblock,
        ih _ _ _ (by omega) fun a hle hlt => hall a (by omega) (by omega), readAt_eq,
        slice_fileByte (min_le_left _ _), append_assoc, ← slice_add,
        Nat.add_sub_cancel' (Nat.min_le_right _ _)]

theorem readLoop_short (fuel : ℕ) : ∀ pos len read bytes, len ≤ fuel →
    (∀ a, pos ≤ a → a < pos + len → a / sbi.blockSize < 2 ^ 32) →
    (∃ a, pos ≤ a ∧ a < pos + len ∧ getFileBlock sbi raw (a / sbi.blockSize) d = noBlock) →
    readLoop sbi raw d fuel pos len read = .ok bytes → bytes.length < read.length + len := by
  induction fuel with
  | zero =>
    omega
  | succ fuel ih =>
    intro pos len read bytes hfuel hall hhole hread
    rw [readLoop] at hread
    split at hread
    next hzero =>
      omega
    next hne =>
      have hpos := sub_mod_pos pos sbi.blockSize_pos
      dsimp only at hread
      rw [mod_eq_of_lt (hall pos le_rfl (by omega))] at hread
      split at hread
      · split at hread
        · cases hread
        · cases hread
          omega
      next hblock =>
        -- the hole is not in the block of this round
        obtain ⟨a, hle, hlt, ha⟩ := hhole
        have hlater : pos + min (sbi.blockSize - pos % sbi.blockSize) len ≤ a := by
          by_contra hin
          have hdiv : a / sbi.blockSize = pos / sbi.blockSize := by
            rw [← Nat.add_sub_cancel' hle]
            exact add_div_of_lt (by omega)
          exact hblock (hdiv ▸ ha)
        have hshort := ih _ _ _ _ (by omega) (fun a hle hlt => hall a (by omega) (by omega))
          ⟨a, hlater, by omega, ha⟩ hread
        rw [length_append, readAt_eq, length_slice] at hshort
        omega

/-! ## Other devices -/

theorem Agrees.block_eq (h : Agrees sbi raw d d') (hb : Belongs sbi raw d b) :
    d'.block sbi.blockSize b = d.block sbi.blockSize b := by
  refine slice_congr fun a hle hlt => h a ?_
  rwa [Nat.div_eq_of_lt_le hle (by rw [Nat.succ_mul]; exact hlt)]

theorem Agrees.mapping_eq (h : Agrees sbi raw d d') : mapping sbi raw d' lb = mapping sbi raw d lb :=
  mapping_congr fun i _ hb => h.block_eq ⟨.node i, hb⟩

theorem Agrees.fileByte_eq (h : Agrees sbi raw d d')
    (hmapped : mapping sbi raw d (a / sbi.blockSize) = some b) :
    fileByte sbi raw d' a = fileByte sbi raw d a := by
  unfold fileByte
  rw [getFileBlock_of_mapping (h.mapping_eq.trans hmapped), getFileBlock_of_mapping hmapped]
  refine h _ ?_
  have hdiv : (b * sbi.blockSize + a % sbi.blockSize) / sbi.blockSize = b := by
    rw [mul_comm, mul_add_div sbi.blockSize_pos,
      div_eq_of_lt (mod_lt a sbi.blockSize_pos), add_zero]
  rw [hdiv]
  exact ⟨.data _, hmapped⟩

/-- The device with another block 0. -/
def otherZero (sbi : SbInfo) (d : Disk UInt8) : Disk UInt8 := fun a =>
  if a < sbi.blockSize then d a + 1 else d a

theorem agrees_otherZero (hext : raw.extents = false) : Agrees sbi raw d (otherZero sbi d) := by
  have hzero : ¬ Belongs sbi raw d 0 := by
    rintro ⟨lb | i, h⟩
    · rw [place, mapping, hext, if_neg Bool.false_ne_true] at h
      exact (blockMapping_eq_some.mp h).2 rfl
    · rw [place, nodeBlock, hext, if_neg Bool.false_ne_true] at h
      split at h
      next hne => exact hne.2 (Option.some.inj h)
      · cases h
  intro a ha
  refine if_neg fun hlt => hzero ?_
  rwa [div_eq_of_lt hlt] at ha

/-! ## Holes -/

/-- Reading returns all bytes up to the end of the file, with zeros for the holes, and nothing
that depends on other blocks than those of the file. -/
def HolesReadZero (sbi : SbInfo) (raw : RawInode) (pos len : ℕ) (d : Disk UInt8) : Prop :=
  ∃ bytes, readData sbi raw pos len d = .ok bytes ∧
    bytes.length = min len (raw.iSize - pos) ∧
    (∀ i, i < bytes.length → mapping sbi raw d ((pos + i) / sbi.blockSize) = none →
      bytes[i]? = some 0) ∧
    ∀ d', Agrees sbi raw d d' → readData sbi raw pos len d' = .ok bytes

theorem readData_eq (hpos : pos < raw.iSize) (hfits : pos + len < 2 ^ 64) :
    readData sbi raw pos len d =
      readLoop sbi raw d (min len (raw.iSize - pos)) pos (min len (raw.iSize - pos)) [] := by
  have hlen : (if raw.iSize < (pos + len) % 2 ^ 64 then raw.iSize - pos else len) =
      min len (raw.iSize - pos) := by
    split <;> omega
  rw [readData, if_neg (by omega), hlen]

theorem Addressable.reach_u32 (h : Addressable sbi raw pos len) (hle : pos ≤ a)
    (hlt : a < pos + min len (raw.iSize - pos)) : a / sbi.blockSize < 2 ^ 32 := by
  have hreach := h.reach a hle (by omega) (by omega)
  have hsize := sbi.blockSize_le
  split at hreach
  · exact hreach
  · simp only [directBlocks] at hreach
    omega

/-- A read without holes among the extents. Those among the blocks are read from block 0. -/
theorem readData_mapped (hpos : pos < raw.iSize) (haddr : Addressable sbi raw pos len)
    (hblocks : NoErrorBlock sbi raw d)
    (hmapped : raw.extents = true → ∀ a, pos ≤ a → a < pos + len → a < raw.iSize →
      mapping sbi raw d (a / sbi.blockSize) ≠ none) :
    readData sbi raw pos len d =
      .ok ((fileByte sbi raw d).slice pos (min len (raw.iSize - pos))) := by
  rw [readData_eq hpos haddr.fits, readLoop_eq _ _ _ _ le_rfl fun a hle hlt => ?_, nil_append]
  refine ⟨haddr.reach_u32 hle hlt, ?_⟩
  cases hmap : mapping sbi raw d (a / sbi.blockSize) with
  | none =>
    have hext : raw.extents = false := by
      by_contra hext
      exact hmapped (by simpa using hext) a hle (by omega) (by omega) hmap
    have hreach := haddr.reach a hle (by omega) (by omega)
    rw [hext, if_neg Bool.false_ne_true] at hreach
    rw [getFileBlock_blocks_hole hext hreach hmap]
    decide
  | some b =>
    rw [getFileBlock_of_mapping hmap]
    exact hblocks _ _ hmap

theorem Agrees.noErrorBlock (h : Agrees sbi raw d d') (hblocks : NoErrorBlock sbi raw d) :
    NoErrorBlock sbi raw d' := by
  intro lb b hb
  rw [h.mapping_eq] at hb
  exact hblocks lb b hb

section

variable (hpos : pos < raw.iSize) (haddr : Addressable sbi raw pos len)

include hpos haddr

section

variable (hle : pos ≤ a) (hlt : a < pos + len) (hsize : a < raw.iSize)
  (hhole : mapping sbi raw d (a / sbi.blockSize) = none)

include hle hlt hsize hhole

theorem not_holesReadZero_extents (hext : raw.extents = true) :
    ¬ HolesReadZero sbi raw pos len d := by
  rintro ⟨bytes, hread, hlen, -⟩
  rw [readData_eq hpos haddr.fits] at hread
  have hshort := readLoop_short _ _ _ _ _ le_rfl (fun a hle hlt => haddr.reach_u32 hle hlt)
    ⟨a, hle, by omega, getFileBlock_extents_hole hext hhole⟩ hread
  rw [length_nil] at hshort
  omega

theorem not_holesReadZero_blocks (hblocks : NoErrorBlock sbi raw d) (hext : raw.extents = false) :
    ¬ HolesReadZero sbi raw pos len d := by
  rintro ⟨bytes, hread, hlen, -, hsame⟩
  -- the byte at the hole is that of block 0, which may be another one
  have hagrees : Agrees sbi raw d (otherZero sbi d) := agrees_otherZero hext
  have hother := hsame _ hagrees
  rw [readData_mapped hpos haddr hblocks (by simp [hext])] at hread
  rw [readData_mapped hpos haddr (hagrees.noErrorBlock hblocks) (by simp [hext])] at hother
  have hreach := haddr.reach a hle hlt hsize
  rw [hext, if_neg Bool.false_ne_true] at hreach
  have hslices := (Except.ok.inj hother).trans (Except.ok.inj hread).symm
  have hat := congrArg (·[a - pos]?) hslices
  have hin : a - pos < min len (raw.iSize - pos) := by omega
  simp only [getElem?_slice hin, Nat.add_sub_cancel' hle, Option.some.injEq, fileByte,
    getFileBlock_blocks_hole hext hreach hhole,
    getFileBlock_blocks_hole hext hreach (hagrees.mapping_eq.trans hhole), zero_mul,
    zero_add, otherZero, mod_lt a sbi.blockSize_pos, if_true] at hat
  exact absurd hat (by simp)

end

end

/-- A read is right exactly if there are no holes in its range. -/
theorem holes_read_zero_iff (sbi : SbInfo) (raw : RawInode) (pos len : ℕ) (d : Disk UInt8)
    (hpos : pos < raw.iSize) (haddr : Addressable sbi raw pos len)
    (hblocks : NoErrorBlock sbi raw d) :
    HolesReadZero sbi raw pos len d ↔
      ∀ a, pos ≤ a → a < pos + len → a < raw.iSize →
        mapping sbi raw d (a / sbi.blockSize) ≠ none := by
  constructor
  · intro h a hle hlt hsize hhole
    cases hext : raw.extents with
    | true => exact not_holesReadZero_extents hpos haddr hle hlt hsize hhole hext h
    | false => exact not_holesReadZero_blocks hpos haddr hle hlt hsize hhole hblocks hext h
  · intro hmapped
    refine ⟨_, readData_mapped hpos haddr hblocks fun _ => hmapped, length_slice, ?_, ?_⟩
    · intro i hi hhole
      rw [length_slice] at hi
      exact absurd hhole (hmapped (pos + i) (by omega) (by omega) (by omega))
    · intro d' hagrees
      rw [readData_mapped hpos haddr (hagrees.noErrorBlock hblocks) fun _ a hle hlt hsize => by
        rw [hagrees.mapping_eq]
        exact hmapped a hle hlt hsize]
      refine congrArg Except.ok (slice_congr fun a hle hlt => ?_)
      obtain ⟨b, hb⟩ := Option.ne_none_iff_exists'.mp (hmapped a hle (by omega) (by omega))
      exact hagrees.fileByte_eq hb

def smallFs : SbInfo := ⟨0, by decide, 1, 8192, 1, 32⟩

/-- A file of one byte that is mapped by blocks, with the entry for its only block. -/
def byteFile (b : ℕ) : RawInode := ⟨1, 0, fun i => if i = 0 then b else 0⟩

/-- A file of one byte that is mapped by extents and has none. -/
def emptyExtents : RawInode := ⟨1, extentsFl, fun i => if i = 0 then extentMagic else 0⟩

theorem byteFile_extents (b : ℕ) : (byteFile b).extents = false := by
  simp [RawInode.extents, byteFile]

theorem byteFile_addressable (b : ℕ) : Addressable smallFs (byteFile b) 0 1 := by
  refine ⟨?_, by decide, ?_⟩
  · intro hext
    rw [byteFile_extents] at hext
    cases hext
  · intro a _ hlt _
    obtain rfl : a = 0 := by omega
    simp [byteFile_extents]

theorem byteFile_noErrorBlock {b : ℕ} (hb : b ≠ noBlock) (d : Disk UInt8) :
    NoErrorBlock smallFs (byteFile b) d := by
  intro lb b' h
  rw [mapping, byteFile_extents, if_neg Bool.false_ne_true] at h
  obtain ⟨rfl, hne⟩ := blockMapping_eq_some.mp h
  unfold blockEntry at hne ⊢
  split
  next hlb =>
    by_cases hzero : lb = 0
    · simpa [byteFile, hzero] using hb
    · simp [byteFile, hzero]
  next hlb =>
    rw [if_neg hlb, if_neg fun hin => hin.2 rfl] at hne
    exact absurd rfl hne

/-- A read of the only byte of a file. -/
theorem holes_read_zero_mapped :
    0 < (byteFile 5).iSize ∧ Addressable smallFs (byteFile 5) 0 1 ∧
      NoErrorBlock smallFs (byteFile 5) (fun _ => 7) ∧
      HolesReadZero smallFs (byteFile 5) 0 1 fun _ => 7 := by
  have hblocks := byteFile_noErrorBlock (show 5 ≠ noBlock by decide) fun _ => 7
  refine ⟨by decide, byteFile_addressable 5, hblocks,
    (holes_read_zero_iff _ _ _ _ _ (by decide) (byteFile_addressable 5) hblocks).mpr ?_⟩
  intro a _ hlt _
  obtain rfl : a = 0 := by omega
  decide

/-- Files of one byte, without a block for it. On a device full of sevens the one that is mapped by
blocks reads as 7, and the one that is mapped by extents cannot be read. -/
theorem holes_read_zero_fails :
    (mapping smallFs (byteFile 0) (fun _ => 7) 0 = none ∧
      readData smallFs (byteFile 0) 0 1 (fun _ => 7) = .ok [7] ∧
      ¬ HolesReadZero smallFs (byteFile 0) 0 1 fun _ => 7) ∧
    (mapping smallFs emptyExtents (fun _ => 7) 0 = none ∧
      readData smallFs emptyExtents 0 1 (fun _ => 7) = .error (-enosys) ∧
      ¬ HolesReadZero smallFs emptyExtents 0 1 fun _ => 7) := by
  refine ⟨⟨by decide, rfl, ?_⟩, ⟨by decide, rfl, ?_⟩⟩
  · rintro ⟨bytes, ⟨⟩, -, hzero, -⟩
    exact absurd (hzero 0 (by decide) (by decide)) (by decide)
  · rintro ⟨bytes, ⟨⟩, -⟩

/-! ## Extent trees

A tree stands for the blocks of all its extents. `ext4_find_extent_block` visits one leaf only, and
finds in it what the whole tree says about a logical block. -/

variable {s : Fs} {w : ℕ → ℕ} {blocks lo hi i k : ℕ}

def eeStart (w : ℕ → ℕ) (i : ℕ) : ℕ := w (5 + 3 * i) + w (4 + 3 * i) / 2 ^ 16 * 2 ^ 32

def eiLeaf (w : ℕ → ℕ) (i : ℕ) : ℕ := w (4 + 3 * i) + w (5 + 3 * i) % 2 ^ 16 * 2 ^ 32

def eiBlock (w : ℕ → ℕ) (i : ℕ) : ℕ := w (3 + 3 * i)

/-- An extent maps consecutive logical blocks to consecutive blocks. -/
def LeafMaps (w : ℕ → ℕ) (lb b : ℕ) : Prop :=
  ∃ i < ehEntries w, ∃ k < (extentAt w i).eeLen,
    lb = (extentAt w i).eeBlock + k ∧ b = eeStart w i + k

/-- A leaf on a device of `blocks` blocks: its extents are sorted and do not overlap, they are
initialised, they end below `2 ^ 32`, and their logical blocks are at least `lo` and below `hi`. -/
structure Leaf (w : ℕ → ℕ) (blocks lo hi : ℕ) : Prop where
  magic : ehMagic w = extentMagic
  depth : ehDepth w = 0
  sorted : ∀ i j, i < j → j < ehEntries w →
    (extentAt w i).eeBlock + (extentAt w i).eeLen ≤ (extentAt w j).eeBlock
  initialised : ∀ i < ehEntries w, (extentAt w i).eeLen ≤ 2 ^ 15
  ends : ∀ i < ehEntries w, (extentAt w i).eeBlock + (extentAt w i).eeLen < 2 ^ 32
  range : ∀ i < ehEntries w, lo ≤ (extentAt w i).eeBlock ∧
    (extentAt w i).eeBlock + (extentAt w i).eeLen ≤ hi
  start : ∀ i < ehEntries w, eeStart w i + (extentAt w i).eeLen ≤ blocks

/-- The child nodes of an inode. -/
def leafNode (sbi : SbInfo) (raw : RawInode) (s : Fs) (i : ℕ) : ℕ → ℕ :=
  word (s.disk.block sbi.blockSize (eiLeaf raw.iBlock i))

/-- The first key behind the blocks of a child node. -/
def nextKey (w : ℕ → ℕ) (i : ℕ) : ℕ := if i + 1 < ehEntries w then eiBlock w (i + 1) else 2 ^ 32

/-- The extents of an inode, in the inode itself or in leaves below it. -/
inductive ExtentTree (sbi : SbInfo) (raw : RawInode) (s : Fs) : Prop
  | leaf : ehEntries raw.iBlock ≤ 4 → Leaf raw.iBlock (sBlocksCount s.sb) 0 (2 ^ 32) →
      ExtentTree sbi raw s
  | index : ehMagic raw.iBlock = extentMagic → ehDepth raw.iBlock = 1 →
      ehEntries raw.iBlock ≤ 4 →
      (∀ i j, i < j → j < ehEntries raw.iBlock → eiBlock raw.iBlock i < eiBlock raw.iBlock j) →
      (∀ i < ehEntries raw.iBlock, eiLeaf raw.iBlock i < sBlocksCount s.sb ∧
        12 * (ehEntries (leafNode sbi raw s i) + 1) ≤ sbi.blockSize ∧
        Leaf (leafNode sbi raw s i) (sBlocksCount s.sb) (eiBlock raw.iBlock i)
          (nextKey raw.iBlock i)) →
      ExtentTree sbi raw s

/-- What a tree means: some leaf maps the logical block. -/
def TreeMaps (sbi : SbInfo) (raw : RawInode) (s : Fs) (lb b : ℕ) : Prop :=
  if ehDepth raw.iBlock = 0 then LeafMaps raw.iBlock lb b
  else ∃ i < ehEntries raw.iBlock, LeafMaps (leafNode sbi raw s i) lb b

/-! ## Leaves -/

namespace Leaf

variable (h : Leaf w blocks lo hi)

include h

theorem covers_iff (hi : i < ehEntries w) :
    (extentAt w i).covers lb = true ↔ ∃ k < (extentAt w i).eeLen,
      lb = (extentAt w i).eeBlock + k := by
  have hends := h.ends i hi
  rw [Extent.covers, Nat.mod_eq_of_lt (by omega)]
  simp only [Bool.and_eq_true, decide_eq_true_eq]
  constructor
  · intro hlb
    exact ⟨lb - (extentAt w i).eeBlock, by omega, by omega⟩
  · rintro ⟨k, hk, rfl⟩
    omega

theorem phys_eq (hblocks : blocks < 2 ^ 32) (hi : i < ehEntries w)
    (hk : k < (extentAt w i).eeLen) :
    (extentAt w i).phys ((extentAt w i).eeBlock + k) = eeStart w i + k := by
  have hstart := h.start i hi
  have hhigh : w (4 + 3 * i) / 2 ^ 16 = 0 := by
    unfold eeStart at hstart
    omega
  have heq : (extentAt w i).eeStart = eeStart w i := by
    simp only [extentAt, eeStart, hhigh, Nat.zero_shiftLeft, Nat.or_zero, Nat.zero_mul, Nat.add_zero]
  rw [Extent.phys, heq, Nat.add_sub_cancel_left, Nat.mod_eq_of_lt (by omega)]

theorem findInLeaf_iff (hblocks : blocks < 2 ^ 32) :
    findInLeaf w lb = some b ↔ LeafMaps w lb b := by
  have hfind : findInLeaf w lb = ((List.range (ehEntries w)).find? fun i =>
      (extentAt w i).covers lb).map fun i => (extentAt w i).phys lb := by
    simp [findInLeaf, extents, find?_map, Function.comp_def]
  rw [hfind, Option.map_eq_some_iff]
  simp only [find?_range_eq_some, mem_range]
  constructor
  · rintro ⟨i, ⟨hcovers, hi, -⟩, rfl⟩
    obtain ⟨k, hk, rfl⟩ := (h.covers_iff hi).mp hcovers
    exact ⟨i, hi, k, hk, rfl, h.phys_eq hblocks hi hk⟩
  · rintro ⟨i, hi, k, hk, rfl, rfl⟩
    refine ⟨i, ⟨(h.covers_iff hi).mpr ⟨k, hk, rfl⟩, hi, fun j hj => ?_⟩,
      h.phys_eq hblocks hi hk⟩
    -- an earlier extent ends before this one begins
    have hsorted := h.sorted j i hj hi
    rw [Bool.not_eq_true', ← Bool.not_eq_true, h.covers_iff (hj.trans hi)]
    rintro ⟨k', hk', heq⟩
    omega

theorem bounds (hmaps : LeafMaps w lb b) : lo ≤ lb ∧ lb < hi ∧ b < blocks := by
  obtain ⟨i, hi, k, hk, rfl, rfl⟩ := hmaps
  have hrange := h.range i hi
  have hstart := h.start i hi
  omega

end Leaf

/-! ## Trees -/

theorem indexBefore_eq (hi : i < ehEntries w) (hle : ∀ j ≤ i, eiBlock w j ≤ lb)
    (hlt : i + 1 < ehEntries w → lb < eiBlock w (i + 1)) : indexBefore w lb = i + 1 := by
  unfold indexBefore
  have hnot : ∀ j ≤ i, ¬ lb < w (3 + 3 * j) := fun j hj => not_lt.mpr (hle j hj)
  by_cases hlast : i + 1 < ehEntries w
  · rw [find?_range_eq_some.mpr ⟨decide_eq_true (hlt hlast), mem_range.mpr hlast, fun j hj => ?_⟩]
    · rfl
    · simp [hnot j (by omega)]
  rw [find?_eq_none.mpr fun j hj => ?_]
  · simp only [Option.getD_none]
    omega
  · have hj := mem_range.mp hj
    simp [hnot j (by omega)]

theorem leafBlock_eq (h : eiLeaf w i < 2 ^ 32) : leafBlock w i = eiLeaf w i := by
  have hhigh : w (5 + 3 * i) % 2 ^ 16 = 0 := by
    unfold eiLeaf at h
    omega
  simp only [leafBlock, eiLeaf, hhigh, Nat.zero_shiftLeft, Nat.or_zero, Nat.zero_mul, Nat.add_zero]

theorem sBlocksCount_lt (sb : List UInt8) : sBlocksCount sb < 2 ^ 32 := field_lt

namespace ExtentTree

variable (h : ExtentTree sbi raw s)

include h

theorem extentMapping_iff : extentMapping sbi raw s.disk lb = some b ↔ TreeMaps sbi raw s lb b := by
  have hblocks := sBlocksCount_lt s.sb
  cases h with
  | leaf hentries hleaf =>
    simp only [extentMapping, TreeMaps, hleaf.magic, hleaf.depth, ne_eq, not_true_eq_false, if_true,
      if_false]
    exact hleaf.findInLeaf_iff hblocks
  | index hmagic hdepth hentries hsorted hchild =>
    simp only [extentMapping, TreeMaps, hmagic, hdepth, ne_eq, not_true_eq_false, if_false,
      one_ne_zero]
    constructor
    · intro hfind
      split at hfind
      · cases hfind
      next hne =>
        have hle := indexBefore_le raw.iBlock lb
        have hi : indexBefore raw.iBlock lb - 1 < ehEntries raw.iBlock := by omega
        obtain ⟨hlt, -, hleaf⟩ := hchild _ hi
        rw [leafBlock_eq (hlt.trans hblocks)] at hfind
        exact ⟨_, hi, (hleaf.findInLeaf_iff hblocks).mp hfind⟩
    · rintro ⟨i, hi, hmaps⟩
      obtain ⟨hlt, -, hleaf⟩ := hchild i hi
      obtain ⟨hlow, hhigh, -⟩ := hleaf.bounds hmaps
      have hindex : indexBefore raw.iBlock lb = i + 1 := by
        refine indexBefore_eq hi (fun j hj => ?_) fun hlast => ?_
        · rcases Nat.lt_or_eq_of_le hj with hj | rfl
          · exact (hsorted j i hj hi).le.trans hlow
          · exact hlow
        · rwa [nextKey, if_pos hlast] at hhigh
      rw [hindex, if_neg (Nat.succ_ne_zero i), Nat.add_sub_cancel,
        leafBlock_eq (hlt.trans hblocks)]
      exact (hleaf.findInLeaf_iff hblocks).mpr hmaps

theorem lt_blocks (hmaps : TreeMaps sbi raw s lb b) : b < sBlocksCount s.sb := by
  cases h with
  | leaf _ hleaf =>
    rw [TreeMaps, if_pos hleaf.depth] at hmaps
    exact (hleaf.bounds hmaps).2.2
  | index _ hdepth _ _ hchild =>
    rw [TreeMaps, if_neg (by omega)] at hmaps
    obtain ⟨i, hi, hmaps⟩ := hmaps
    exact ((hchild i hi).2.2.bounds hmaps).2.2

end ExtentTree

/-- The lookup gives the block that the tree maps a logical block to, and `~0` if there is none. -/
theorem findExtentBlock_correct (h : ExtentTree sbi raw s) (lb : ℕ) :
    (∀ b, TreeMaps sbi raw s lb b → findExtentBlock sbi raw lb s.disk = b) ∧
      (findExtentBlock sbi raw lb s.disk = noBlock ↔ ∀ b, ¬ TreeMaps sbi raw s lb b) := by
  have hmapped : ∀ b, TreeMaps sbi raw s lb b → findExtentBlock sbi raw lb s.disk = b := by
    intro b hb
    rw [findExtentBlock_eq, h.extentMapping_iff.mpr hb, Option.getD_some]
  refine ⟨hmapped, fun hnone b hb => ?_, fun hnot => ?_⟩
  · have hlt := h.lt_blocks hb
    have hblocks := sBlocksCount_lt s.sb
    rw [hmapped b hb] at hnone
    simp only [noBlock] at hnone
    omega
  · have hnone : extentMapping sbi raw s.disk lb = none := by
      rw [Option.eq_none_iff_forall_ne_some]
      exact fun b hb => hnot b (h.extentMapping_iff.mp hb)
    rw [findExtentBlock_eq, hnone, Option.getD_none]

/-- A leaf in block 5 with one extent, logical blocks 0 and 1 in blocks 7 and 8. -/
def deepFs : Fs where
  sb := [0, 0, 0, 0, 100, 0, 0, 0]
  disk a := match a with
    | 5120 => 0x0a
    | 5121 => 0xf3
    | 5122 => 1
    | 5136 => 2
    | 5140 => 7
    | _ => 0

def deepInode : RawInode := ⟨2048, extentsFl, fun i => [0x1f30a, 0x10004, 0, 0, 5, 0].getD i 0⟩

theorem findExtentBlock_correct_deep : ExtentTree smallFs deepInode deepFs ∧
    findExtentBlock smallFs deepInode 1 deepFs.disk = 8 := by
  have hleaf : Leaf (leafNode smallFs deepInode deepFs 0) 100 0 (2 ^ 32) := by
    have hentries : ehEntries (leafNode smallFs deepInode deepFs 0) = 1 := by decide +kernel
    refine ⟨by decide +kernel, by decide +kernel, fun i j hij hj => ?_, ?_, ?_, ?_, ?_⟩
    · omega
    all_goals
      intro i hi
      obtain rfl : i = 0 := by omega
      decide +kernel
  have htree : ExtentTree smallFs deepInode deepFs := by
    refine .index (by decide) (by decide) (by decide) (fun i j hij hj => ?_) fun i hi => ?_
    · have hone : j < 1 := hj
      omega
    · obtain rfl : i = 0 := Nat.lt_one_iff.mp hi
      exact ⟨by decide, by decide +kernel, hleaf⟩
  refine ⟨htree, (findExtentBlock_correct htree 1).1 8 ?_⟩
  exact ⟨0, by decide, 0, by decide +kernel, 1, by decide +kernel, by decide +kernel,
    by decide +kernel⟩

end NoobKernel.Ext4
