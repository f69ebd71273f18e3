import NoobKernel.Library.Disk
import NoobKernel.Model.Basic

/-! # Files of ext4

The device behind the block cache, the allocation of blocks, the two ways in which an inode maps
the blocks of its file, and reading and writing a file. No allocation of kernel memory and no access
to the device fails here. -/

namespace NoobKernel.Ext4

open Library

/-! ## The device -/

/-- `BLOCK_SIZE`, the size of the blocks of the cache. -/
abbrev sectorSize : ℕ := 512

def bread (b : ℕ) (d : Disk UInt8) : List UInt8 := d.block sectorSize b

def bwrite (b : ℕ) (data : List UInt8) (d : Disk UInt8) : Disk UInt8 := d.setBlock sectorSize b data

/-- The loop of `ext4_read_at`. Each round reads a byte at least. -/
def readAtLoop (d : Disk UInt8) : ℕ → ℕ → ℕ → List UInt8
  | 0, _, _ => []
  | fuel + 1, offset, size =>
    if size = 0 then []
    else
      let off := offset % sectorSize
      let n := min (sectorSize - off) size
      ((bread (offset / sectorSize) d).drop off).take n ++ readAtLoop d fuel (offset + n) (size - n)

/-- `ext4_read_at`. -/
def readAt (offset size : ℕ) (d : Disk UInt8) : List UInt8 := readAtLoop d size offset size

/-- The loop of `ext4_write_at`. -/
def writeAtLoop : ℕ → ℕ → List UInt8 → Disk UInt8 → Disk UInt8
  | 0, _, _, d => d
  | fuel + 1, offset, buf, d =>
    if buf = [] then d
    else
      let b := offset / sectorSize
      let off := offset % sectorSize
      let n := min (sectorSize - off) buf.length
      writeAtLoop fuel (offset + n) (buf.drop n) (bwrite b (patch off (buf.take n) (bread b d)) d)

/-- `ext4_write_at`. -/
def writeAt (offset : ℕ) (buf : List UInt8) (d : Disk UInt8) : Disk UInt8 :=
  writeAtLoop buf.length offset buf d

/-! ## The file system -/

/-- What `ext4_fill_super` finds out about the file system. -/
structure SbInfo where
  sLogBlockSize : ℕ
  log_le : sLogBlockSize ≤ 5
  sFirstDataBlock : ℕ
  blocksPerGroup : ℕ
  groupsCount : ℕ
  descSize : ℕ
deriving Repr

/-- `block_size`. Positions in a file are split by the bits of this power of two. -/
def SbInfo.blockSize (sbi : SbInfo) : ℕ := 1024 <<< sbi.sLogBlockSize

/-- The device and the copy of the superblock in memory. -/
structure Fs where
  sb : List UInt8
  disk : Disk UInt8

abbrev superblockOffset : ℕ := 1024
abbrev superblockSize : ℕ := 0x11c
abbrev groupDescSize : ℕ := 32

variable (sbi : SbInfo)

/-- The offset of a group descriptor. -/
def groupDescOffset (bg : ℕ) : ℕ :=
  (if 1024 < sbi.blockSize then 1 else 2) * sbi.blockSize + bg * sbi.descSize

def readGroupDesc (bg : ℕ) (d : Disk UInt8) : List UInt8 :=
  readAt (groupDescOffset sbi bg) groupDescSize d

def writeGroupDesc (bg : ℕ) (bgd : List UInt8) (d : Disk UInt8) : Disk UInt8 :=
  writeAt (groupDescOffset sbi bg) bgd d

def bgBlockBitmap (bgd : List UInt8) : ℕ := field 4 0 bgd

def bgFreeBlocksCount (bgd : List UInt8) : ℕ := field 2 12 bgd

def sFreeBlocksCount (sb : List UInt8) : ℕ := field 4 12 sb

/-- A bit of a bitmap. -/
def bitSet (bitmap : List UInt8) (i : ℕ) : Bool := (bitmap.getD (i / 8) 0).toNat.testBit (i % 8)

def setBit (bitmap : List UInt8) (i : ℕ) : List UInt8 :=
  bitmap.set (i / 8) (UInt8.ofNat ((bitmap.getD (i / 8) 0).toNat ||| 1 <<< (i % 8)))

/-- The bits of a bitmap that are searched. -/
def searchCount : ℕ := min sbi.blocksPerGroup (sbi.blockSize * 8)

/-- The number of a block of a group. -/
def blockNumber (bg i : ℕ) : ℕ := (bg * sbi.blocksPerGroup + i + sbi.sFirstDataBlock) % 2 ^ 32

/-- What `ext4_alloc_block` does with a free block: its bit, the counts of the group and of the
superblock, and the block itself are written. -/
def takeBlock (bg i : ℕ) (bgd bitmap : List UInt8) (s : Fs) : Fs :=
  let bgd' := patch 12 (toBytes 2 (bgFreeBlocksCount bgd - 1)) bgd
  let sb := patch 12 (toBytes 4 (sFreeBlocksCount s.sb + (2 ^ 32 - 1))) s.sb
  let disk := writeAt (bgBlockBitmap bgd * sbi.blockSize) (setBit bitmap i) s.disk
  let disk := writeGroupDesc sbi bg bgd' disk
  let disk := writeAt superblockOffset sb disk
  ⟨sb, writeAt (blockNumber sbi bg i * sbi.blockSize) (List.replicate sbi.blockSize 0) disk⟩

/-- A round of `ext4_alloc_block`. -/
def allocGroup (bg : ℕ) (s : Fs) : Option (ℕ × Fs) :=
  let bgd := readGroupDesc sbi bg s.disk
  if bgFreeBlocksCount bgd = 0 then none
  else
    let bitmap := readAt (bgBlockBitmap bgd * sbi.blockSize) sbi.blockSize s.disk
    ((List.range (searchCount sbi)).find? fun i => !bitSet bitmap i).map fun i =>
      (blockNumber sbi bg i, takeBlock sbi bg i bgd bitmap s)

def allocLoop : List ℕ → Fs → ℕ × Fs
  | [], s => (0, s)
  | bg :: bgs, s => (allocGroup sbi bg s).getD (allocLoop bgs s)

/-- `ext4_alloc_block`. -/
def allocBlock (s : Fs) : ℕ × Fs := allocLoop sbi (List.range sbi.groupsCount) s

/-! ## Inodes -/

abbrev extentsFl : ℕ := 0x80000
abbrev extentMagic : ℕ := 0xf30a
abbrev directBlocks : ℕ := 12

/-- `~0U`. -/
abbrev noBlock : ℕ := 2 ^ 32 - 1

/-- `struct ext4_inode`, with `i_block` as a function from the indices of its words. -/
structure RawInode where
  iSize : ℕ
  iFlags : ℕ
  iBlock : ℕ → ℕ

def RawInode.extents (raw : RawInode) : Bool := raw.iFlags &&& extentsFl ≠ 0

/-- The words of a buffer. -/
def word (buf : List UInt8) (i : ℕ) : ℕ := field 4 (4 * i) buf

/-! An extent header and what follows it lie in the words of an inode or of a block. -/

def ehMagic (w : ℕ → ℕ) : ℕ := w 0 % 2 ^ 16

def ehEntries (w : ℕ → ℕ) : ℕ := w 0 / 2 ^ 16

def ehMax (w : ℕ → ℕ) : ℕ := w 1 % 2 ^ 16

def ehDepth (w : ℕ → ℕ) : ℕ := w 1 / 2 ^ 16

structure Extent where
  eeBlock : ℕ
  eeLen : ℕ
  eeStart : ℕ
deriving DecidableEq, Repr

def extentAt (w : ℕ → ℕ) (i : ℕ) : Extent :=
  ⟨w (3 + 3 * i), w (4 + 3 * i) % 2 ^ 16, w (5 + 3 * i) ||| (w (4 + 3 * i) / 2 ^ 16) <<< 16⟩

/-- The test for a logical block, with the sum of a register. -/
def Extent.covers (e : Extent) (lb : ℕ) : Bool :=
  e.eeBlock ≤ lb && lb < (e.eeBlock + e.eeLen) % 2 ^ 32

def Extent.phys (e : Extent) (lb : ℕ) : ℕ := (e.eeStart + (lb - e.eeBlock)) % 2 ^ 32

def extents (w : ℕ → ℕ) : List Extent := (List.range (ehEntries w)).map (extentAt w)

/-- The block that a leaf gives for a logical block. -/
def findInLeaf (w : ℕ → ℕ) (lb : ℕ) : Option ℕ := ((extents w).find? (·.covers lb)).map (·.phys lb)

/-- The number of the index entries before the first that lies behind a logical block. -/
def indexBefore (w : ℕ → ℕ) (lb : ℕ) : ℕ :=
  ((List.range (ehEntries w)).find? fun i => lb < w (3 + 3 * i)).getD (ehEntries w)

/-- The child node of an index entry. -/
def leafBlock (w : ℕ → ℕ) (i : ℕ) : ℕ := w (4 + 3 * i) ||| (w (5 + 3 * i) % 2 ^ 16) <<< 16

/-- `ext4_find_extent_block`. -/
def findExtentBlock (raw : RawInode) (lb : ℕ) (d : Disk UInt8) : ℕ :=
  let w := raw.iBlock
  if ehMagic w ≠ extentMagic then noBlock
  else if ehDepth w = 0 then (findInLeaf w lb).getD noBlock
  else
    let i := indexBefore w lb
    if i = 0 then noBlock
    else
      let child := readAt (leafBlock w (i - 1) * sbi.blockSize) sbi.blockSize d
      (findInLeaf (word child) lb).getD noBlock

/-- `ext4_get_indirect_block_entry`. -/
def getIndirectBlockEntry (raw : RawInode) (lb : ℕ) (d : Disk UInt8) : ℕ :=
  if lb < directBlocks then raw.iBlock lb
  else if sbi.blockSize / 4 ≤ lb - directBlocks then noBlock
  else if raw.iBlock directBlocks = 0 then 0
  else word (readAt (raw.iBlock directBlocks * sbi.blockSize) sbi.blockSize d) (lb - directBlocks)

/-- `ext4_get_file_block`. -/
def getFileBlock (raw : RawInode) (lb : ℕ) (d : Disk UInt8) : ℕ :=
  if raw.extents then findExtentBlock sbi raw lb d else getIndirectBlockEntry sbi raw lb d

def RawInode.setBlock (i b : ℕ) (raw : RawInode) : RawInode :=
  { raw with iBlock := Function.update raw.iBlock i b }

/-- The end of `ext4_set_indirect_block_entry`: an entry of the table. -/
def setTableEntry (table i b : ℕ) (d : Disk UInt8) : Disk UInt8 :=
  let buf := readAt (table * sbi.blockSize) sbi.blockSize d
  writeAt (table * sbi.blockSize) (patch (4 * i) (toBytes 4 b) buf) d

/-- `ext4_set_indirect_block_entry`, and whether it returns zero. -/
def setIndirectBlockEntry (raw : RawInode) (lb pb : ℕ) (s : Fs) : Bool × RawInode × Fs :=
  if lb < directBlocks then (true, raw.setBlock lb pb, s)
  else if sbi.blockSize / 4 ≤ lb - directBlocks then (false, raw, s)
  else
    let table := raw.iBlock directBlocks
    if table = 0 then
      let r := allocBlock sbi s
      if r.1 = 0 then (false, raw, r.2)
      else
        (true, raw.setBlock directBlocks r.1,
          { r.2 with disk := setTableEntry sbi r.1 (lb - directBlocks) pb r.2.disk })
    else (true, raw, { s with disk := setTableEntry sbi table (lb - directBlocks) pb s.disk })

/-! ## Reading -/

/-- The loop of `ext4_read_data`, with the bytes that have been read. -/
def readLoop (raw : RawInode) (d : Disk UInt8) : ℕ → ℕ → ℕ → List UInt8 → Except ℤ (List UInt8)
  | 0, _, _, read => .ok read
  | fuel + 1, pos, len, read =>
    if len = 0 then .ok read
    else
      let off := pos % sbi.blockSize
      let n := min (sbi.blockSize - off) len
      let pb := getFileBlock sbi raw (pos / sbi.blockSize % 2 ^ 32) d
      if pb = noBlock then if read = [] then .error (-enosys) else .ok read
      else readLoop raw d fuel (pos + n) (len - n) (read ++ readAt (pb * sbi.blockSize + off) n d)

/-- `ext4_read_data`. -/
def readData (raw : RawInode) (pos len : ℕ) (d : Disk UInt8) : Except ℤ (List UInt8) :=
  if raw.iSize ≤ pos then .ok []
  else
    let len := if raw.iSize < (pos + len) % 2 ^ 64 then raw.iSize - pos else len
    readLoop sbi raw d len pos len []

/-! ## Writing -/

/-- A file in memory. -/
structure Inode where
  iSize : ℕ
  raw : RawInode

/-- The block for a write, which is allocated if there is none, or `none` without space. -/
def blockForWrite (raw : RawInode) (lb : ℕ) (s : Fs) : Option ℕ × RawInode × Fs :=
  let pb := getFileBlock sbi raw lb s.disk
  if pb = noBlock then (none, raw, s)
  else if pb = 0 then
    let r := allocBlock sbi s
    if r.1 = 0 then (none, raw, r.2)
    else
      match setIndirectBlockEntry sbi raw lb r.1 r.2 with
      | (false, raw, s) => (none, raw, s)
      | (true, raw, s) => (some r.1, raw, s)
  else (some pb, raw, s)

/-- The write to a block: the whole block, or a part of what is there. -/
def writeInBlock (pb off : ℕ) (src : List UInt8) (d : Disk UInt8) : Disk UInt8 :=
  let byteOff := pb * sbi.blockSize
  if off = 0 ∧ src.length = sbi.blockSize then writeAt byteOff src d
  else writeAt byteOff (patch off src (readAt byteOff sbi.blockSize d)) d

/-- The loop of `ext4_write_file`, with the result and the position at the end. -/
def writeLoop : ℕ → ℕ → List UInt8 → ℕ → RawInode → Fs → ℤ × ℕ × RawInode × Fs
  | 0, p, _, total, raw, s => (total, p, raw, s)
  | fuel + 1, p, src, total, raw, s =>
    if src = [] then (total, p, raw, s)
    else
      let off := p % sbi.blockSize
      let n := min (sbi.blockSize - off) src.length
      match blockForWrite sbi raw (p / sbi.blockSize % 2 ^ 32) s with
      | (none, raw, s) => (if 0 < total then (total : ℤ) else -enospc, p, raw, s)
      | (some pb, raw, s) =>
        writeLoop fuel (p + n) (src.drop n) (total + n) raw
          { s with disk := writeInBlock sbi pb off (src.take n) s.disk }

/-- `ext4_write_file`. -/
def writeFile (inode : Inode) (p : ℕ) (src : List UInt8) (s : Fs) : ℤ × Inode × Fs :=
  let r := writeLoop sbi src.length p src 0 inode.raw s
  if 0 < r.1 ∧ inode.iSize < r.2.1 then
    (r.1, ⟨r.2.1, { r.2.2.1 with iSize := r.2.1 }⟩, r.2.2.2)
  else (r.1, { inode with raw := r.2.2.1 }, r.2.2.2)

/-- The inode that `ext4_create` makes for a file. -/
def createdInode : Inode := ⟨0, ⟨0, 0, fun _ => 0⟩⟩

/-- The inodes of files, and the file system they lie on. -/
structure State (ι : Type*) where
  files : ι → Inode
  fs : Fs

/-- The arguments of a call of `ext4_write_file`. -/
structure WriteCall (ι : Type*) where
  file : ι
  pos : ℕ
  src : List UInt8

def State.write {ι : Type*} [DecidableEq ι] (c : WriteCall ι) (st : State ι) : ℤ × State ι :=
  let r := writeFile sbi (st.files c.file) c.pos c.src st.fs
  (r.1, ⟨Function.update st.files c.file r.2.1, r.2.2⟩)

/-! ## The superblock of ext4

What `ext4_fill_super` checks and computes, and the searches of the bitmaps that rest on it. -/

/-- `struct ext4_sb_info`, with what is about inodes. -/
structure SuperInfo extends SbInfo where
  inodesPerGroup : ℕ
  inodeSize : ℕ
  inodesPerBlock : ℕ
  descPerBlock : ℕ

abbrev superMagic : ℕ := 0xef53
abbrev incompat64bit : ℕ := 0x80

/-- `sizeof(struct ext4_inode)`. -/
abbrev rawInodeSize : ℕ := 128

def sBlocksCount (sb : List UInt8) : ℕ := field 4 0x04 sb

def sFirstDataBlock (sb : List UInt8) : ℕ := field 4 0x14 sb

def sLogBlockSize (sb : List UInt8) : ℕ := field 4 0x18 sb

def sBlocksPerGroup (sb : List UInt8) : ℕ := field 4 0x20 sb

def sInodesPerGroup (sb : List UInt8) : ℕ := field 4 0x28 sb

def sMagic (sb : List UInt8) : ℕ := field 2 0x38 sb

def sInodeSize (sb : List UInt8) : ℕ := field 2 0x58 sb

def sFeatureIncompat (sb : List UInt8) : ℕ := field 4 0x60 sb

/-- The division of a register, which gives all ones for the divisor zero. -/
def divu (a b : ℕ) : ℕ := if b = 0 then 2 ^ 32 - 1 else a / b

/-- `ext4_fill_super`, after the superblock has been read. -/
def fillSuper (sb : List UInt8) : Except ℤ SuperInfo :=
  if sMagic sb ≠ superMagic then .error (-einval)
  else if h : 5 < sLogBlockSize sb then .error (-einval)
  else
    let blockSize := 1024 <<< sLogBlockSize sb
    let inodeSize := if sInodeSize sb ≠ 0 then sInodeSize sb else 128
    let descSize := if sFeatureIncompat sb &&& incompat64bit ≠ 0 then 64 else groupDescSize
    .ok { sLogBlockSize := sLogBlockSize sb
          log_le := not_lt.mp h
          sFirstDataBlock := sFirstDataBlock sb
          blocksPerGroup := sBlocksPerGroup sb
          groupsCount :=
            divu ((sBlocksCount sb + sBlocksPerGroup sb + (2 ^ 32 - 1)) % 2 ^ 32)
              (sBlocksPerGroup sb)
          descSize
          inodesPerGroup := sInodesPerGroup sb
          inodeSize
          inodesPerBlock := divu blockSize inodeSize
          descPerBlock := divu blockSize descSize }

/-- The search of a bitmap for a bit that is clear. It has no result where it leaves the buffer. -/
def scanBitmap (bitmap : List UInt8) : List ℕ → Option (Option ℕ)
  | [] => some none
  | i :: rest => do
    let byte ← bitmap[i / 8]?
    if byte.toNat.testBit (i % 8) then scanBitmap bitmap rest else some (some i)

/-- The bits that `ext4_alloc_inode_from_disk` searches in a group. -/
def inodeBits (info : SuperInfo) (bg : ℕ) : List ℕ :=
  let start := if bg = 0 then 10 else 0
  List.range' start (info.inodesPerGroup - start)

/-- The bits that `ext4_alloc_block` searches in a group. -/
def blockBits (info : SuperInfo) : List ℕ := List.range (searchCount info.toSbInfo)

end NoobKernel.Ext4
