import NoobKernel.Model.Ext4

/-! # Directories of ext4

A directory is a file of entries: in each block they follow one another, each with the length of its
record. -/

namespace NoobKernel.Ext4

open Library

variable (sbi : SbInfo)

/-! ## Entries -/

/-- `sizeof(struct ext4_dirent)`. -/
abbrev direntSize : ℕ := 8

def deInode (buf : List UInt8) (off : ℕ) : ℕ := field 4 off buf

def deRecLen (buf : List UInt8) (off : ℕ) : ℕ := field 2 (off + 4) buf

def deNameLen (buf : List UInt8) (off : ℕ) : ℕ := field 1 (off + 6) buf

/-- The comparison of an entry with a name. -/
def deMatches (buf : List UInt8) (off : ℕ) (name : List UInt8) : Bool :=
  deNameLen buf off = name.length % 2 ^ 8 && (buf.drop (off + direntSize)).take name.length = name

/-- The length of a record for a name. -/
def recLenFor (namelen : ℕ) : ℕ := max 12 ((direntSize + namelen + 3) / 4 * 4)

/-- The fields of a new entry, without the length of its record. -/
def storeEntry (off ino : ℕ) (name : List UInt8) (fileType : ℕ) (buf : List UInt8) : List UInt8 :=
  patch (off + direntSize) name
    (patch (off + 7) (toBytes 1 fileType)
      (patch (off + 6) (toBytes 1 name.length) (patch off (toBytes 4 ino) buf)))

def storeRecLen (off recLen : ℕ) (buf : List UInt8) : List UInt8 :=
  patch (off + 4) (toBytes 2 recLen) buf

/-! ## Lookup -/

/-- The loop of `ext4_dir_lookup`. Each round skips a byte at least. -/
def lookupLoop (buf name : List UInt8) (size : ℕ) : ℕ → ℕ → ℕ
  | 0, _ => 0
  | fuel + 1, off =>
    if size ≤ off then 0
    else if deRecLen buf off = 0 then 0
    else if deInode buf off ≠ 0 && deMatches buf off name then deInode buf off
    else lookupLoop buf name size fuel (off + deRecLen buf off)

/-- The buffer that `kzalloc` has filled with zeros, after a read. -/
def filled (size : ℕ) (read : List UInt8) : List UInt8 :=
  read ++ List.replicate (size - read.length) 0

/-- `ext4_dir_lookup`. -/
def dirLookup (raw : RawInode) (name : List UInt8) (d : Disk UInt8) : ℕ :=
  match readData sbi raw 0 raw.iSize d with
  | .error _ => 0
  | .ok read =>
    if read.length < direntSize then 0
    else lookupLoop (filled (max 4096 raw.iSize) read) name raw.iSize raw.iSize 0

/-! ## Adding an entry -/

/-- How the scan of a block ends: at a free entry that is large enough, at a length of zero, or
behind the block, with the last entry and its offsets in the block and in the directory. -/
inductive BlockScan where
  | slot (off : ℕ)
  | bad
  | done (offset lastOff lastOffset : ℕ)
deriving DecidableEq, Repr

/-- The inner loop of `ext4_add_dir_entry`. -/
def scanBlock (buf : List UInt8) (size need limit : ℕ) : ℕ → ℕ → ℕ → ℕ → ℕ → BlockScan
  | 0, _, offset, lastOff, lastOffset => .done offset lastOff lastOffset
  | fuel + 1, off, offset, lastOff, lastOffset =>
    if size ≤ off ∨ limit ≤ offset then .done offset lastOff lastOffset
    else if deRecLen buf off = 0 then .bad
    else if deInode buf off = 0 ∧ need ≤ deRecLen buf off then .slot off
    else scanBlock buf size need limit fuel (off + deRecLen buf off) (offset + deRecLen buf off)
      off offset

/-- The last entry that has been seen, with its block. -/
structure LastEntry where
  buf : List UInt8
  phys : ℕ
  off : ℕ
  offset : ℕ

/-- How the scan of a directory ends. -/
inductive DirScan where
  | slot (buf : List UInt8) (phys off : ℕ)
  | bad
  | done (last : Option LastEntry)

/-- The outer loop of `ext4_add_dir_entry`. -/
def scanDir (raw : RawInode) (d : Disk UInt8) (need limit : ℕ) : ℕ → ℕ → Option LastEntry → DirScan
  | 0, _, last => .done last
  | fuel + 1, offset, last =>
    if limit ≤ offset then .done last
    else
      let pb := getFileBlock sbi raw (offset / sbi.blockSize % 2 ^ 32) d
      if pb = 0 ∨ pb = noBlock then
        scanDir raw d need limit fuel ((offset / sbi.blockSize + 1) * sbi.blockSize) last
      else
        let buf := readAt (pb * sbi.blockSize) sbi.blockSize d
        match scanBlock buf sbi.blockSize need limit sbi.blockSize (offset % sbi.blockSize)
            offset 0 0 with
        | .slot off => .slot buf pb off
        | .bad => .bad
        | .done offset lastOff lastOffset =>
          scanDir raw d need limit fuel offset (some ⟨buf, pb, lastOff, lastOffset⟩)

/-- A new extent, or a longer last one. -/
def appendExtent (raw : RawInode) (lb pb : ℕ) : RawInode :=
  let w := raw.iBlock
  let n := ehEntries w
  let last := extentAt w (n - 1)
  if 0 < n ∧ (last.eeBlock + last.eeLen) % 2 ^ 32 = lb ∧ (last.eeStart + last.eeLen) % 2 ^ 32 = pb then
    raw.setBlock (4 + 3 * (n - 1))
      ((last.eeLen + 1) % 2 ^ 16 + w (4 + 3 * (n - 1)) / 2 ^ 16 * 2 ^ 16)
  else
    (((raw.setBlock 0 (ehMagic w + (n + 1) % 2 ^ 16 * 2 ^ 16)).setBlock (3 + 3 * n) lb).setBlock
      (4 + 3 * n) (1 + pb / 2 ^ 16 * 2 ^ 16)).setBlock (5 + 3 * n) pb

/-- `ext4_append_block_to_inode`, where `none` stands for `-ENOSPC`. -/
def appendBlockToInode (raw : RawInode) (lb pb : ℕ) : Option RawInode :=
  if raw.extents then
    if ehMagic raw.iBlock ≠ extentMagic ∨ ehDepth raw.iBlock ≠ 0 then none
    else if ehMax raw.iBlock ≤ ehEntries raw.iBlock then none
    else some (appendExtent raw lb pb)
  else if directBlocks ≤ lb then none
  else some (raw.setBlock lb pb)

/-- A block with a single entry. -/
def singleEntry (ino : ℕ) (name : List UInt8) (fileType : ℕ) : List UInt8 :=
  storeRecLen 0 sbi.blockSize (storeEntry 0 ino name fileType (List.replicate sbi.blockSize 0))

def Inode.setSize (size : ℕ) (raw : RawInode) : Inode := ⟨size, { raw with iSize := size }⟩

/-- A new block at the end of the directory. -/
def addBlock (dir : Inode) (ino : ℕ) (name : List UInt8) (fileType : ℕ) (s : Fs) : ℤ × Inode × Fs :=
  let r := allocBlock sbi s
  if r.1 = 0 then (-enospc, dir, r.2)
  else
    match appendBlockToInode dir.raw (dir.iSize / sbi.blockSize % 2 ^ 32) r.1 with
    | none => (-enospc, dir, r.2)
    | some raw =>
      (0, .setSize (dir.iSize + sbi.blockSize) raw,
        { r.2 with
          disk := writeAt (r.1 * sbi.blockSize) (singleEntry sbi ino name fileType) r.2.disk })

/-- The first block of the directory. -/
def addFirst (dir : Inode) (ino : ℕ) (name : List UInt8) (fileType : ℕ) (s : Fs) : ℤ × Inode × Fs :=
  let entry := singleEntry sbi ino name fileType
  let pb := dir.raw.iBlock 0
  if pb = 0 then
    let r := allocBlock sbi s
    if r.1 = 0 then (-enospc, dir, r.2)
    else
      (0, .setSize sbi.blockSize (dir.raw.setBlock 0 r.1),
        { r.2 with disk := writeAt (r.1 * sbi.blockSize) entry r.2.disk })
  else (0, .setSize sbi.blockSize dir.raw,
    { s with disk := writeAt (pb * sbi.blockSize) entry s.disk })

/-- The new entry behind the last one, or in a new block if there is no space. -/
def addBehind (dir : Inode) (ino : ℕ) (name : List UInt8) (fileType : ℕ) (last : LastEntry)
    (s : Fs) : ℤ × Inode × Fs :=
  let actual := recLenFor (deNameLen last.buf last.off)
  let recLen := deRecLen last.buf last.off
  if recLen < actual then (-eio, dir, s)
  else
    let remain := recLen - actual
    if recLenFor name.length ≤ remain then
      let off := last.off + actual
      let buf := storeEntry off ino name fileType
        (storeRecLen off remain (storeRecLen last.off actual last.buf))
      let s := { s with disk := writeAt (last.phys * sbi.blockSize) buf s.disk }
      let size := last.offset + actual + remain
      if dir.iSize < size then (0, .setSize size dir.raw, s) else (0, dir, s)
    else addBlock sbi dir ino name fileType s

/-- `ext4_add_dir_entry`. -/
def addDirEntry (dir : Inode) (ino : ℕ) (name : List UInt8) (fileType : ℕ) (s : Fs) :
    ℤ × Inode × Fs :=
  let limit := if dir.iSize = 0 then sbi.blockSize else dir.iSize
  match scanDir sbi dir.raw s.disk (recLenFor name.length) limit limit 0 none with
  | .bad => (-eio, dir, s)
  | .slot buf phys off =>
    (0, dir, { s with
      disk := writeAt (phys * sbi.blockSize) (storeEntry off ino name fileType buf) s.disk })
  | .done (some last) => addBehind sbi dir ino name fileType last s
  | .done none => addFirst sbi dir ino name fileType s

/-! ## Removing an entry -/

/-- The loop of `ext4_unlink` over the entries, with whether the name has been found and whether an
entry has been changed. -/
def unlinkLoop (name : List UInt8) (size : ℕ) :
    ℕ → ℕ → List UInt8 → Bool → Bool → List UInt8 × Bool × Bool
  | 0, _, buf, found, modified => (buf, found, modified)
  | fuel + 1, off, buf, found, modified =>
    if size ≤ off then (buf, found, modified)
    else if deRecLen buf off = 0 then (buf, found, modified)
    else
      let next := off + deRecLen buf off
      if deMatches buf off name then
        if deInode buf off ≠ 0 then
          unlinkLoop name size fuel next (patch off (toBytes 4 0) buf) true true
        else unlinkLoop name size fuel next buf true modified
      else unlinkLoop name size fuel next buf found modified

/-- The blocks of the directory are written back. -/
def writeBack (raw : RawInode) (buf : List UInt8) : List ℕ → Disk UInt8 → Disk UInt8
  | [], d => d
  | lb :: lbs, d =>
    let pb := getFileBlock sbi raw lb d
    if pb = 0 ∨ pb = noBlock then writeBack raw buf lbs d
    else
      writeBack raw buf lbs
        (writeAt (pb * sbi.blockSize) ((buf.drop (lb * sbi.blockSize)).take sbi.blockSize) d)

/-- `ext4_unlink`. The size of its buffer is a register of 32 bits. -/
def unlink (dir : Inode) (name : List UInt8) (s : Fs) : Outcome (ℤ × Fs) :=
  let size := if dir.iSize < sbi.blockSize then sbi.blockSize else dir.iSize % 2 ^ 32
  if size = 0 then .ok (-enomem, s)
  else
    match readData sbi dir.raw 0 dir.iSize s.disk with
    | .error e => .ok (e, s)
    | .ok read =>
      if size < read.length then .error .wild
      else
        let r := unlinkLoop name dir.iSize dir.iSize 0 (filled size read) false false
        if r.2.1 = false then .ok (-enoent, s)
        else if r.2.2 then
          let blocks := (dir.iSize + sbi.blockSize - 1) / sbi.blockSize
          .ok (0, { s with disk := writeBack sbi dir.raw r.1 (List.range blocks) s.disk })
        else .ok (0, s)

/-! ## Listing -/

def deFileType (buf : List UInt8) (off : ℕ) : ℕ := field 1 (off + 7) buf

/-- `struct dirent`, without the length of the record, which is always the same. -/
structure Dirent where
  dIno : ℕ
  dOff : ℕ
  dType : ℕ
  dName : List UInt8
deriving DecidableEq, Repr

/-- `sizeof(struct dirent)`. -/
abbrev recordSize : ℕ := 280

/-- The loop of `ext4_readdir`: the records that it stores, and the offset at which it ends. -/
def readdirLoop (buf : List UInt8) (limit count : ℕ) : ℕ → ℕ → ℕ → List Dirent × ℕ
  | 0, off, _ => ([], off)
  | fuel + 1, off, written =>
    if limit ≤ off ∨ count < written + recordSize then ([], off)
    else if deRecLen buf off = 0 then ([], off)
    else
      let next := off + deRecLen buf off
      if deInode buf off = 0 ∨ deNameLen buf off = 0 then readdirLoop buf limit count fuel
        next written
      else
        let name := (buf.drop (off + direntSize)).take (deNameLen buf off)
        let r := readdirLoop buf limit count fuel next (written + recordSize)
        (⟨deInode buf off, next, deFileType buf off, name⟩ :: r.1, r.2)

/-- `ext4_readdir`. -/
def readdir (dir : Inode) (noMemory : Bool) (pos count : ℕ) (d : Disk UInt8) :
    Except ℤ (List Dirent × ℕ) :=
  if dir.iSize ≤ pos then .ok ([], pos)
  else if noMemory then .error (-enomem)
  else do
    let read ← readData sbi dir.raw 0 dir.iSize d
    return readdirLoop (filled (max 4096 dir.iSize) read) dir.iSize count dir.iSize pos 0

/-- From the types of ext4 to those of `linux_dirent64`. -/
def linuxType : ℕ → ℕ
  | 1 => 8
  | 2 => 4
  | 7 => 10
  | _ => 0

/-- The bytes of a `linux_dirent64`. -/
def linuxDirent (de : Dirent) : List UInt8 :=
  let reclen := (19 + de.dName.length + 1 + 7) / 8 * 8
  let fields := toBytes 8 de.dIno ++ toBytes 8 de.dOff ++ toBytes 2 reclen ++
    toBytes 1 (linuxType de.dType) ++ de.dName
  fields ++ List.replicate (reclen - fields.length) 0

/-- The loop of `sys_getdents`. A name ends before its first zero. -/
def convertRecords (count : ℕ) : List Dirent → ℕ → List UInt8
  | [], _ => []
  | de :: kd, written =>
    let record := linuxDirent { de with dName := de.dName.takeWhile (· ≠ 0) }
    if count < written + record.length then []
    else record ++ convertRecords count kd (written + record.length)

/-- What fails in `sys_getdents`: one of three allocations, or the copy to the user. -/
inductive GetdentsFault where
  | records
  | contents
  | output
  | copy
deriving DecidableEq, Repr

structure GetdentsCall where
  count : ℕ
  fault : Option GetdentsFault
deriving DecidableEq, Repr

/-- `sys_getdents` for an open directory, with the bytes for the user and the new position. -/
def sysGetdents (dir : Inode) (d : Disk UInt8) (c : GetdentsCall) (pos : ℕ) :
    Except ℤ (List UInt8) × ℕ :=
  -- `kzalloc(0)` is `NULL` as well
  if c.fault = some .records ∨ c.count = 0 then (.error (-enomem), pos)
  else
    match readdir sbi dir (c.fault = some .contents) pos (min c.count 4096) d with
    | .error e => (.error e, pos)
    | .ok ([], pos) => (.ok [], pos)
    | .ok (kd, pos) =>
      if c.fault = some .output then (.error (-enomem), pos)
      else
        let out := convertRecords c.count kd 0
        if out ≠ [] ∧ c.fault = some .copy then (.error (-efault), pos) else (.ok out, pos)

/-- Calls one after the other, with what each returns. -/
def getdentsCalls (dir : Inode) (d : Disk UInt8) : ℕ → List GetdentsCall →
    List (Except ℤ (List UInt8))
  | _, [] => []
  | pos, c :: calls =>
    let r := sysGetdents sbi dir d c pos
    r.1 :: getdentsCalls dir d r.2 calls

/-! ## Renaming -/

abbrev ftRegFile : ℕ := 1
abbrev ftDir : ℕ := 2

/-- How `ext4_rename` gets the inode that has the new name already: `inode_get` finds no memory, or
`ext4_read_inode` fails for a number that is too large. -/
inductive Existing where
  | found
  | noMemory
  | noEntry
deriving DecidableEq, Repr

/-- The allocations of `ext4_rename` that fail: the buffers for the lookup, for the two removals and
for the new entry. -/
structure RenameFaults where
  lookup : Bool
  existing : Existing
  unlinkNew : Bool
  add : Bool
  unlinkOld : Bool
deriving DecidableEq, Repr

/-- The part of `ext4_rename` behind the removal of the new name. -/
def renameTail (f : RenameFaults) (dir : Inode) (ino : ℕ) (isDir : Bool) (old new : List UInt8)
    (s : Fs) : Outcome (ℤ × Inode × Fs) :=
  let r := if f.add then (-enomem, dir, s)
    else addDirEntry sbi dir ino new (if isDir then ftDir else ftRegFile) s
  if r.1 < 0 then .ok r
  else do
    let (v, s) ← if f.unlinkOld then .ok (-enomem, r.2.2) else unlink sbi r.2.1 old r.2.2
    return (if v < 0 then v else 0, r.2.1, s)

/-- The part of `ext4_rename` for a new name that is there. Without memory `ext4_alloc_inode` returns
`NULL`, and `inode_get` writes through it. -/
def renameOver (f : RenameFaults) (dir : Inode) (ino : ℕ) (isDir : Bool) (old new : List UInt8)
    (s : Fs) : Outcome (ℤ × Inode × Fs) :=
  match f.existing with
  | .noMemory => .error .wild
  | .noEntry => .ok (-enoent, dir, s)
  | .found => do
      let (v, s) ← if f.unlinkNew then .ok (-enomem, s) else unlink sbi dir new s
      if v < 0 then return (v, dir, s)
      else renameTail sbi f dir ino isDir old new s

/-- `ext4_rename` within a directory, for the inode number `ino` of the old dentry. -/
def rename (f : RenameFaults) (dir : Inode) (ino : ℕ) (isDir : Bool) (old new : List UInt8)
    (s : Fs) : Outcome (ℤ × Inode × Fs) :=
  let existing := if f.lookup then 0 else dirLookup sbi dir.raw new s.disk
  if existing = 0 then renameTail sbi f dir ino isDir old new s
  else renameOver sbi f dir ino isDir old new s

/-- The calls that change a directory. -/
inductive DirOp where
  | add (ino : ℕ) (name : List UInt8) (fileType : ℕ)
  | unlink (name : List UInt8)
deriving DecidableEq

def DirOp.run (dir : Inode) (s : Fs) : DirOp → Outcome (ℤ × Inode × Fs)
  | .add ino name fileType => .ok (addDirEntry sbi dir ino name fileType s)
  | .unlink name => do
      let (r, s) ← Ext4.unlink sbi dir name s
      return (r, dir, s)

end NoobKernel.Ext4
