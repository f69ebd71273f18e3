import NoobKernel.Model.Ext4Dir

/-! # Inodes in memory and on disk

What `ext4_write_file`, `ext4_add_dir_entry` and `ext4_mkdir` do to the inodes in memory, and what
becomes of an inode with its last reference. The inode table is kept apart from the other blocks.
Nothing calls `inode_write`, and so nothing calls `ext4_write_inode`. -/

namespace NoobKernel.Evict

open Ext4 Function Library

/-- An inode of the table. -/
structure DiskInode where
  raw : RawInode
  linksCount : ℕ

/-- An inode in memory, with its own copy of the inode on disk. -/
structure CoreInode where
  inode : Inode
  linksCount : ℕ
  nlink : ℕ
  refcnt : ℕ
  dirty : Bool

/-- The memory of the inodes `freed` has been freed. `inode_free` leaves them in the hash table. -/
structure State where
  table : ℕ → DiskInode
  core : ℕ → Option CoreInode
  freed : ℕ → Bool
  fs : Fs

/-- `ext4_read_inode` for an inode that `inode_get` has allocated. -/
def readInode (d : DiskInode) : CoreInode where
  inode := ⟨d.raw.iSize, d.raw⟩
  linksCount := d.linksCount
  nlink := d.linksCount
  refcnt := 1
  dirty := false

def setCore (ino : ℕ) (c : Option CoreInode) (s : State) : State :=
  { s with core := update s.core ino c }

/-- `inode_get`, and `ext4_read_inode` for a new inode. -/
def inodeGet (ino : ℕ) (s : State) : Outcome State :=
  if s.freed ino then .error .wild
  else
    match s.core ino with
    | some c => .ok (setCore ino (some { c with refcnt := c.refcnt + 1 }) s)
    | none => .ok (setCore ino (some (readInode (s.table ino))) s)

/-- `inode_put`. With the last reference `ext4_destroy_inode` frees the memory. -/
def inodePut (ino : ℕ) (s : State) : State :=
  match s.core ino with
  | none => s
  | some c =>
    if c.refcnt = 1 then { setCore ino none s with freed := update s.freed ino true }
    else setCore ino (some { c with refcnt := c.refcnt - 1 }) s

/-- What a call leaves in an inode that it marks with `inode_dirty` or not. -/
def CoreInode.store (inode : Inode) (mark : Bool) (c : CoreInode) : CoreInode :=
  { c with inode, dirty := c.dirty || mark }

variable (sbi : SbInfo)

def write (ino pos : ℕ) (src : List UInt8) (s : State) : State :=
  match s.core ino with
  | none => s
  | some c =>
    let r := writeFile sbi c.inode pos src s.fs
    setCore ino (some (c.store r.2.1 (decide (0 < r.1)))) { s with fs := r.2.2 }

def addEntry (dir ino : ℕ) (name : List UInt8) (fileType : ℕ) (s : State) : ℤ × State :=
  match s.core dir with
  | none => (-enoent, s)
  | some c =>
    let r := addDirEntry sbi c.inode ino name fileType s.fs
    (r.1, setCore dir (some (c.store r.2.1 (decide (r.1 = 0)))) { s with fs := r.2.2 })

/-- The block of a new directory. -/
def dotEntries (dir ino : ℕ) : List UInt8 :=
  storeRecLen 12 (sbi.blockSize - 12) (storeEntry 12 dir [46, 46] ftDir
    (storeRecLen 0 12 (storeEntry 0 ino [46] ftDir (List.replicate sbi.blockSize 0))))

/-- `ext4_mkdir` with the number that `ext4_alloc_inode_from_disk` returns, which no inode in memory
has. -/
def mkdir (dir ino : ℕ) (name : List UInt8) (s : State) : Outcome State :=
  if ino = 0 ∨ (s.core ino).isSome then .ok s
  else
    let r := allocBlock sbi s.fs
    if r.1 = 0 then .ok { s with fs := r.2 }
    else
      let disk := writeAt (r.1 * sbi.blockSize) (dotEntries sbi dir ino) r.2.disk
      let raw := RawInode.setBlock 0 r.1 ⟨sbi.blockSize, 0, fun _ => 0⟩
      let e := addEntry sbi dir ino name ftDir
        { s with table := update s.table ino ⟨raw, 1⟩, fs := { r.2 with disk } }
      if e.1 < 0 then .ok e.2
      else do
        let parent := (e.2.core dir).map fun c =>
          { c with linksCount := c.linksCount + 1, dirty := true }
        let s ← inodeGet ino (setCore dir parent e.2)
        return setCore ino ((s.core ino).map fun c => { c with nlink := 2 }) s

inductive Call where
  | get (ino : ℕ)
  | put (ino : ℕ)
  | write (ino pos : ℕ) (src : List UInt8)
  | addEntry (dir ino : ℕ) (name : List UInt8) (fileType : ℕ)
  | mkdir (dir ino : ℕ) (name : List UInt8)

def step (s : State) : Call → Outcome State
  | .get ino => inodeGet ino s
  | .put ino => .ok (inodePut ino s)
  | .write ino pos src => .ok (write sbi ino pos src s)
  | .addEntry dir ino name fileType => .ok (addEntry sbi dir ino name fileType s).2
  | .mkdir dir ino name => mkdir sbi dir ino name s

/-- The runs whose calls satisfy `Ok`. -/
inductive Run (Ok : Call → State → Prop) : State → Prop
  | mount (table : ℕ → DiskInode) (fs : Fs) : Run Ok ⟨table, fun _ => none, fun _ => false, fs⟩
  | step {s s' : State} (call : Call) :
      Run Ok s → Ok call s → step sbi s call = .ok s' → Run Ok s'

end NoobKernel.Evict
