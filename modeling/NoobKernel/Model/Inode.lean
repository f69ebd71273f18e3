import NoobKernel.Model.Hashtable

/-! # The inode cache

The inodes of ext4 file systems. Each function runs under the lock of the cache as far as it
changes the table. The list of all inodes and the fields of an inode other than its file system,
number and references are not read by the functions and are left out. -/

namespace NoobKernel

open Library

namespace Icache

structure Inode where
  sb : Ptr
  ino : BitVec 64
  refcnt : BitVec 32
deriving DecidableEq, Repr

/-- `inode_state`, the inodes that are not freed, and the mounted super blocks with the operations
of ext4. -/
structure State where
  ht : Hashtable
  inode : Ptr → Option Inode
  ext4 : Ptr → Bool

/-- `inode_init`. -/
abbrev buckets : ℕ := 64

/-- The number of the root directory of an ext4 file system. -/
abbrev rootIno : BitVec 64 := 2

def setInode (i : Ptr) (x : Option Inode) (s : State) : State :=
  { s with inode := Function.update s.inode i x }

/-- The memory at `i` can be allocated. -/
def Room (room : Bool) (i : Ptr) (s : State) : Prop := room = true ∧ i ≠ 0 ∧ s.inode i = none

instance (room : Bool) (i : Ptr) (s : State) : Decidable (Room room i s) :=
  inferInstanceAs (Decidable (_ ∧ _))

/-- `inode_alloc` for ext4 returns `NULL` when there is no memory. -/
def inodeAlloc (room : Bool) (i sb : Ptr) (s : State) : Option Ptr × State :=
  if Room room i s then (some i, setInode i (some ⟨sb, 0, 1⟩) s) else (none, s)

/-- `inode_free`. The operation `destroy_inode` of ext4 frees the memory and nothing else. -/
def inodeFree (i : Ptr) (s : State) : Outcome State :=
  match s.inode i with
  | none => .error .wild
  | some x =>
    if s.ext4 x.sb then .ok (setInode i none s)
    else .ok (setInode i none { s with ht := (hashtableDelete x.ino s.ht).2 })

/-- `inode_get`. The key of an inode is its number. `NULL` from `inode_alloc` is not seen to be an
error, nor is the result of `hashtable_insert` looked at. -/
def inodeGet (room node : Bool) (new sb : Ptr) (ino : BitVec 64) (s : State) :
    Outcome (Ptr × State) :=
  match hashtableLookup ino s.ht with
  | some i =>
    match s.inode i with
    | none => .error .wild
    | some x => .ok (i, setInode i (some { x with refcnt := x.refcnt + 1 }) s)
  | none =>
    match inodeAlloc room new sb s with
    | (none, _) => .error .wild
    | (some i, s) =>
      .ok (i, setInode i (some ⟨sb, ino, 1⟩) { s with ht := (hashtableInsert node ino i s.ht).2 })

def inodePut (i : Ptr) (s : State) : Outcome State :=
  if i = 0 then .ok s
  else
    match s.inode i with
    | none => .error .wild
    | some x =>
      let s := setInode i (some { x with refcnt := x.refcnt - 1 }) s
      if x.refcnt - 1 = 0 then inodeFree i s else .ok s

/-- What the rest of the kernel answers during a mount: the address of the super block and of the
root inode, whether there is memory for them, and whether `ext4_fill_super`, `ext4_read_inode` and
`dentry_root` succeed. -/
structure MountAnswer where
  sb : Ptr
  root : Ptr
  super : Bool
  fill : Bool
  room : Bool
  read : Bool
  dentry : Bool
deriving DecidableEq, Repr

def setExt4 (sb : Ptr) (mounted : Bool) (s : State) : State :=
  { s with ext4 := Function.update s.ext4 sb mounted }

/-- `ext4_mount`. The root inode is not put into the table. -/
def ext4Mount (ans : MountAnswer) (s : State) : Outcome (Option Ptr × State) :=
  if !ans.super || ans.sb = 0 || s.ext4 ans.sb then .ok (none, s)
  else
    let s := setExt4 ans.sb true s
    if !ans.fill then .ok (none, setExt4 ans.sb false s)
    else
      match inodeAlloc ans.room ans.root ans.sb s with
      | (none, s) => .ok (none, setExt4 ans.sb false s)
      | (some root, s) =>
        let s := setInode root (some ⟨ans.sb, rootIno, 1⟩) s
        if !ans.read || !ans.dentry then do
          let s ← inodeFree root s
          .ok (none, setExt4 ans.sb false s)
        else .ok (some ans.sb, s)

/-- `inode_init`, before a file system is mounted. -/
def inodeInit : State := ⟨hashtableInit buckets, fun _ => none, fun _ => false⟩

inductive Call where
  | get (room node : Bool) (new sb : Ptr) (ino : BitVec 64)
  | put (i : Ptr)
  | mount (ans : MountAnswer)
deriving DecidableEq, Repr

/-- The calls; `inode_get` is called for a mounted file system. -/
def step (call : Call) (s : State) : Outcome (Option Ptr × State) :=
  match call with
  | .get room node new sb ino =>
    if s.ext4 sb then (fun r => (some r.1, r.2)) <$> inodeGet room node new sb ino s
    else .ok (none, s)
  | .put i => (fun s => (none, s)) <$> inodePut i s
  | .mount ans => ext4Mount ans s

/-- The runs whose calls satisfy `Ok`. -/
inductive Run (Ok : Call → State → Prop) : State → Prop
  | init : Run Ok inodeInit
  | step {s s' : State} {r : Option Ptr} (call : Call) :
      Run Ok s → Ok call s → step call s = .ok (r, s') → Run Ok s'

end Icache

end NoobKernel
