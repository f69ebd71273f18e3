import NoobKernel.Model.Namei

/-! # The tree of names

The calls that make, remove and rename files and directories, over the directories of one file
system. A directory is the list of its entries. The fields of a dentry that are read here do not
change, so a dentry is a value: its parent, its name and the number of its inode. It is not freed
while it is in use: the references that a walk over `..` loses are left out. No allocation of
kernel memory and no access to the device fails, and nothing is mounted. -/

namespace NoobKernel

open Library

namespace Vfs

open Exec (getName skipSlashes slash dot Err)

abbrev Name := List ℕ

inductive Dentry where
  | root (ino : ℕ)
  | child (parent : Dentry) (name : Name) (ino : ℕ)
deriving DecidableEq, Repr

/-- `d_inode->i_ino`. -/
def Dentry.ino : Dentry → ℕ
  | .root ino => ino
  | .child _ _ ino => ino

/-- `d_parent`. The parent of the root is the root. -/
def Dentry.parent : Dentry → Dentry
  | .root ino => .root ino
  | .child parent _ _ => parent

def Dentry.name : Dentry → Name
  | .root _ => [slash]
  | .child _ name _ => name

/-! ## Directories -/

/-- What an inode is. -/
inductive Node where
  | file
  | dir (entries : List (Name × ℕ))
deriving DecidableEq, Repr

/-- The inodes that are in use. -/
abbrev Nodes := ℕ → Option Node

def isDir (ino : ℕ) (fs : Nodes) : Bool :=
  match fs ino with
  | some (.dir _) => true
  | _ => false

def entries (ino : ℕ) (fs : Nodes) : List (Name × ℕ) :=
  match fs ino with
  | some (.dir es) => es
  | _ => []

/-- `ext4_dir_lookup`: the first entry with a name. -/
def dirLookup (name : Name) (es : List (Name × ℕ)) : ℕ := ((es.find? (·.1 = name)).map (·.2)).getD 0

/-- `ext4_add_dir_entry`, where `pos` tells how many entries lie before the new one. -/
def addEntry (pos : ℕ) (name : Name) (ino : ℕ) (es : List (Name × ℕ)) : List (Name × ℕ) :=
  es.take pos ++ (name, ino) :: es.drop pos

def without (name : Name) (es : List (Name × ℕ)) : List (Name × ℕ) := es.filter (·.1 ≠ name)

/-- `ext4_unlink`. It also finds an entry that has been removed before; `stale` tells whether one
with the name is left. -/
def removeEntry (stale : Bool) (name : Name) (es : List (Name × ℕ)) :
    Except ℤ (List (Name × ℕ)) :=
  if es.any (·.1 = name) || stale then .ok (without name es) else .error (-enoent)

def setEntries (ino : ℕ) (f : List (Name × ℕ) → List (Name × ℕ)) (fs : Nodes) : Nodes :=
  Function.update fs ino (some (.dir (f (entries ino fs))))

/-! ## Paths -/

/-- The components of a path. A component ends after `NAME_MAX` bytes. -/
def componentsLoop : ℕ → List ℕ → List Name
  | 0, _ => []
  | fuel + 1, path =>
    if path = [] then []
    else getName path :: componentsLoop fuel (skipSlashes (path.drop (getName path).length))

def components (path : List ℕ) : List Name :=
  componentsLoop (skipSlashes path).length (skipSlashes path)

/-- `vfs_lookup_single`, which makes a dentry for the inode that `ext4_lookup` finds. -/
def lookupSingle (d : Dentry) (name : Name) (fs : Nodes) : Except ℤ Dentry :=
  if !isDir d.ino fs then .error (-enotdir)
  else
    let ino := dirLookup name (entries d.ino fs)
    if ino = 0 then .error (-enoent) else .ok (.child d name ino)

/-- One component of a walk. -/
def walkName (d : Dentry) (name : Name) (fs : Nodes) : Except ℤ Dentry :=
  if name = [dot] then .ok d
  else if name = [dot, dot] then .ok d.parent
  else lookupSingle d name fs

/-- The loop of `vfs_path_walk`. -/
def pathWalk (fs : Nodes) : List Name → Dentry → Except ℤ Dentry
  | [], d => .ok d
  | name :: rest, d => do
      let d ← walkName d name fs
      if rest ≠ [] ∧ !isDir d.ino fs then .error (-enotdir) else pathWalk fs rest d

/-- `vfs_path_lookup`. -/
def pathLookup (base : Dentry) (path : List ℕ) (fs : Nodes) : Except ℤ Dentry :=
  pathWalk fs (components path) base

/-- The loop of `vfs_path_parent`, with the last component. -/
def parentLoop (fs : Nodes) : List Name → Dentry → Except ℤ (Dentry × Name)
  | [], d => .ok (d, [])
  | [name], d => .ok (d, name)
  | name :: rest, d => do
      let d ← lookupSingle d name fs
      parentLoop fs rest d

/-- `vfs_path_parent`. -/
def pathParent (base : Dentry) (path : List ℕ) (fs : Nodes) : Except ℤ (Dentry × Name) :=
  parentLoop fs (components path) base

/-! ## Calls -/

/-- The end of the calls that make something, with a free inode. -/
def makeIn (base : Dentry) (path : List ℕ) (pos ino : ℕ) (node : ℕ → Node) (fs : Nodes) :
    Except ℤ Nodes := do
  let (parent, last) ← pathParent base path fs
  if !isDir parent.ino fs then .error (-enotdir)
  else if ino = 0 ∨ fs ino ≠ none then .error (-enospc)
  else
    .ok (setEntries parent.ino (addEntry pos last ino)
      (Function.update fs ino (some (node parent.ino))))

/-- `vfs_create`, where any failure of the lookup means that there is no such file. -/
def vfsCreate (base : Dentry) (path : List ℕ) (pos ino : ℕ) (fs : Nodes) : Except ℤ Nodes :=
  match pathLookup base path fs with
  | .ok _ => .error (-eexist)
  | .error _ => makeIn base path pos ino (fun _ => .file) fs

/-- `vfs_open_cwd` with `O_CREAT`. -/
def vfsOpenCreate (base : Dentry) (path : List ℕ) (pos ino : ℕ) (fs : Nodes) : Except ℤ Nodes :=
  match pathLookup base path fs with
  | .ok _ => .ok fs
  | .error e => if e = -enoent then makeIn base path pos ino (fun _ => .file) fs else .error e

/-- The entries that `ext4_mkdir` writes. -/
def newDir (ino parent : ℕ) : Node := .dir [([dot], ino), ([dot, dot], parent)]

/-- `vfs_mkdir_cwd`. -/
def vfsMkdir (base : Dentry) (path : List ℕ) (pos ino : ℕ) (fs : Nodes) : Except ℤ Nodes :=
  match pathLookup base path fs with
  | .ok _ => .error (-eexist)
  | .error _ => makeIn base path pos ino (newDir ino) fs

/-- The end of `vfs_unlink_cwd` and `vfs_rmdir_cwd`. -/
def removeDentry (stale : Bool) (d : Dentry) (fs : Nodes) : Except ℤ Nodes :=
  if !isDir d.parent.ino fs then .error (-enosys)
  else do
    let es ← removeEntry stale d.name (entries d.parent.ino fs)
    .ok (setEntries d.parent.ino (fun _ => es) fs)

/-- `vfs_unlink_cwd`. -/
def vfsUnlink (base : Dentry) (path : List ℕ) (stale : Bool) (fs : Nodes) : Except ℤ Nodes := do
  let d ← pathLookup base path fs
  if isDir d.ino fs then .error (-eisdir) else removeDentry stale d fs

/-- `vfs_rmdir_cwd`. What is in the directory is not looked at. -/
def vfsRmdir (base : Dentry) (path : List ℕ) (stale : Bool) (fs : Nodes) : Except ℤ Nodes := do
  let d ← pathLookup base path fs
  if !isDir d.ino fs then .error (-enotdir) else removeDentry stale d fs

/-- `ext4_rename` removes the new name, adds it for the inode of the old one and removes the old
name. -/
def renameEntry (pos : ℕ) (stale : Bool) (old new : Name) (ino : ℕ) (es : List (Name × ℕ)) :
    Except ℤ (List (Name × ℕ)) := do
  let es ← (if dirLookup new es ≠ 0 then removeEntry false new es else .ok es)
  removeEntry stale old (addEntry pos new ino es)

/-- `vfs_rename_cwd`. -/
def vfsRename (oldBase : Dentry) (oldPath : List ℕ) (newBase : Dentry) (newPath : List ℕ) (pos : ℕ)
    (stale : Bool) (fs : Nodes) : Except ℤ Nodes := do
  let old ← pathLookup oldBase oldPath fs
  let (parent, last) ← pathParent newBase newPath fs
  if !isDir parent.ino fs then .error (-enotdir)
  else if !isDir old.parent.ino fs then .error (-enosys)
  else if old.parent.ino ≠ parent.ino then .error (-exdev)
  else do
    let es ← renameEntry pos stale old.name last old.ino (entries parent.ino fs)
    .ok (setEntries parent.ino (fun _ => es) fs)

inductive Call where
  | chdir (base : Dentry) (path : List ℕ)
  | create (base : Dentry) (path : List ℕ) (pos ino : ℕ)
  | openCreate (base : Dentry) (path : List ℕ) (pos ino : ℕ)
  | mkdir (base : Dentry) (path : List ℕ) (pos ino : ℕ)
  | unlink (base : Dentry) (path : List ℕ) (stale : Bool)
  | rmdir (base : Dentry) (path : List ℕ) (stale : Bool)
  | rename (oldBase : Dentry) (oldPath : List ℕ) (newBase : Dentry) (newPath : List ℕ) (pos : ℕ)
      (stale : Bool)
deriving DecidableEq, Repr

/-- The dentries that a call starts from. -/
def Call.bases : Call → List Dentry
  | .chdir base _ => [base]
  | .create base _ _ _ => [base]
  | .openCreate base _ _ _ => [base]
  | .mkdir base _ _ _ => [base]
  | .unlink base _ _ => [base]
  | .rmdir base _ _ => [base]
  | .rename oldBase _ newBase _ _ _ => [oldBase, newBase]

/-- The inodes, and the dentries that have been the current directory of a process. -/
structure State where
  fs : Nodes
  cwds : List Dentry

/-- `sys_chdir`. -/
def sysChdir (base : Dentry) (path : List ℕ) (s : State) : Except ℤ State := do
  let d ← pathLookup base path s.fs
  if !isDir d.ino s.fs then .error (-enotdir) else .ok { s with cwds := d :: s.cwds }

/-- The state after a call that succeeds. -/
def Call.run (s : State) : Call → Except ℤ State
  | .chdir base path => sysChdir base path s
  | .create base path pos ino => return { s with fs := ← vfsCreate base path pos ino s.fs }
  | .openCreate base path pos ino => return { s with fs := ← vfsOpenCreate base path pos ino s.fs }
  | .mkdir base path pos ino => return { s with fs := ← vfsMkdir base path pos ino s.fs }
  | .unlink base path stale => return { s with fs := ← vfsUnlink base path stale s.fs }
  | .rmdir base path stale => return { s with fs := ← vfsRmdir base path stale s.fs }
  | .rename oldBase oldPath newBase newPath pos stale =>
    return { s with fs := ← vfsRename oldBase oldPath newBase newPath pos stale s.fs }

/-- The inodes that a successful call makes. -/
def Call.creates (s : State) : Call → List ℕ
  | .create _ _ _ ino => [ino]
  | .openCreate base path _ ino =>
    match pathLookup base path s.fs with
    | .ok _ => []
    | .error _ => [ino]
  | .mkdir _ _ _ ino => [ino]
  | _ => []

/-- The inodes that a successful call names for removal, or overwrites. -/
def Call.removes (s : State) : Call → List ℕ
  | .unlink base path _ => ((pathLookup base path s.fs).toOption.map Dentry.ino).toList
  | .rmdir base path _ => ((pathLookup base path s.fs).toOption.map Dentry.ino).toList
  | .rename _ _ newBase newPath _ _ =>
    ((pathParent newBase newPath s.fs).toOption.map fun r =>
      dirLookup r.2 (entries r.1.ino s.fs)).toList
  | _ => []

/-- `EXT4_ROOT_INO`. -/
abbrev rootIno : ℕ := 2

def rootDentry : Dentry := .root rootIno

/-- The runs of calls that succeed and satisfy `Ok`, from the file system `fs`, with the inodes that
have been created and those that have been removed or overwritten. -/
inductive Run (Ok : Call → State → Prop) (fs : Nodes) : State → List ℕ → List ℕ → Prop
  | boot : Run Ok fs ⟨fs, [rootDentry]⟩ [] []
  | call {s s' : State} {created removed : List ℕ} (c : Call) (hrun : Run Ok fs s created removed)
      (hbases : ∀ d ∈ c.bases, d ∈ s.cwds) (hok : Ok c s) (hstep : c.run s = .ok s') :
      Run Ok fs s' (c.creates s ++ created) (c.removes s ++ removed)

end Vfs

/-! ## Current directories

`sys_chdir` and `sys_getcwd` over several file systems. A dentry is a value with the address it
lies at, so that two dentries for one name are the same only if one lookup has found them both.
Which address a lookup returns, that of a new dentry or that of one in the cache, is given from
outside. No allocation and no access to a device fails. -/

namespace Cwd

open Exec (slash dot)
open Vfs (Name Nodes isDir entries dirLookup components rootIno)

/-- A dentry; a file system has one for its root. -/
inductive Dentry where
  | root (sb : ℕ)
  | child (addr : ℕ) (parent : Dentry) (name : Name) (ino : ℕ)
deriving DecidableEq, Repr

/-- `d_sb`. -/
def Dentry.sb : Dentry → ℕ
  | .root sb => sb
  | .child _ parent _ _ => parent.sb

def Dentry.ino : Dentry → ℕ
  | .root _ => rootIno
  | .child _ _ _ ino => ino

/-- `d_inode`. -/
def Dentry.inode (d : Dentry) : ℕ × ℕ := (d.sb, d.ino)

/-- `d_parent`. The parent of a root is this root, also where it is mounted. -/
def Dentry.parent : Dentry → Dentry
  | .root sb => .root sb
  | .child _ parent _ _ => parent

def Dentry.name : Dentry → Name
  | .root _ => [slash]
  | .child _ _ name _ => name

/-- `struct mount`. -/
structure Mount where
  mountpoint : Dentry
  sb : ℕ
deriving DecidableEq, Repr

/-- The inodes of each file system, the file system of the root and the list of mounts. -/
structure Namespace where
  fs : ℕ → Nodes
  rootSb : ℕ
  mounts : List Mount

/-- `vfs_get_root`. -/
def vfsGetRoot (ns : Namespace) : Dentry := .root ns.rootSb

def isDirectory (d : Dentry) (ns : Namespace) : Bool := isDir d.ino (ns.fs d.sb)

/-- `vfs_lookup_mount`, which compares the addresses of the parents. -/
def vfsLookupMount (d : Dentry) (ns : Namespace) : Option Mount :=
  ns.mounts.find? fun m => m.mountpoint.parent = d.parent ∧ m.mountpoint.name = d.name

/-- `follow_mount`. -/
def followMount (d : Dentry) (ns : Namespace) : Dentry :=
  match vfsLookupMount d ns with
  | some mnt => .root mnt.sb
  | none => d

/-- The addresses that lookups of names in directories return. -/
abbrev Addresses := Dentry → Name → ℕ

/-- The inode that `ext4_lookup` finds. -/
def lookupIno (d : Dentry) (name : Name) (ns : Namespace) : ℕ :=
  dirLookup name (entries d.ino (ns.fs d.sb))

/-- `vfs_lookup_single`. -/
def lookupSingle (addr : Addresses) (base : Dentry) (name : Name) (ns : Namespace) :
    Except ℤ Dentry :=
  let base := followMount base ns
  if !isDirectory base ns then .error (-enotdir)
  else if lookupIno base name ns = 0 then .error (-enoent)
  else .ok (.child (addr base name) base name (lookupIno base name ns))

/-- One component of a walk. -/
def walkName (addr : Addresses) (d : Dentry) (name : Name) (ns : Namespace) : Except ℤ Dentry :=
  if name = [dot] then .ok d
  else if name = [dot, dot] then .ok d.parent
  else do
    let next ← lookupSingle addr d name ns
    return followMount next ns

/-- The loop of `vfs_path_walk`. -/
def pathWalk (addr : Addresses) (ns : Namespace) : List Name → Dentry → Except ℤ Dentry
  | [], d => .ok d
  | name :: rest, d => do
      let d ← walkName addr d name ns
      if rest ≠ [] ∧ !isDirectory d ns then .error (-enotdir) else pathWalk addr ns rest d

/-- `vfs_path_lookup`. -/
def pathLookup (addr : Addresses) (base : Dentry) (path : List ℕ) (ns : Namespace) :
    Except ℤ Dentry :=
  pathWalk addr ns (components path) base

/-- The buffers for paths on the kernel's stack. -/
abbrev pathSize : ℕ := 256

/-- `sys_chdir` of a string in user memory. Its result is the new current directory. -/
def sysChdir (addr : Addresses) (pwd : Dentry) (path : List ℕ) (ns : Namespace) :
    Except ℤ Dentry := do
  if pathSize ≤ path.length then .error (-efault)
  else
    let base := if path.head? = some slash then vfsGetRoot ns else pwd
    let d ← pathLookup addr base path ns
    if !isDirectory d ns then .error (-enotdir) else .ok d

/-- The array `stack` of `sys_getcwd`, which has 32 places. -/
abbrev stackSize : ℕ := 32

/-- The loop that fills it: from a dentry up to the root. -/
def stackLoop (root : Dentry) : ℕ → Dentry → List Dentry
  | 0, _ => []
  | fuel + 1, d => if d = root then [] else d :: stackLoop root fuel d.parent

/-- One round of the loop that writes the path. -/
def appendName (path : List ℕ) (name : Name) : List ℕ :=
  let path := if path.length < pathSize - 1 then path ++ [slash] else path
  path ++ name.take (pathSize - 1 - path.length)

/-- The path that `sys_getcwd` makes. -/
def cwdPath (d : Dentry) (ns : Namespace) : List ℕ :=
  let stack := stackLoop (vfsGetRoot ns) stackSize d
  let path := (stack.reverse.map Dentry.name).foldl appendName []
  if path = [] then [slash] else path

/-- `sys_getcwd`, with the bytes that `copyout` stores from `buf` on. There are `mapped` bytes
before the first page that is not mapped. The size of the buffer is not looked at. -/
def sysGetcwd (buf _size mapped : ℕ) (pwd : Option Dentry) (ns : Namespace) : Except ℤ ℕ × List ℕ :=
  match pwd with
  | none => (.error (-enoent), [])
  | some d =>
    let bytes := cwdPath d ns ++ [0]
    if mapped < bytes.length then (.error (-efault), bytes.take mapped) else (.ok buf, bytes)

end Cwd

end NoobKernel
