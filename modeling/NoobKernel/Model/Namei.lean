import NoobKernel.Model.Life

/-! # Paths and open files

The walk of `vfs_path_lookup` over the components of a path, and `vfs_open_cwd` for reading,
with what they do to the references of dentries. Directories and the contents of files are given
from outside: as the answers of `vfs_lookup_single` and `file_open`, and as the bytes that each
read returns. -/

namespace NoobKernel

open Library

abbrev nameMax : ℕ := 255

namespace Exec

/-- Error pointers and results are negative. -/
abbrev Err := { e : ℤ // e < 0 }

theorem neg_enomem : -enomem < 0 := by decide

theorem neg_enotdir : -enotdir < 0 := by decide

/-- What a walk asks about dentries: whether one is a directory, its parent, and the root of a
file system that is mounted on it. -/
structure Namespace where
  isDir : ℕ → Bool
  parent : ℕ → ℕ
  mounted : ℕ → Option ℕ

/-- The bytes that a read returns, given how many reads came before it, its position and its
size. No bytes stand for an error. -/
abbrev Reads := ℕ → ℕ → ℕ → Option (List UInt8)

/-- The kernel with the future answers of `vfs_lookup_single` and of `file_open`. -/
structure State extends Life.Kernel where
  ns : Namespace
  lookups : List (Except Err ℕ)
  opens : List (Except Err (ℕ × Reads))

def dentryGet (d : ℕ) (s : State) : State := { s with toKernel := Life.dentryGet d s.toKernel }

def dentryPut (d : ℕ) (s : State) : State := { s with toKernel := Life.dentryPut d s.toKernel }

/-! ## Paths -/

abbrev slash : ℕ := 47
abbrev dot : ℕ := 46

/-- `vfs_skip_slashes`. -/
def skipSlashes (path : List ℕ) : List ℕ := path.dropWhile (· = slash)

/-- `vfs_get_name`. -/
def getName (path : List ℕ) : List ℕ := (path.take nameMax).takeWhile (· ≠ slash)

def followMount (d : ℕ) (s : State) : ℕ × State :=
  match s.ns.mounted d with
  | some root => (root, dentryGet root (dentryPut d s))
  | none => (d, s)

/-- `vfs_lookup_single`. The dentry that is found, in the cache or by the file system, has one
more reference. -/
def lookupSingle (base : ℕ) (s : State) : Except Err ℕ × State :=
  if s.ns.isDir ((s.ns.mounted base).getD base) = false then (.error ⟨-enotdir, neg_enotdir⟩, s)
  else
    match s.lookups with
    | [] => (.error ⟨-enoent, by decide⟩, s)
    | .error e :: lookups => (.error e, { s with lookups })
    | .ok d :: lookups => (.ok d, dentryGet d { s with lookups })

/-- One component of a path. -/
def walkName (name : List ℕ) (dentry : ℕ) (s : State) : Except Err ℕ × State :=
  if name = [dot] then (.ok dentry, s)
  else if name = [dot, dot] then (.ok (s.ns.parent dentry), s)
  else
    match lookupSingle dentry s with
    | (.error e, s) => (.error e, s)
    | (.ok next, s) =>
      let r := followMount next s
      (.ok r.1, dentryPut dentry r.2)

/-- The loop of `vfs_path_walk`; each of its `fuel` rounds reads a byte of the path at least. -/
def walkLoop : ℕ → List ℕ → ℕ → State → Except Err ℕ × State
  | 0, _, dentry, s => (.ok dentry, s)
  | fuel + 1, path, dentry, s =>
    match walkName (getName path) dentry s with
    | (.error e, s) => (.error e, s)
    | (.ok dentry, s) =>
      let path := skipSlashes (path.drop (getName path).length)
      if path = [] then (.ok dentry, s)
      else if s.ns.isDir dentry = false then
        (.error ⟨-enotdir, neg_enotdir⟩, dentryPut dentry s)
      else walkLoop fuel path dentry s

def pathWalk (dentry : ℕ) (path : List ℕ) (s : State) : Except Err ℕ × State :=
  let path := skipSlashes path
  if path = [] then (.ok dentry, s) else walkLoop path.length path dentry s

/-- `vfs_path_lookup`, where the walk starts at the root without a `base`. -/
def pathLookup (base : Option ℕ) (path : List ℕ) (s : State) : Except Err ℕ × State :=
  match base.or s.root with
  | none => (.error ⟨-enoent, by decide⟩, s)
  | some base =>
    match pathWalk base path (dentryGet base s) with
    | (.error e, s) => (.error e, dentryPut base s)
    | (.ok dentry, s) => (.ok dentry, s)

/-- The loop of `vfs_path_parent`, which looks up all components but the last. -/
def parentLoop (base : ℕ) : ℕ → List ℕ → ℕ → State → Except Err (ℕ × List ℕ) × State
  | 0, _, current, s => (.ok (current, []), s)
  | fuel + 1, path, current, s =>
    let name := getName path
    let path := skipSlashes (path.drop name.length)
    if path = [] then (.ok (current, name), s)
    else
      match lookupSingle current s with
      | (.error e, s) => (.error e, dentryPut base s)
      | (.ok next, s) =>
        let r := followMount next s
        parentLoop base fuel path r.1 (if current ≠ base then dentryPut current r.2 else r.2)

/-- The results of `vfs_path_parent`: the directory, the last component and the object that holds
a copy of it. -/
structure Parent where
  dentry : ℕ
  last : List ℕ
  copy : ℕ
deriving DecidableEq, Repr

/-- `vfs_path_parent`. Nothing is looked up for an empty path. -/
def pathParent (base : Option ℕ) (path : List ℕ) (s : State) : Except Err Parent × State :=
  match base.or s.root with
  | none => (.error ⟨-enoent, by decide⟩, s)
  | some base =>
    let path := skipSlashes path
    match parentLoop base path.length path base (dentryGet base s) with
    | (.error e, s) => (.error e, s)
    | (.ok (current, last), s) =>
      match Life.kmalloc (last.length + 1) s.obj with
      | (none, obj) => (.error ⟨-enomem, neg_enomem⟩, dentryPut base { s with obj })
      | (some copy, obj) => (.ok ⟨current, last, copy⟩, { s with obj })

/-! ## Open files -/

/-- A file that is open for reading. -/
structure OpenFile where
  file : ℕ
  dentry : ℕ
  reads : Reads
  count : ℕ
  pos : ℕ

/-- `file_open`: the new file holds a reference to its dentry. -/
def fileOpen (dentry : ℕ) (s : State) : Except Err OpenFile × State :=
  match s.opens with
  | [] => (.error ⟨-enomem, neg_enomem⟩, s)
  | .error e :: opens => (.error e, { s with opens })
  | .ok (file, reads) :: opens =>
    if s.files.file file = none then
      (.ok ⟨file, dentry, reads, 0, 0⟩, dentryGet dentry
        { s with opens, files := Files.setFile file (some ⟨1, .other⟩) s.files })
    else (.error ⟨-enomem, neg_enomem⟩, { s with opens })

/-- `vfs_open_cwd` with `O_RDONLY`. The reference from the lookup is not given back when the
file has been opened. -/
def vfsOpenCwd (path : List ℕ) (base : Option ℕ) (s : State) : Except Err OpenFile × State :=
  match pathLookup base path s with
  | (.error e, s) => (.error e, s)
  | (.ok dentry, s) =>
    match fileOpen dentry s with
    | (.error e, s) => (.error e, dentryPut dentry s)
    | (.ok f, s) => (.ok f, s)

/-- `file_put` of a file that `vfs_open_cwd` has opened. -/
def filePut (f : OpenFile) (s : State) : Outcome State := do
  let files ← Files.filePut f.file s.files
  .ok (dentryPut f.dentry { s with files })

/-- `file_lseek` with `SEEK_SET`. Positions are signed. -/
def fileLseek (pos : ℕ) (f : OpenFile) : OpenFile := if pos < 2 ^ 63 then { f with pos } else f

/-- `file_read`. Its result is the number of bytes, or an error. -/
def fileRead (n : ℕ) (f : OpenFile) : Option (List ℕ) × OpenFile :=
  if n = 0 then (none, f)
  else
    match f.reads f.count f.pos n with
    | none => (none, { f with count := f.count + 1 })
    | some read =>
      let read := (read.take n).map UInt8.toNat
      (some read, { f with count := f.count + 1, pos := f.pos + read.length })

end Exec

/-! ## Opening and closing files

`vfs_open_cwd` with all its flags, and the references to an open file. -/

abbrev oCreat : ℕ := 0o100

namespace Exec

/-- The end of `vfs_open_cwd`. The reference to the dentry is given back only after an error. -/
def openDentry (dentry : ℕ) (s : State) : Except Err OpenFile × State :=
  match fileOpen dentry s with
  | (.error e, s) => (.error e, dentryPut dentry s)
  | (.ok f, s) => (.ok f, s)

/-- `dentry_alloc`, `create` and `dentry_insert`, where `new` is the dentry whose file has been
created, other than that of the directory, or the error of the step that fails. -/
def createIn (parent : ℕ) (new : Except Err ℕ) (s : State) : Except Err ℕ × State :=
  if s.ns.isDir parent = false then (.error ⟨-enotdir, neg_enotdir⟩, s)
  else
    match new with
    | .error e => (.error e, s)
    | .ok d =>
      if d = parent then (.error ⟨-enomem, neg_enomem⟩, s)
      else (.ok d, { s with refs := Function.update s.refs d 1 })

/-- The branch of `vfs_open_cwd` for a file that does not exist. -/
def openCreate (new : Except Err ℕ) (path : List ℕ) (base : Option ℕ) (s : State) :
    Outcome (Except Err ℕ × State) :=
  match pathParent base path s with
  | (.error e, s) => .ok (.error e, s)
  | (.ok parent, s) => do
      let r := createIn parent.dentry new s
      let obj ← Life.kfree parent.copy r.2.obj
      .ok (r.1, dentryPut parent.dentry { r.2 with obj })

/-- `vfs_open_cwd`. -/
def vfsOpen (flags : ℕ) (new : Except Err ℕ) (path : List ℕ) (base : Option ℕ) (s : State) :
    Outcome (Except Err OpenFile × State) :=
  match pathLookup base path s with
  | (.ok dentry, s) => .ok (openDentry dentry s)
  | (.error e, s) =>
    if flags &&& oCreat ≠ 0 ∧ e.val = -enoent then do
      let r ← openCreate new path base s
      match r.1 with
      | .error e => .ok (.error e, r.2)
      | .ok dentry => .ok (openDentry dentry r.2)
    else .ok (.error e, s)

/-! ## References to a file -/

inductive FileOp where
  | get
  | put
deriving DecidableEq, Repr

/-- `file_get`. -/
def fileGet (f : OpenFile) (s : State) : Outcome State := do
  let files ← Files.fileGet f.file s.files
  .ok { s with files }

/-- `file_put` and `file_close`, which do the same. -/
def fileClose (f : OpenFile) (s : State) : Outcome State :=
  match s.files.file f.file with
  | none => .error .wild
  | some file =>
    if file.refcnt = 1 then filePut f s
    else do
      let files ← Files.filePut f.file s.files
      .ok { s with files }

def FileOp.run (f : OpenFile) : FileOp → State → Outcome State
  | .get => fileGet f
  | .put => fileClose f

end Exec

end NoobKernel
