import NoobKernel.Model.Hashtable

/-! # The dentry cache

The functions run under the lock of the cache. The lists of siblings, children and unused
dentries and the inode of a dentry are not read by them and are left out; the parent of a dentry
is locked when the dentry leaves its list. -/

namespace NoobKernel

open Library

namespace Dcache

def hashString (name : List (BitVec 8)) : BitVec 32 :=
  name.foldl (fun hash c => hash * 31 + c.setWidth 32) 0

/-- `struct qstr`, whose length and hash are those of its name. -/
structure Qstr where
  name : List (BitVec 8)
deriving DecidableEq, Repr

def Qstr.len (q : Qstr) : BitVec 32 := BitVec.ofNat 32 q.name.length

def Qstr.hash (q : Qstr) : BitVec 32 := hashString q.name

/-- `struct dentry`; `unhashed` is the flag `DCACHE_UNHASHED`. -/
structure Dentry where
  name : Qstr
  sb : Ptr
  parent : Ptr
  refcnt : BitVec 32
  unhashed : Bool
deriving DecidableEq, Repr

/-- `dentry_state`, and the dentries that are not freed. -/
structure Cache where
  ht : Hashtable
  dentry : Ptr → Option Dentry
  count : BitVec 32

/-- `dentry_init` makes a table of 128 buckets. -/
abbrev buckets : ℕ := 128

/-- `dentry_hash_key`. -/
def dentryHashKey (sb parent : Ptr) (name : Qstr) (ht : Hashtable) : ℕ :=
  let hash : BitVec 32 := (sb ^^^ parent).setWidth 32
  let hash := hash ^^^ name.hash
  hashPtr (hash.setWidth 64) ht.size

/-- The bucket number as a key of the table. -/
def keyPtr (key : ℕ) : Ptr := BitVec.ofNat 64 key

def Dentry.key (x : Dentry) (ht : Hashtable) : Ptr := keyPtr (dentryHashKey x.sb x.parent x.name ht)

/-- A dentry is the one for a name in a directory. -/
def Dentry.Matches (x : Dentry) (sb parent : Ptr) (name : Qstr) : Prop :=
  x.sb = sb ∧ x.parent = parent ∧ x.name.len = name.len ∧ x.name.name = name.name

instance (x : Dentry) (sb parent : Ptr) (name : Qstr) : Decidable (x.Matches sb parent name) :=
  inferInstanceAs (Decidable (_ ∧ _))

def setDentry (d : Ptr) (x : Option Dentry) (c : Cache) : Cache :=
  { c with dentry := Function.update c.dentry d x }

/-- The search for a dentry in a bucket. -/
def searchBucket (sb parent : Ptr) (name : Qstr) (c : Cache) :
    List (Σ _ : Ptr, Ptr) → Outcome (Option Ptr)
  | [] => .ok none
  | node :: rest =>
    if node.2 = 0 then searchBucket sb parent name c rest
    else
      match c.dentry node.2 with
      | none => .error .wild
      | some x =>
        if x.Matches sb parent name then .ok (some node.2)
        else searchBucket sb parent name c rest

/-- `dentry_alloc` at address `d`, if there is memory. A parent is locked when it gets the new
dentry into its list. -/
def dentryAlloc (room : Bool) (d parent sb : Ptr) (name : Qstr) (c : Cache) :
    Outcome (Option Ptr × Cache) :=
  if room ∧ d ≠ 0 ∧ c.dentry d = none then
    if parent ≠ 0 ∧ c.dentry parent = none then .error .wild
    else .ok (some d,
      setDentry d (some ⟨name, sb, if parent ≠ 0 then parent else d, 1, false⟩) c)
  else .ok (none, c)

/-- `dentry_free` and `dentry_delete` take a dentry out of the table. -/
def unhash (d : Ptr) (x : Dentry) (c : Cache) : Cache :=
  if x.unhashed then c
  else
    setDentry d (some { x with unhashed := true })
      { c with ht := (hashtableDelete (x.key c.ht) c.ht).2, count := c.count - 1 }

/-- They also take it out of the list of its parent, which is locked meanwhile. -/
def leaveParent (d : Ptr) (x : Dentry) (c : Cache) : Outcome Cache :=
  if x.parent ≠ 0 ∧ x.parent ≠ d ∧ c.dentry x.parent = none then .error .wild else .ok c

def dentryFree (d : Ptr) (c : Cache) : Outcome Cache :=
  if d = 0 then .ok c
  else
    match c.dentry d with
    | none => .error .wild
    | some x => do
        let c ← leaveParent d x (unhash d x c)
        .ok (setDentry d none c)

/-- `dentry_lookup` looks into the bucket with the number of the key. -/
def dentryLookup (sb parent : Ptr) (name : Qstr) (c : Cache) : Outcome (Option Ptr × Cache) := do
  match ← searchBucket sb parent name c (c.ht.buckets (dentryHashKey sb parent name c.ht)) with
  | none => .ok (none, c)
  | some d =>
    match c.dentry d with
    | none => .error .wild
    | some x => .ok (some d, setDentry d (some { x with refcnt := x.refcnt + 1 }) c)

def dentryPut (d : Ptr) (c : Cache) : Outcome Cache :=
  if d = 0 then .ok c
  else
    match c.dentry d with
    | none => .error .wild
    | some x =>
      let c := setDentry d (some { x with refcnt := x.refcnt - 1 }) c
      if x.refcnt - 1 = 0 ∧ x.unhashed then dentryFree d c else .ok c

def dentryGet (d : Ptr) (c : Cache) : Outcome Cache :=
  if d = 0 then .ok c
  else
    match c.dentry d with
    | none => .error .wild
    | some x => .ok (setDentry d (some { x with refcnt := x.refcnt + 1 }) c)

/-- `dentry_insert` looks into the bucket of the node for the key, which is the hash of the
number of a bucket. The result of `hashtable_insert` is not looked at. -/
def dentryInsert (room : Bool) (d : Ptr) (c : Cache) : Outcome (ℤ × Cache) :=
  if d = 0 then .ok (-einval, c)
  else
    match c.dentry d with
    | none => .error .wild
    | some x =>
      if x.sb = 0 then .ok (-einval, c)
      else if x.parent = 0 then .ok (-einval, c)
      else do
        let key := x.key c.ht
        match ← searchBucket x.sb x.parent x.name c (c.ht.buckets (bucketOf c.ht.size key)) with
        | some _ => .ok (-eexist, c)
        | none => .ok (0,
            { c with ht := (hashtableInsert room key d c.ht).2, count := c.count + 1 })

def dentryDelete (d : Ptr) (c : Cache) : Outcome Cache :=
  if d = 0 then .ok c
  else
    match c.dentry d with
    | none => .error .wild
    | some x => do
        let c ← leaveParent d x (unhash d x c)
        dentryPut d c

/-- `dentry_root`. -/
def dentryRoot (room node : Bool) (d sb : Ptr) (c : Cache) : Outcome (Option Ptr × Cache) := do
  match ← dentryAlloc room d 0 sb ⟨[0x2F]⟩ c with
  | (none, c) => .ok (none, c)
  | (some root, c) => do
      let (r, c) ← dentryInsert node root c
      if r ≠ 0 then do
        let c ← dentryFree root c
        .ok (none, c)
      else .ok (some root, c)

/-- `vfs_lookup_single` in a directory. `answer` is the dentry that the file system returns for
the new one at `d`, if it finds the name. -/
def vfsLookupSingle (room node : Bool) (d : Ptr) (answer : Option Ptr) (base : Ptr) (name : Qstr)
    (c : Cache) : Outcome (Option Ptr × Cache) :=
  match c.dentry base with
  | none => .error .wild
  | some x => do
      let (found, c) ← dentryLookup x.sb base name c
      match found with
      | some dentry => .ok (some dentry, c)
      | none =>
        match ← dentryAlloc room d base x.sb name c with
        | (none, c) => .ok (none, c)
        | (some dentry, c) =>
          match answer with
          | none => do
              let c ← dentryFree dentry c
              .ok (none, c)
          | some result => do
              let c ← if result ≠ dentry then dentryFree dentry c else .ok c
              let (_, c) ← dentryInsert node result c
              .ok (some result, c)

/-- `dentry_init`, with the dentries that are allocated. -/
def dentryInit (dentries : Ptr → Option Dentry) : Cache := ⟨hashtableInit buckets, dentries, 0⟩

end Dcache

end NoobKernel
