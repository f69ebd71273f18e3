import NoobKernel.Library.Chained
import NoobKernel.Model.Basic

/-! # The generic hash table

Keys and values are pointers. -/

namespace NoobKernel

open Function Library

abbrev Ptr := BitVec 64

/-- The loop of `hash_ptr` over the `n` bytes of the pointer that are left. -/
def hashBytes : ℕ → BitVec 32 → Ptr → BitVec 32
  | 0, hash, _ => hash
  | n + 1, hash, k => hashBytes n ((hash ^^^ (k &&& 0xFF).setWidth 32) * 0x01000193) (k >>> 8)

/-- `hash_ptr`; the table has a power of two of buckets. -/
def hashPtr (key : Ptr) (size : ℕ) : ℕ := (hashBytes 8 0x811C9DC5 key).toNat &&& (size - 1)

/-- The bucket for a key in a table of `size` buckets. -/
def bucketOf (size : ℕ) (key : Ptr) : ℕ := hashPtr key size

/-- `struct hashtable`. -/
structure Hashtable where
  size : ℕ
  buckets : Buckets Ptr Ptr

def hashtableInit (size : ℕ) : Hashtable := ⟨size, fun _ => []⟩

/-- `hashtable_insert`. A node is allocated when there is none with the key. -/
def hashtableInsert (room : Bool) (key value : Ptr) (ht : Hashtable) : ℤ × Hashtable :=
  if (ht.buckets.find (bucketOf ht.size) key).isSome ∨ room then
    (0, { ht with buckets := ht.buckets.insert (bucketOf ht.size) key value })
  else (-enomem, ht)

def hashtableLookup (key : Ptr) (ht : Hashtable) : Option Ptr :=
  ht.buckets.find (bucketOf ht.size) key

def hashtableDelete (key : Ptr) (ht : Hashtable) : Option Ptr × Hashtable :=
  (ht.buckets.find (bucketOf ht.size) key,
    { ht with buckets := ht.buckets.erase (bucketOf ht.size) key })

/-- `struct hashtable` with its count, which is bounded by the memory that the nodes take. -/
structure CountedTable extends Hashtable where
  count : ℕ

/-- `hashtable_insert` with the count: a new node adds one. -/
def CountedTable.insert (room : Bool) (key value : Ptr) (ht : CountedTable) : ℤ × CountedTable :=
  let r := hashtableInsert room key value ht.toHashtable
  (r.1, ⟨r.2, if (hashtableLookup key ht.toHashtable).isNone ∧ room then ht.count + 1
    else ht.count⟩)

def CountedTable.delete (key : Ptr) (ht : CountedTable) : Option Ptr × CountedTable :=
  let r := hashtableDelete key ht.toHashtable
  (r.1, ⟨r.2, if r.1.isSome then ht.count - 1 else ht.count⟩)

/-- The tables after any calls, with the map of the successful ones. -/
inductive HashRun (size : ℕ) : CountedTable → (Ptr → Option Ptr) → Prop where
  | init : HashRun size ⟨hashtableInit size, 0⟩ (fun _ => none)
  | insert {ht : CountedTable} {f : Ptr → Option Ptr} (room : Bool) (key value : Ptr) :
      HashRun size ht f → HashRun size (ht.insert room key value).2
        (if (ht.insert room key value).1 = 0 then update f key (some value) else f)
  | delete {ht : CountedTable} {f : Ptr → Option Ptr} (key : Ptr) :
      HashRun size ht f → HashRun size (ht.delete key).2 (update f key none)

end NoobKernel
