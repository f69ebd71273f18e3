import NoobKernel.Model.Basic
import Mathlib.Data.List.FinRange

/-! # Radix trees

`rxtree_insert`, `rxtree_lookup` and `rxtree_delete`. A leaf is stored at the first level at
which its key is alone. The answers of `kmalloc` during a call are given by a list. -/

namespace NoobKernel.Rxtree

open Function

abbrev Key := BitVec 64

/-- `struct rxtree_node`, or the null pointer. -/
inductive Node where
  | null
  | leaf (key : Key) (value : ℕ)
  | inner (children : Fin 4 → Node)

/-- The digit of a key that selects the child of a node at the given depth. -/
def index (key : Key) (depth : ℕ) : Fin 4 :=
  let shift := 64 - (depth + 1) * 2
  let mask := 3#64 <<< shift
  Fin.ofNat 4 ((key &&& mask) >>> shift).toNat

/-- `kmalloc`; a list that is used up means that there is no memory left. -/
def alloc : List Bool → Bool × List Bool
  | [] => (false, [])
  | answer :: answers => (answer, answers)

def noChildren : Fin 4 → Node := fun _ => .null

/-- `rxtree_insert_node`; the first argument is the number of levels that it may go through. The
tree is returned together with the result and the remaining answers. -/
def insertNode : ℕ → Node → Key → ℕ → ℕ → List Bool → Option (ℤ × Node × List Bool)
  | 0, _, _, _, _, _ => none
  | _ + 1, .null, key, value, _, mem =>
    let (ok, mem) := alloc mem
    some (if ok then (0, .leaf key value, mem) else (-enomem, .null, mem))
  | n + 1, .leaf key' value', key, value, depth, mem =>
    if key' = key then some (0, .leaf key value, mem)
    else
      let (ok, mem) := alloc mem
      if ¬ ok then some (-enomem, .leaf key' value', mem)
      else if index key depth = index key' depth then do
        let (r, child, mem) ← insertNode n .null key value (depth + 1) mem
        if r ≠ 0 then some (-enomem, .leaf key' value', mem)
        else do
          let (r, child, mem) ← insertNode n child key' value' (depth + 1) mem
          if r ≠ 0 then some (-enomem, .leaf key' value', mem)
          else some (0, .inner (update noChildren (index key depth) child), mem)
      else
        let (ok, mem) := alloc mem
        let (ok', mem) := alloc mem
        if ¬ ok ∨ ¬ ok' then some (-enomem, .leaf key' value', mem)
        else some (0, .inner (update (update noChildren (index key depth) (.leaf key value))
          (index key' depth) (.leaf key' value')), mem)
  | n + 1, .inner children, key, value, depth, mem => do
    let (r, child, mem) ← insertNode n (children (index key depth)) key value (depth + 1) mem
    some (r, .inner (update children (index key depth) child), mem)

/-- The levels of a tree: one for each digit, and one more for the leaves. -/
abbrev levels : ℕ := 33

def rxtreeInsert (tree : Node) (key : Key) (value : ℕ) (mem : List Bool) :
    Option (ℤ × Node × List Bool) := insertNode levels tree key value 0 mem

/-- The loop of `rxtree_lookup` from a node at the given depth. -/
def lookupNode : Node → Key → ℕ → ℕ
  | .null, _, _ => 0
  | .leaf key' value, key, _ => if key' = key then value else 0
  | .inner children, key, depth => lookupNode (children (index key depth)) key (depth + 1)

def rxtreeLookup (tree : Node) (key : Key) : ℕ := lookupNode tree key 0

def Node.isNull : Node → Bool
  | .null => true
  | _ => false

/-- What remains of a node after a deletion below it. -/
def collapse (children : Fin 4 → Node) : Node :=
  match (List.finRange 4).filter (fun i => !(children i).isNull) with
  | [] => .null
  | [i] =>
    match children i with
    | .leaf key value => .leaf key value
    | _ => .inner children
  | _ => .inner children

def deleteNode : Node → Key → ℕ → ℤ × Node
  | .null, _, _ => (-einval, .null)
  | .leaf key' value, key, _ =>
    if key' = key then (0, .null) else (-einval, .leaf key' value)
  | .inner children, key, depth =>
    let (r, child) := deleteNode (children (index key depth)) key (depth + 1)
    let children := update children (index key depth) child
    if r = 0 then (r, collapse children) else (r, .inner children)

def rxtreeDelete (tree : Node) (key : Key) : ℤ × Node := deleteNode tree key 0

/-! ## Calls -/

/-- A call that changes the tree; an insertion meets any pattern of allocation failures. -/
inductive Op where
  | insert (key : Key) (value : ℕ) (mem : List Bool)
  | delete (key : Key)

def Op.run (tree : Node) : Op → Option (ℤ × Node)
  | .insert key value mem => (rxtreeInsert tree key value mem).map (fun x => (x.1, x.2.1))
  | .delete key => some (rxtreeDelete tree key)

end NoobKernel.Rxtree
