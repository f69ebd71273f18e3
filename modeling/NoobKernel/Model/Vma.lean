import NoobKernel.Model.PageTable

/-! # Regions of virtual memory

The list of regions of a process, with sums as the registers have them. `vma_remove` takes an entry
out of the list twice, which is the same as once. The pages that it unmaps are left out. -/

namespace NoobKernel.Region

open Vm

abbrev vmStart : ℕ := 0
abbrev vmaTypeStart : ℤ := 0
abbrev vmaTypeEnd : ℤ := 3

/-- `struct vma`, without the file and the links. -/
structure Vma where
  start : ℕ
  length : ℕ
  perm : ℤ
  type : ℤ
deriving DecidableEq, Repr

/-- The sum `start + length`. -/
def Vma.stop (vma : Vma) : ℕ := (vma.start + vma.length) % wordSize

/-- `vma_create`, where `room` tells whether there is memory for the structure. -/
def vmaCreate (room : Bool) (start length : ℕ) (perm type : ℤ) : Option Vma :=
  let vma : Vma := ⟨start, length, perm, type⟩
  if start < vmStart ∨ vmEnd ≤ vma.stop ∨ type < vmaTypeStart ∨ vmaTypeEnd < type then none
  else if room then some vma else none

def vmaFind (va : ℕ) : List Vma → Option Vma
  | [] => none
  | vma :: rest =>
    if va < vma.start then none
    else if va < vma.stop then some vma
    else vmaFind va rest

def vmaInsert (new : Vma) : List Vma → ℤ × List Vma
  | [] => (0, [new])
  | vma :: rest =>
    if ¬ (new.stop ≤ vma.start ∨ vma.stop ≤ new.start) then (-eexist, vma :: rest)
    else if new.start < vma.start then (0, new :: vma :: rest)
    else ((vmaInsert new rest).1, vma :: (vmaInsert new rest).2)

def vmaRemove (start length : ℕ) (vmas : List Vma) : ℤ × List Vma :=
  match vmaFind start vmas with
  | none => (-enoent, vmas)
  | some vma =>
    if vma.start ≠ start ∨ vma.length ≠ length then (-enoent, vmas) else (0, vmas.erase vma)

inductive Event where
  | insert (room : Bool) (start length : ℕ) (perm type : ℤ)
  | remove (start length : ℕ)
deriving DecidableEq, Repr

def next (vmas : List Vma) : Event → List Vma
  | .insert room start length perm type =>
    match vmaCreate room start length perm type with
    | none => vmas
    | some vma => (vmaInsert vma vmas).2
  | .remove start length => (vmaRemove start length vmas).2

end NoobKernel.Region
