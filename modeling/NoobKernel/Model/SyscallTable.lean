import NoobKernel.Model.Basic

/-! # The table of system calls

`sc_table`, with linear probing from the low bits of the number. -/

namespace NoobKernel.Syscall

open Function

abbrev scTableSize : ℕ := 256
abbrev scTableMask : ℕ := scTableSize - 1

/-- An entry of `sc_table`. The null pointer stands for an empty one. -/
structure Entry where
  nr : BitVec 32
  fn : ℕ
deriving DecidableEq, Repr

abbrev Table := ℕ → Entry

def scHash (nr : BitVec 32) : ℕ := (nr &&& BitVec.ofNat 32 scTableMask).toNat

/-- The slot in round `i` of the loops. -/
def slot (nr : BitVec 32) (i : ℕ) : ℕ := (scHash nr + i) &&& scTableMask

/-- `syscall_register`; a full table is a panic. -/
def syscallRegister (nr : BitVec 32) (fn : ℕ) (t : Table) : Option Table :=
  match (List.range scTableSize).find? (fun i => (t (slot nr i)).fn = 0) with
  | none => none
  | some i => some (update t (slot nr i) ⟨nr, fn⟩)

/-- The loop ends at the first slot that is empty or has the number; the handler of an empty one is
null. -/
def syscallLookup (nr : BitVec 32) (t : Table) : ℕ :=
  match (List.range scTableSize).find?
    (fun i => (t (slot nr i)).fn = 0 ∨ (t (slot nr i)).nr = nr) with
  | none => 0
  | some i => (t (slot nr i)).fn

/-- A sequence of registrations, from the table as it is at the boot. -/
def registerAll (calls : List Entry) : Option Table :=
  calls.foldlM (fun t c => syscallRegister c.nr c.fn t) (fun _ => ⟨0, 0⟩)

end NoobKernel.Syscall
