import NoobKernel.Model.Basic
import Mathlib.Data.List.Basic

/-! # File descriptor tables

The descriptors of a process are an array of pointers that grows by doubling. A slot is empty,
set aside by `fd_alloc`, or holds a reference to an open file. -/

namespace NoobKernel

open Library

abbrev enoexec : ℤ := 8
abbrev ebadf : ℤ := 9
abbrev emfile : ℤ := 24

namespace Files

abbrev nrOpenDefault : ℕ := 32
abbrev nrOpenMax : ℕ := 1024

/-! ## Open files -/

/-- What `f_op->release` has to do for a file. -/
inductive Kind where
  | other
  | readEnd (pipe : ℕ)
  | writeEnd (pipe : ℕ)
deriving DecidableEq, Repr

/-- `struct file`. Each reference lies in a slot of a table or on a kernel stack, so that their
number stays far below the range of `f_refcnt`. -/
structure File where
  refcnt : ℕ
  kind : Kind
deriving DecidableEq, Repr

/-- The number of the ends of a pipe that have not been released. -/
structure Ends where
  nreaders : ℕ
  nwriters : ℕ
deriving DecidableEq, Repr

/-- The files and pipes that have not been freed. -/
structure Heap where
  file : ℕ → Option File
  pipe : ℕ → Option Ends

def setFile (f : ℕ) (file : Option File) (h : Heap) : Heap :=
  { h with file := Function.update h.file f file }

def setPipe (k : ℕ) (ends : Option Ends) (h : Heap) : Heap :=
  { h with pipe := Function.update h.pipe k ends }

def fileGet (f : ℕ) (h : Heap) : Outcome Heap :=
  match h.file f with
  | none => .error .wild
  | some file => .ok (setFile f (some { file with refcnt := file.refcnt + 1 }) h)

def fileFree (f : ℕ) (h : Heap) : Outcome Heap :=
  match h.file f with
  | none => .error .wild
  | some _ => .ok (setFile f none h)

/-- A pipe without ends is freed. -/
def storeEnds (k : ℕ) (ends : Ends) (h : Heap) : Heap :=
  setPipe k (if ends.nreaders = 0 ∧ ends.nwriters = 0 then none else some ends) h

/-- `pipe_release` for the ends of pipes, and nothing for other files. -/
def release : Kind → Heap → Outcome Heap
  | .other, h => .ok h
  | .readEnd k, h =>
    match h.pipe k with
    | none => .error .wild
    | some ends => .ok (storeEnds k { ends with nreaders := ends.nreaders - 1 } h)
  | .writeEnd k, h =>
    match h.pipe k with
    | none => .error .wild
    | some ends => .ok (storeEnds k { ends with nwriters := ends.nwriters - 1 } h)

/-- `file_put`: the last reference closes the file. -/
def filePut (f : ℕ) (h : Heap) : Outcome Heap :=
  match h.file f with
  | none => .error .wild
  | some file =>
    if file.refcnt = 1 then do
      let h ← release file.kind h
      fileFree f h
    else .ok (setFile f (some { file with refcnt := file.refcnt - 1 }) h)

/-! ## Tables -/

inductive Slot where
  | null
  | reserved
  | file (f : ℕ)
deriving DecidableEq, Repr

/-- `struct fd_table`, where `fds` has the length of the array that was allocated. -/
structure FdTable where
  fds : List Slot
  maxFds : ℕ
  openFds : ℕ
deriving DecidableEq, Repr

namespace FdTable

def slot (fdt : FdTable) (i : ℕ) : Outcome Slot :=
  match fdt.fds[i]? with
  | some s => .ok s
  | none => .error .wild

def store (fdt : FdTable) (i : ℕ) (s : Slot) : Outcome FdTable :=
  if i < fdt.fds.length then .ok { fdt with fds := fdt.fds.set i s } else .error .wild

/-- Descriptors that the checks at the start of `fd_free`, `fd_get` and `fd_install` refuse. -/
def Refuses (fdt : FdTable) (fd : ℤ) : Prop := fd < 0 ∨ fdt.maxFds ≤ fd.toNat

instance (fdt : FdTable) (fd : ℤ) : Decidable (fdt.Refuses fd) :=
  inferInstanceAs (Decidable (_ ∨ _))

/-- The copy into an array of `newMax` pointers. -/
def grow (newMax : ℕ) (fdt : FdTable) : Outcome FdTable :=
  if fdt.maxFds ≤ fdt.fds.length ∧ fdt.maxFds ≤ newMax then
    .ok { fdt with
      fds := fdt.fds.take fdt.maxFds ++ List.replicate (newMax - fdt.maxFds) .null
      maxFds := newMax }
  else .error .wild

end FdTable

/-- `fd_table_alloc`; `room` tells whether its two objects could be allocated. -/
def fdTableAlloc (room : Bool) : Option FdTable :=
  if room then some ⟨List.replicate nrOpenDefault .null, nrOpenDefault, 0⟩ else none

/-- The loop of `fd_table_free`. -/
def putSlots (fdt : FdTable) : List ℕ → Heap → Outcome Heap
  | [], h => .ok h
  | i :: rest, h => do
      match ← fdt.slot i with
      | .file f => do
          let h ← filePut f h
          putSlots fdt rest h
      | _ => putSlots fdt rest h

def fdTableFree (fdt : FdTable) (h : Heap) : Outcome Heap := putSlots fdt (List.range fdt.maxFds) h

/-- The loop of `fd_table_dup`. -/
def dupSlots (fdt : FdTable) : List ℕ → FdTable → Heap → Outcome (FdTable × Heap)
  | [], newFdt, h => .ok (newFdt, h)
  | i :: rest, newFdt, h => do
      match ← fdt.slot i with
      | .file f => do
          let h ← fileGet f h
          let newFdt ← newFdt.store i (.file f)
          dupSlots fdt rest { newFdt with openFds := newFdt.openFds + 1 } h
      | _ => dupSlots fdt rest newFdt h

def fdTableDup (room : Bool) (fdt : FdTable) (h : Heap) : Outcome (Option FdTable × Heap) :=
  match fdTableAlloc room with
  | none => .ok (none, h)
  | some newFdt => do
      let (newFdt, h) ← dupSlots fdt (List.range (min fdt.maxFds newFdt.maxFds)) newFdt h
      .ok (some newFdt, h)

/-- The search for an empty slot. -/
def firstFree (fdt : FdTable) : List ℕ → Outcome (Option ℕ)
  | [] => .ok none
  | i :: rest => do
      if (← fdt.slot i) = .null then .ok (some i) else firstFree fdt rest

/-- `fd_alloc`; `room` tells whether a larger array could be allocated. -/
def fdAlloc (room : Bool) (fdt : FdTable) : Outcome (ℤ × FdTable) := do
  match ← firstFree fdt (List.range fdt.maxFds) with
  | some i => do
      let fdt ← fdt.store i .reserved
      .ok (i, fdt)
  | none =>
    if fdt.maxFds < nrOpenMax ∧ room then do
      let fdt ← fdt.grow (min (fdt.maxFds * 2) nrOpenMax)
      let fd := fdt.maxFds / 2
      let fdt ← fdt.store fd .reserved
      .ok (fd, fdt)
    else .ok (-emfile, fdt)

def fdFree (fd : ℤ) (fdt : FdTable) (h : Heap) : Outcome (FdTable × Heap) :=
  if fdt.Refuses fd then .ok (fdt, h)
  else do
    match ← fdt.slot fd.toNat with
    | .file f => do
        let h ← filePut f h
        let fdt ← { fdt with openFds := fdt.openFds - 1 }.store fd.toNat .null
        .ok (fdt, h)
    | _ => do
        let fdt ← fdt.store fd.toNat .null
        .ok (fdt, h)

def fdGet (fd : ℤ) (fdt : FdTable) (h : Heap) : Outcome (Option ℕ × Heap) :=
  if fdt.Refuses fd then .ok (none, h)
  else do
    match ← fdt.slot fd.toNat with
    | .file f => do
        let h ← fileGet f h
        .ok (some f, h)
    | _ => .ok (none, h)

def fdInstall (fd : ℤ) (f : ℕ) (fdt : FdTable) : Outcome (ℤ × FdTable) :=
  if fdt.Refuses fd then .ok (-einval, fdt)
  else do
    match ← fdt.slot fd.toNat with
    | .file _ => .ok (-ebadf, fdt)
    | _ => do
        let fdt ← fdt.store fd.toNat (.file f)
        .ok (0, { fdt with openFds := fdt.openFds + 1 })

/-! ## Growth in `sys_dup3` and the search of `F_DUPFD` -/

/-- The loop of `sys_dup3` that doubles the size; a table reaches `NR_OPEN_MAX` within `fuel`
rounds. -/
def doubleUntil (newfd : ℕ) : ℕ → ℕ → ℕ
  | 0, newMax => newMax
  | fuel + 1, newMax =>
    if newMax ≤ newfd ∧ newMax < nrOpenMax then doubleUntil newfd fuel (newMax * 2) else newMax

/-- The start of `sys_dup3`, which extends the table up to the descriptor. -/
def dup3Grow (room : Bool) (newfd : ℕ) (fdt : FdTable) : Outcome (ℤ × FdTable) :=
  if newfd < fdt.maxFds then .ok (0, fdt)
  else
    let newMax := min (doubleUntil newfd nrOpenMax (fdt.maxFds * 2)) nrOpenMax
    if newMax ≤ newfd then .ok (-ebadf, fdt)
    else if room then do
      let fdt ← fdt.grow newMax
      .ok (0, fdt)
    else .ok (-enomem, fdt)

/-- The search of `F_DUPFD` for the lowest empty slot from `minfd` on. -/
def dupfdAlloc (minfd : ℕ) (fdt : FdTable) : Outcome (ℤ × FdTable) := do
  match ← firstFree fdt (List.range' minfd (fdt.maxFds - minfd)) with
  | some i => do
      let fdt ← fdt.store i .reserved
      .ok (i, fdt)
  | none => .ok (-emfile, fdt)

/-- The tables that the operations lead to from an empty one. -/
inductive Reachable : FdTable → Prop
  | fdTableAlloc {fdt : FdTable} : fdTableAlloc true = some fdt → Reachable fdt
  | fdAlloc {fdt fdt' : FdTable} {room : Bool} {r : ℤ} : Reachable fdt →
      fdAlloc room fdt = .ok (r, fdt') → Reachable fdt'
  | fdInstall {fdt fdt' : FdTable} {fd r : ℤ} {f : ℕ} : Reachable fdt →
      fdInstall fd f fdt = .ok (r, fdt') → Reachable fdt'
  | fdFree {fdt fdt' : FdTable} {fd : ℤ} {h h' : Heap} : Reachable fdt →
      fdFree fd fdt h = .ok (fdt', h') → Reachable fdt'
  | dup3Grow {fdt fdt' : FdTable} {room : Bool} {newfd : ℕ} {r : ℤ} : Reachable fdt →
      dup3Grow room newfd fdt = .ok (r, fdt') → Reachable fdt'
  | dupfdAlloc {fdt fdt' : FdTable} {minfd : ℕ} {r : ℤ} : Reachable fdt →
      dupfdAlloc minfd fdt = .ok (r, fdt') → Reachable fdt'

end Files

end NoobKernel
