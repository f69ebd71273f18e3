import NoobKernel.Model.FdTable

/-! # The pipe system call

`sys_pipe2` with each of its allocations, any of which may fail. -/

namespace NoobKernel.Files.Pipe2

open Library

/-- A `struct file *`, which may encode an error number. -/
inductive Pointer where
  | null
  | error (e : ℤ)
  | file (f : ℕ)
deriving DecidableEq, Repr

/-- An access through a pointer. -/
def Pointer.deref : Pointer → Outcome ℕ
  | .file f => .ok f
  | _ => .error .wild

/-- What the allocators and the copy to user memory answer. -/
structure Supply where
  rf : Option ℕ
  wf : Option ℕ
  pipe : Option ℕ
  rfdRoom : Bool
  wfdRoom : Bool
  copied : Bool
deriving DecidableEq, Repr

/-- An allocator does not give out an object that is in use. -/
def fresh {α : Type*} (used : ℕ → Option α) (answer : Option ℕ) : Option ℕ :=
  answer.filter fun a => (used a).isNone

def fileAlloc (answer : Option ℕ) (h : Heap) : Pointer × Heap :=
  match fresh h.file answer with
  | none => (.error (-enomem), h)
  | some f => (.file f, setFile f (some ⟨1, .other⟩) h)

/-- `file_free`. -/
def fileFree : Pointer → Heap → Outcome Heap
  | .null, h => .ok h
  | file, h => do Files.fileFree (← file.deref) h

/-- The stores of `pipe_create` into one of the files. -/
def setKind (file : Pointer) (kind : Kind) (h : Heap) : Outcome Heap := do
  let f ← file.deref
  match h.file f with
  | none => .error .wild
  | some file => .ok (setFile f (some { file with kind }) h)

def pipeCreate (answer : Option ℕ) (rf wf : Pointer) (h : Heap) : Outcome (ℤ × Heap) :=
  match fresh h.pipe answer with
  | none => .ok (-enomem, h)
  | some p => do
      let h ← setKind rf (.readEnd p) (setPipe p (some ⟨1, 1⟩) h)
      let h ← setKind wf (.writeEnd p) h
      .ok (0, h)

def fdFreeIf (fd : ℤ) (fdt : FdTable) (h : Heap) : Outcome (FdTable × Heap) :=
  if fd ≥ 0 then fdFree fd fdt h else .ok (fdt, h)

/-- `sys_pipe2` from `fd_alloc` on, where `pipe_create` has stored through both pointers. -/
def installEnds (env : Supply) (rf wf : ℕ) (fdt : FdTable) (h : Heap) :
    Outcome (ℤ × FdTable × Heap) := do
  let (rfd, fdt) ← fdAlloc env.rfdRoom fdt
  let (wfd, fdt) ← fdAlloc env.wfdRoom fdt
  if rfd < 0 ∨ wfd < 0 then
    let (fdt, h) ← fdFreeIf rfd fdt h
    let (fdt, h) ← fdFreeIf wfd fdt h
    let h ← filePut rf h
    let h ← filePut wf h
    .ok (-emfile, fdt, h)
  else
    let (_, fdt) ← fdInstall rfd rf fdt
    let (_, fdt) ← fdInstall wfd wf fdt
    if env.copied then .ok (0, fdt, h)
    else
      let (fdt, h) ← fdFree rfd fdt h
      let (fdt, h) ← fdFree wfd fdt h
      .ok (-efault, fdt, h)

def sysPipe2 (env : Supply) (fdt : FdTable) (h : Heap) : Outcome (ℤ × FdTable × Heap) := do
  let (rf, h) := fileAlloc env.rf h
  let (wf, h) := fileAlloc env.wf h
  if rf = .null ∨ wf = .null then
    let h ← fileFree rf h
    let h ← fileFree wf h
    .ok (-enomem, fdt, h)
  else
    let (r, h) ← pipeCreate env.pipe rf wf h
    if r < 0 then
      let h ← fileFree rf h
      let h ← fileFree wf h
      .ok (-enomem, fdt, h)
    else installEnds env (← rf.deref) (← wf.deref) fdt h

end NoobKernel.Files.Pipe2
