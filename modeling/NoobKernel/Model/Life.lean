import NoobKernel.Model.FdTable
import NoobKernel.Model.Uvm
import NoobKernel.Model.UserCopy

/-! # Resources of processes

What a process holds from `alloc_proc` to `free_proc`: objects of the kernel heap, the pages of
its address space, references to files and dentries. An object or page that is freed without
being in use is an error. The scheduling and the links of a process are left out, and so is the
contents of its trap frame. -/

namespace NoobKernel

open Function

open Library

namespace Life

/-! ## The kernel heap -/

/-- The objects that are in use, and the future answers of the allocator. -/
structure Objects where
  used : ℕ → Bool
  answers : List ℕ

/-- `kmalloc` of a size other than zero. -/
def alloc (h : Objects) : Option ℕ × Objects :=
  match h.answers with
  | [] => (none, h)
  | a :: answers =>
    if a ≠ 0 ∧ h.used a = false then (some a, ⟨update h.used a true, answers⟩)
    else (none, { h with answers })

def kmalloc (size : ℕ) (h : Objects) : Option ℕ × Objects :=
  if size = 0 then (none, h) else alloc h

def kfree (a : ℕ) (h : Objects) : Outcome Objects :=
  if h.used a then .ok { h with used := update h.used a false } else .error .wild

/-! ## The state -/

/-- The memory, the heap, the open files, the references to each dentry, the root directory and
the page of the trampoline. Dentries that lose their last reference are not followed. -/
structure Kernel where
  mem : Vm.Memory
  obj : Objects
  files : Files.Heap
  refs : ℕ → ℤ
  root : Option ℕ
  trampolinePa : ℕ

/-- `struct fd_table` and the array it points to. -/
structure Table where
  fdt : ℕ
  fds : ℕ
  table : Files.FdTable
deriving DecidableEq, Repr

/-- `struct proc`, where zero stands for `NULL`. -/
structure Proc where
  self : ℕ
  pagetable : ℕ
  tf : ℕ
  kstack : ℕ
  fdTable : Option Table
  pwd : Option ℕ
  vmShared : Bool
deriving DecidableEq, Repr

def addRef (d : ℕ) (n : ℤ) (s : Kernel) : Kernel :=
  { s with refs := update s.refs d (s.refs d + n) }

def dentryGet (d : ℕ) (s : Kernel) : Kernel := addRef d 1 s

def dentryPut (d : ℕ) (s : Kernel) : Kernel := addRef d (-1) s

/-! ## Pages -/

/-- `kfree` of a page. -/
def pageFree (pa : ℕ) (m : Vm.Memory) : Outcome Vm.Memory :=
  if m.used pa then .ok (Vm.kfree pa m) else .error .wild

def pagetableDestroyLevel : ℕ → ℕ → Vm.Memory → Outcome Vm.Memory
  | 0, pagetable, m => pageFree pagetable m
  | level + 1, pagetable, m => do
      let m ← (List.finRange 512).foldlM (fun m i =>
        let pte := m.word pagetable i
        if pte &&& Vm.pteV ≠ 0 then pagetableDestroyLevel level (Vm.pte2pa pte) m
        else .ok m) m
      pageFree pagetable m

def pagetableDestroy (pagetable : ℕ) (m : Vm.Memory) : Outcome Vm.Memory :=
  if pagetable = 0 then .ok m else pagetableDestroyLevel 2 pagetable m

/-- What `uvm_free_user_pages` does with a leaf. -/
def freeLeaf (pagetable : ℕ) (i : Vm.Index) (va : ℕ) (m : Vm.Memory) : Outcome Vm.Memory :=
  if va = trampoline ∨ va = trapframe then .ok m
  else do
    let m ← pageFree (Vm.pte2pa (m.word pagetable i)) m
    .ok (Vm.setPte (pagetable, i) 0 m)

def uvmFreeUserPagesLevel : ℕ → ℕ → ℕ → Vm.Memory → Outcome Vm.Memory
  | 0, pagetable, base, m =>
    (List.finRange 512).foldlM (fun m i =>
      let pte := m.word pagetable i
      if pte &&& Vm.pteV = 0 then .ok m
      else if Vm.IsLeaf pte then freeLeaf pagetable i (Vm.slotVa 0 base i) m
      else .ok m) m
  | level + 1, pagetable, base, m =>
    (List.finRange 512).foldlM (fun m i =>
      let pte := m.word pagetable i
      if pte &&& Vm.pteV = 0 then .ok m
      else if Vm.IsLeaf pte then freeLeaf pagetable i (Vm.slotVa (level + 1) base i) m
      else uvmFreeUserPagesLevel level (Vm.pte2pa pte) (Vm.slotVa (level + 1) base i) m) m

def uvmFreeUserPages (pagetable : ℕ) (m : Vm.Memory) : Outcome Vm.Memory :=
  if pagetable = 0 then .ok m else uvmFreeUserPagesLevel 2 pagetable 0 m

/-! ## Descriptor tables -/

def emptyTable : Files.FdTable := ⟨List.replicate Files.nrOpenDefault .null, Files.nrOpenDefault, 0⟩

def fdTableAlloc (s : Kernel) : Outcome (Option Table × Kernel) :=
  match alloc s.obj with
  | (none, obj) => .ok (none, { s with obj })
  | (some fdt, obj) =>
    match alloc obj with
    | (none, obj) => do
        let obj ← kfree fdt obj
        .ok (none, { s with obj })
    | (some fds, obj) => .ok (some ⟨fdt, fds, emptyTable⟩, { s with obj })

def fdTableFree (t : Option Table) (s : Kernel) : Outcome Kernel :=
  match t with
  | none => .ok s
  | some t => do
      let files ← Files.fdTableFree t.table s.files
      let obj ← kfree t.fds s.obj
      let obj ← kfree t.fdt obj
      .ok { s with files, obj }

def fdTableDup (t : Option Table) (s : Kernel) : Outcome (Option Table × Kernel) :=
  match t with
  | none => .ok (none, s)
  | some t => do
      match ← fdTableAlloc s with
      | (none, s) => .ok (none, s)
      | (some new, s) => do
          let (table, files) ← Files.dupSlots t.table
            (List.range (min t.table.maxFds new.table.maxFds)) new.table s.files
          .ok (some { new with table }, { s with files })

/-! ## Processes -/

def allocProc (s : Kernel) : Outcome (Option Proc × Kernel) :=
  match alloc s.obj with
  | (none, obj) => .ok (none, { s with obj })
  | (some self, obj) => do
      match ← fdTableAlloc { s with obj } with
      | (none, s) => do
          let obj ← kfree self s.obj
          .ok (none, { s with obj })
      | (some t, s) =>
        .ok (some ⟨self, 0, 0, 0, some t, s.root, false⟩, s.root.elim s (dentryGet · s))

def freeProc (p : Proc) (s : Kernel) : Outcome Kernel := do
  let obj ← if p.kstack ≠ 0 then kfree p.kstack s.obj else .ok s.obj
  let mem ← if p.tf ≠ 0 then pageFree p.tf s.mem else .ok s.mem
  let mem ← if p.vmShared then .ok mem else uvmFreeUserPages p.pagetable mem
  let mem ← pagetableDestroy p.pagetable mem
  let s ← fdTableFree p.fdTable { s with obj, mem }
  let s := p.pwd.elim s (dentryPut · s)
  let obj ← kfree p.self s.obj
  .ok { s with obj }

/-! ## `sys_fork` and `sys_clone` -/

/-- The flags and arguments of `sys_clone` that concern memory. -/
structure CloneArgs where
  shareVm : Bool
  parentSettid : Bool
  childSettid : Bool
  ptid : ℕ
  ctid : ℕ
deriving DecidableEq, Repr

/-- The labels at the end of `sys_fork` and `sys_clone`, each of which goes on to the next. The
calls return `-ENOMEM` then, which is no process here. -/
def fail (child : Proc) (s : Kernel) : Outcome (Option Proc × Kernel) := do
  let obj ← kfree child.self s.obj
  .ok (none, { s with obj })

def failFreept (child : Proc) (s : Kernel) : Outcome (Option Proc × Kernel) := do
  let mem ← pagetableDestroy child.pagetable s.mem
  fail child { s with mem }

def failFreetable (child : Proc) (s : Kernel) : Outcome (Option Proc × Kernel) := do
  let s ← fdTableFree child.fdTable s
  failFreept child s

def failFreestack (child : Proc) (s : Kernel) : Outcome (Option Proc × Kernel) := do
  let obj ← kfree child.kstack s.obj
  failFreetable child { s with obj }

def failFreetf (child : Proc) (s : Kernel) : Outcome (Option Proc × Kernel) := do
  let mem ← pageFree child.tf s.mem
  failFreestack child { s with mem }

/-- The trap pages are mapped, and the child gets the working directory of its parent. The
reference to the root directory from `alloc_proc` is not given back. -/
def mapTrapPages (parent child : Proc) (s : Kernel) : Outcome (Option Proc × Kernel) :=
  let r := Vm.mappages child.pagetable trampoline s.trampolinePa 1 (Vm.pteR ||| Vm.pteX) s.mem
  let s := { s with mem := r.2 }
  if r.1 ≠ 0 then failFreetf child s
  else
    let r := Vm.mappages child.pagetable trapframe child.tf 1 (Vm.pteR ||| Vm.pteW) s.mem
    let s := { s with mem := r.2 }
    if r.1 ≠ 0 then failFreetf child s
    else
      match parent.pwd with
      | none => .ok (some child, s)
      | some pwd => .ok (some { child with pwd := some pwd }, dentryGet pwd s)

/-- The identifier of the child is stored for the parent and for the child. -/
def setTids (args : CloneArgs) (pid : ℕ) (parent child : Proc) (s : Kernel) :
    Outcome (Option Proc × Kernel) :=
  let r := if args.parentSettid then Vm.copyout parent.pagetable args.ptid (bytes 4 pid) s.mem
    else (0, s.mem)
  let s := { s with mem := r.2 }
  if r.1 < 0 then failFreetf child s
  else
    let r := if args.childSettid ∧ pageSize ≤ args.ctid ∧ args.ctid < userTop then
        Vm.copyout child.pagetable args.ctid (bytes 4 pid) s.mem
      else (0, s.mem)
    let s := { s with mem := r.2 }
    if r.1 < 0 then failFreetf child s else mapTrapPages parent child s

/-- The kernel stack and the trap frame. -/
def allocStack (args : CloneArgs) (pid : ℕ) (parent child : Proc) (s : Kernel) :
    Outcome (Option Proc × Kernel) :=
  match alloc s.obj with
  | (none, obj) => failFreetable child { s with obj }
  | (some kstack, obj) =>
    match Vm.kzalloc s.mem with
    | (none, mem) => failFreestack { child with kstack } { s with obj, mem }
    | (some tf, mem) => setTids args pid parent { child with kstack, tf } { s with obj, mem }

/-- The empty table from `alloc_proc` is replaced by a copy of the parent's. -/
def dupFiles (args : CloneArgs) (pid : ℕ) (parent child : Proc) (s : Kernel) :
    Outcome (Option Proc × Kernel) := do
  let s ← fdTableFree child.fdTable s
  match ← fdTableDup parent.fdTable s with
  | (none, s) => failFreept { child with fdTable := none } s
  | (some t, s) => allocStack args pid parent { child with fdTable := some t } s

/-- `sys_fork` and `sys_clone` from `alloc_proc` on. -/
def spawn (args : CloneArgs) (pid : ℕ) (parent : Proc) (s : Kernel) :
    Outcome (Option Proc × Kernel) := do
  match ← allocProc s with
  | (none, s) => .ok (none, s)
  | (some child, s) =>
    match Vm.uvmcreate s.mem with
    | (none, mem) => fail child { s with mem }
    | (some pagetable, mem) =>
      let child := { child with pagetable }
      let r := Vm.childWalk args.shareVm parent.pagetable pagetable mem
      let s := { s with mem := r.2 }
      if r.1 < 0 then failFreept child s
      else dupFiles args pid parent { child with vmShared := args.shareVm } s

def sysFork (pid : ℕ) (parent : Proc) (s : Kernel) : Outcome (Option Proc × Kernel) :=
  spawn ⟨false, false, false, 0, 0⟩ pid parent s

/-- `sys_clone` after `reap_zombie_threads`. -/
def sysClone (args : CloneArgs) (pid : ℕ) (parent : Proc) (s : Kernel) :
    Outcome (Option Proc × Kernel) :=
  spawn args pid parent s

end Life

end NoobKernel
