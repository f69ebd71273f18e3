import NoobKernel.Library.Prog
import NoobKernel.Model.FdTable
import NoobKernel.Model.Sched
import Mathlib.Data.Multiset.AddSub

/-! # System calls on open files

The system calls that take, pass on and give back references to open files, as programs of
atomic operations: what happens under one lock is one operation, and other processes may run in
between. Freeing a table and clearing the pointer to it is one operation as well. -/

namespace NoobKernel

open Function

open Library

namespace Files

/-- The operations of the system calls. `ask` stands for the parts of the kernel that do not
touch references, such as `copyin`, `file_read` and the allocation of pages. -/
inductive Op where
  | fdGet (fd : ℤ)
  | fdAlloc
  | dupfdAlloc (minfd : ℕ)
  | dup3Grow (newfd : ℕ)
  | fdInstall (fd : ℤ) (f : ℕ)
  | fdFree (fd : ℤ)
  | fileGet (f : ℕ)
  | filePut (f : ℕ)
  | vfsOpen
  | pipeFiles
  | ask
  | allocProc
  | childFree
  | childDup
  | childDrop
  | enqueue
  | reap
  | fdTableFree (p : ℕ)
  | zombie (p : ℕ)
  | target
deriving DecidableEq, Repr

@[reducible] def Ans : Op → Type
  | .fdGet _ | .vfsOpen | .target => Option ℕ
  | .pipeFiles => Option (ℕ × ℕ)
  | .allocProc | .childDup => Bool
  | .fdAlloc | .dupfdAlloc _ | .dup3Grow _ | .fdInstall _ _ | .ask | .enqueue => ℤ
  | .fdFree _ | .fileGet _ | .filePut _ | .childFree | .childDrop | .reap | .fdTableFree _
  | .zombie _ => Unit

abbrev Code := Prog Op Ans

abbrev perform (op : Op) : Code (Ans op) := Prog.perform op

/-! ## Descriptors -/

def sysClose (fd : ℤ) : Code ℤ := do
  perform (.fdFree fd)
  return 0

/-- The end of `sys_dup`, `sys_dup3` and `F_DUPFD`: the slot gets a reference of its own. -/
def installDup (f : ℕ) (newfd : ℤ) : Code ℤ := do
  perform (.fileGet f)
  if (← perform (.fdInstall newfd f)) < 0 then
    perform (.filePut f)
    perform (.filePut f)
    return -ebadf
  else
    perform (.filePut f)
    return newfd

def sysDup (oldfd : ℤ) : Code ℤ := do
  match ← perform (.fdGet oldfd) with
  | none => return -ebadf
  | some f =>
    let newfd ← perform .fdAlloc
    if newfd < 0 then
      perform (.filePut f)
      return -emfile
    else installDup f newfd

def sysDup3 (oldfd newfd : ℤ) : Code ℤ :=
  if newfd < 0 then return -ebadf
  else do
    let r ← perform (.dup3Grow newfd.toNat)
    if r < 0 then return r
    else if oldfd = newfd then return -einval
    else
      match ← perform (.fdGet oldfd) with
      | none => return -ebadf
      | some f =>
        perform (.fdFree newfd)
        installDup f newfd

/-- `sys_fcntl`; the commands other than `F_DUPFD` look at a file and give it back. -/
def sysFcntl (fd : ℤ) (cmd : ℕ) (arg : ℤ) : Code ℤ := do
  match ← perform (.fdGet fd) with
  | none => return -ebadf
  | some f =>
    if cmd = 0 ∨ cmd = 1030 then
      let newfd ← perform (.dupfdAlloc arg.toNat)
      if newfd < 0 then
        perform (.filePut f)
        return -emfile
      else installDup f newfd
    else
      let flags ← perform .ask
      perform (.filePut f)
      return flags

def fdFreeIf (fd : ℤ) : Code Unit := if fd ≥ 0 then perform (.fdFree fd) else pure ()

/-- `sys_pipe2`. `pipeFiles` is the two `file_alloc`, which are taken to succeed, and
`pipe_create`. -/
def sysPipe2 : Code ℤ := do
  match ← perform .pipeFiles with
  | none => return -enomem
  | some (rf, wf) =>
    let rfd ← perform .fdAlloc
    let wfd ← perform .fdAlloc
    if rfd < 0 ∨ wfd < 0 then
      fdFreeIf rfd
      fdFreeIf wfd
      perform (.filePut rf)
      perform (.filePut wf)
      return -emfile
    else
      let _ ← perform (.fdInstall rfd rf)
      let _ ← perform (.fdInstall wfd wf)
      if (← perform .ask) < 0 then
        perform (.fdFree rfd)
        perform (.fdFree wfd)
        return -efault
      else return 0

/-! ## Opening -/

/-- The end of `sys_openat`. An error of `fd_install` gives the file back only if `put`. -/
def openFd (put : Bool) (f : ℕ) : Code ℤ := do
  let fd ← perform .fdAlloc
  if fd < 0 then
    perform (.filePut f)
    return -emfile
  else if (← perform (.fdInstall fd f)) < 0 then
    if put then
      perform (.filePut f)
      return -ebadf
    else return -ebadf
  else return fd

/-- The descriptor for a file, or the error of the function that did not open it. -/
def openResult (put : Bool) : Option ℕ → Code ℤ
  | none => perform .ask
  | some f => openFd put f

/-- The files of `/proc` and `/dev` that `sys_openat` makes itself. -/
def openPseudo : Code ℤ := do
  let file ← perform .vfsOpen
  openResult true file

/-- `resolve_dirfd_base`; a path may be relative to an open directory, which is kept when it has
a dentry. -/
def resolveDirfdBase (relative : Bool) (dirfd : ℤ) : Code (Option ℕ) :=
  if !relative then return none
  else do
    match ← perform (.fdGet dirfd) with
    | none => return none
    | some dirFile =>
      if (← perform .ask) < 0 then
        perform (.filePut dirFile)
        return none
      else return some dirFile

def putDirFile : Option ℕ → Code Unit
  | none => pure ()
  | some dirFile => perform (.filePut dirFile)

def sysOpenat (pseudo relative : Bool) (dirfd : ℤ) : Code ℤ := do
  if (← perform .ask) < 0 then return -efault
  else if pseudo then openPseudo
  else
    let dirFile ← resolveDirfdBase relative dirfd
    let file ← perform .vfsOpen
    putDirFile dirFile
    openResult false file

/-! ## Reading and writing -/

/-- The loop of `sys_read`; each of its `fuel` rounds reads a byte at least. -/
def readLoop (f len : ℕ) : ℕ → ℕ → Code ℤ
  | 0, done => do
      perform (.filePut f)
      return done
  | fuel + 1, done =>
    if len ≤ done then do
      perform (.filePut f)
      return done
    else do
      let n := min (len - done) 512
      let ret ← perform .ask
      if ret < 0 then
        perform (.filePut f)
        return if done > 0 then (done : ℤ) else ret
      else if ret = 0 then
        perform (.filePut f)
        return done
      else if (← perform .ask) < 0 then
        perform (.filePut f)
        return if done > 0 then (done : ℤ) else -efault
      else if ret < n then
        perform (.filePut f)
        return (done + ret.toNat : ℕ)
      else readLoop f len fuel (done + ret.toNat)

def sysRead (fd : ℤ) (len : ℕ) : Code ℤ :=
  if len = 0 then return 0
  else do
    match ← perform (.fdGet fd) with
    | none => return -ebadf
    | some f => readLoop f len len 0

/-- The loop of `sys_write`. -/
def writeLoop (f len : ℕ) : ℕ → ℕ → Code ℤ
  | 0, done => do
      perform (.filePut f)
      return done
  | fuel + 1, done =>
    if len ≤ done then do
      perform (.filePut f)
      return done
    else do
      let n := min (len - done) 512
      if (← perform .ask) < 0 then
        perform (.filePut f)
        return if done > 0 then (done : ℤ) else -efault
      else
        let ret ← perform .ask
        if ret < 0 then
          perform (.filePut f)
          return if done > 0 then (done : ℤ) else ret
        else if ret < n then
          perform (.filePut f)
          return (done + ret.toNat : ℕ)
        else writeLoop f len fuel (done + ret.toNat)

/-- `sys_write`. The descriptors 1 and 2 reach the console when they are not open. -/
def sysWrite (fd : ℤ) (len : ℕ) : Code ℤ :=
  if len = 0 then return 0
  else do
    match ← perform (.fdGet fd) with
    | none => if fd = 1 ∨ fd = 2 then perform .ask else return -ebadf
    | some f => writeLoop f len len 0

/-! ## Processes -/

/-- The labels at the end of `sys_fork` and `sys_clone` from `fail_freetable` on. -/
def forkFailed : Code ℤ := do
  perform .childFree
  perform .childDrop
  return -enomem

/-- The part of `sys_fork` and `sys_clone` behind `fd_table_dup`: `asks` allocations and copies
may fail before the child is complete. -/
def forkRest : ℕ → Code ℤ
  | 0 => perform .enqueue
  | asks + 1 => do
      if (← perform .ask) < 0 then forkFailed else forkRest asks

/-- The part of `sys_fork` and `sys_clone` that makes the child. -/
def forkChild (asks : ℕ) : Code ℤ := do
  if !(← perform .allocProc) then return -enomem
  else if (← perform .ask) < 0 then
    perform .childDrop
    return -enomem
  else if (← perform .ask) < 0 then
    perform .childDrop
    return -enomem
  else
    perform .childFree
    if !(← perform .childDup) then
      perform .childDrop
      return -enomem
    else forkRest asks

/-- `sys_fork`: a stack, a trap frame and two mappings may fail. -/
def sysFork : Code ℤ := forkChild 4

/-- The loop of `reap_zombie_threads` over `n` children. -/
def reapLoop : ℕ → Code Unit
  | 0 => return ()
  | n + 1 => do
      perform .reap
      reapLoop n

def reapZombieThreads : Code Unit := do
  let children ← perform .ask
  reapLoop children.toNat

/-- `sys_clone`: besides, identifiers may have to be copied out. -/
def sysClone (thread : Bool) (settids : ℕ) : Code ℤ :=
  if thread then do
    reapZombieThreads
    forkChild (4 + settids)
  else forkChild (4 + settids)

def sysExit (self : ℕ) : Code ℤ := do
  perform (.fdTableFree self)
  perform (.zombie self)
  return 0

/-- `execve_die`, in which the process is a zombie before its table is freed. -/
def execveDie (self : ℕ) : Code ℤ := do
  perform (.zombie self)
  perform (.fdTableFree self)
  return 0

/-- The part of `sys_execve` with the dynamic linker. -/
def execveInterp (self : ℕ) : Code ℤ := do
  match ← perform .vfsOpen with
  | none => execveDie self
  | some interp =>
    if (← perform .ask) < 0 then
      perform (.filePut interp)
      execveDie self
    else
      let rc ← perform .ask
      perform (.filePut interp)
      if rc ≠ 0 then execveDie self else perform .ask

/-- `sys_execve` from the check of the ELF header on. -/
def execveElf (self f : ℕ) : Code ℤ := do
  if (← perform .ask) < 0 then
    perform (.filePut f)
    return -enoexec
  else
    let argc ← perform .ask
    if argc < 0 then
      perform (.filePut f)
      return argc
    else
      let envc ← perform .ask
      if envc < 0 then
        perform (.filePut f)
        return envc
      else if (← perform .ask) ≠ 0 then
        perform (.filePut f)
        execveDie self
      else
        perform (.filePut f)
        if (← perform .ask) < 0 then perform .ask else execveInterp self

/-- `sys_execve` as far as files go. For a script the file is closed and its interpreter is
opened. -/
def sysExecve (self : ℕ) (script : Bool) : Code ℤ := do
  if (← perform .ask) < 0 then return -efault
  else
    match ← perform .vfsOpen with
    | none => perform .ask
    | some f =>
      if script then
        perform (.filePut f)
        if (← perform .ask) < 0 then return -enoexec
        else
          match ← perform .vfsOpen with
          | none => perform .ask
          | some f => execveElf self f
      else execveElf self f

/-- `sys_kill` as far as files go; `sig` other than 9 and 15 does nothing. -/
def sysKill (sig : ℤ) : Code ℤ := do
  match ← perform .target with
  | none => return -esrch
  | some q =>
    if sig = 9 ∨ sig = 15 then
      perform (.zombie q)
      perform (.fdTableFree q)
      return 0
    else return 0

/-- The system calls on open files. -/
inductive Call where
  | openat (pseudo relative : Bool) (dirfd : ℤ)
  | close (fd : ℤ)
  | dup (oldfd : ℤ)
  | dup3 (oldfd newfd : ℤ)
  | fcntl (fd : ℤ) (cmd : ℕ) (arg : ℤ)
  | pipe2
  | read (fd : ℤ) (len : ℕ)
  | write (fd : ℤ) (len : ℕ)
  | fork
  | clone (thread : Bool) (settids : ℕ)
  | execve (script : Bool)
  | exit
  | kill (sig : ℤ)
deriving DecidableEq, Repr

/-- The code that process `self` runs for a call. -/
def Call.code (self : ℕ) : Call → Code ℤ
  | .openat pseudo relative dirfd => sysOpenat pseudo relative dirfd
  | .close fd => sysClose fd
  | .dup oldfd => sysDup oldfd
  | .dup3 oldfd newfd => sysDup3 oldfd newfd
  | .fcntl fd cmd arg => sysFcntl fd cmd arg
  | .pipe2 => sysPipe2
  | .read fd len => sysRead fd len
  | .write fd len => sysWrite fd len
  | .fork => sysFork
  | .clone thread settids => sysClone thread settids
  | .execve script => sysExecve self script
  | .exit => sysExit self
  | .kill sig => sysKill sig

/-! ## The kernel -/

/-- A process: its descriptors, those of the child that its call is making, the references that
its call has taken and not yet stored in a slot or given back, whether it is a zombie, and the
rest of its call. -/
structure Proc where
  fdTable : Option FdTable
  child : Option FdTable
  held : Multiset ℕ
  zombie : Bool
  code : Option (Code ℤ)

/-- The processes with numbers below `nproc` exist, and `cur` runs. -/
structure State where
  heap : Heap
  proc : ℕ → Proc
  nproc : ℕ
  cur : ℕ

def setProc (p : ℕ) (pr : Proc) (s : State) : State := { s with proc := update s.proc p pr }

/-- What the rest of the kernel answers: whether memory is found, at which addresses, and the
result of a call. -/
structure Answer where
  room : Bool
  addr : ℕ
  addr' : ℕ
  pipe : ℕ
  value : ℤ
deriving DecidableEq, Repr

/-- `pipe_create` for two new files. -/
def pipeCreate (k rf wf : ℕ) (h : Heap) : Heap :=
  setPipe k (some ⟨1, 1⟩) (setFile rf (some ⟨1, .readEnd k⟩) (setFile wf (some ⟨1, .writeEnd k⟩) h))

/-- The table of a process is freed and its pointer cleared. -/
def closeTable (q : ℕ) (s : State) : Outcome State :=
  match (s.proc q).fdTable with
  | none => .ok s
  | some fdt => do
      let heap ← fdTableFree fdt s.heap
      .ok (setProc q { s.proc q with fdTable := none } { s with heap })

/-- An operation of process `p`. -/
def exec (p : ℕ) (ans : Answer) (s : State) : (op : Op) → Outcome (Ans op × State)
  | .fdGet fd =>
    match (s.proc p).fdTable with
    | none => .ok (none, s)
    | some fdt => do
        let (r, heap) ← Files.fdGet fd fdt s.heap
        match r with
        | none => .ok (none, { s with heap })
        | some f => .ok (some f,
            setProc p { s.proc p with held := f ::ₘ (s.proc p).held } { s with heap })
  | .fdAlloc =>
    match (s.proc p).fdTable with
    | none => .ok (-einval, s)
    | some fdt => do
        let (r, fdt) ← Files.fdAlloc ans.room fdt
        .ok (r, setProc p { s.proc p with fdTable := some fdt } s)
  | .dupfdAlloc minfd =>
    match (s.proc p).fdTable with
    | none => .error .wild
    | some fdt => do
        let (r, fdt) ← Files.dupfdAlloc minfd fdt
        .ok (r, setProc p { s.proc p with fdTable := some fdt } s)
  | .dup3Grow newfd =>
    match (s.proc p).fdTable with
    | none => .error .wild
    | some fdt => do
        let (r, fdt) ← Files.dup3Grow ans.room newfd fdt
        .ok (r, setProc p { s.proc p with fdTable := some fdt } s)
  | .fdInstall fd f =>
    match (s.proc p).fdTable with
    | none => .ok (-einval, s)
    | some fdt => do
        let (r, fdt) ← Files.fdInstall fd f fdt
        let held := (s.proc p).held
        .ok (r, setProc p { s.proc p with
          fdTable := some fdt, held := if r = 0 then held.erase f else held } s)
  | .fdFree fd =>
    match (s.proc p).fdTable with
    | none => .ok ((), s)
    | some fdt => do
        let (fdt, heap) ← Files.fdFree fd fdt s.heap
        .ok ((), setProc p { s.proc p with fdTable := some fdt } { s with heap })
  | .fileGet f => do
      let heap ← Files.fileGet f s.heap
      .ok ((), setProc p { s.proc p with held := f ::ₘ (s.proc p).held } { s with heap })
  | .filePut f => do
      let heap ← Files.filePut f s.heap
      .ok ((), setProc p { s.proc p with held := (s.proc p).held.erase f } { s with heap })
  | .vfsOpen =>
    if ans.room ∧ s.heap.file ans.addr = none then
      .ok (some ans.addr, setProc p { s.proc p with held := ans.addr ::ₘ (s.proc p).held }
        { s with heap := setFile ans.addr (some ⟨1, .other⟩) s.heap })
    else .ok (none, s)
  | .pipeFiles =>
    if ans.room ∧ s.heap.file ans.addr = none ∧ s.heap.file ans.addr' = none ∧
        ans.addr ≠ ans.addr' ∧ s.heap.pipe ans.pipe = none then
      .ok (some (ans.addr, ans.addr'), setProc p
        { s.proc p with held := ans.addr ::ₘ ans.addr' ::ₘ (s.proc p).held }
        { s with heap := pipeCreate ans.pipe ans.addr ans.addr' s.heap })
    else .ok (none, s)
  | .ask => .ok (ans.value, s)
  | .allocProc =>
    match fdTableAlloc ans.room with
    | none => .ok (false, s)
    | some fdt => .ok (true, setProc p { s.proc p with child := some fdt } s)
  | .childFree =>
    match (s.proc p).child with
    | none => .ok ((), s)
    | some fdt => do
        let heap ← Files.fdTableFree fdt s.heap
        .ok ((), setProc p { s.proc p with child := none } { s with heap })
  | .childDup =>
    match (s.proc p).fdTable with
    | none => .ok (false, s)
    | some fdt => do
        let (r, heap) ← fdTableDup ans.room fdt s.heap
        .ok (r.isSome, setProc p { s.proc p with child := r } { s with heap })
  | .childDrop => .ok ((), setProc p { s.proc p with child := none } s)
  | .enqueue =>
    .ok (ans.value, setProc p { s.proc p with child := none }
      { setProc s.nproc ⟨(s.proc p).child, none, 0, false, none⟩ s with nproc := s.nproc + 1 })
  | .reap =>
    if ans.addr < s.nproc ∧ ans.addr ≠ p ∧ (s.proc ans.addr).zombie then do
      let s ← closeTable ans.addr s
      .ok ((), s)
    else .ok ((), s)
  | .fdTableFree q => do
      let s ← closeTable q s
      .ok ((), s)
  | .zombie q => .ok ((), setProc q { s.proc q with zombie := true } s)
  | .target => if ans.room ∧ ans.addr < s.nproc then .ok (some ans.addr, s) else .ok (none, s)

/-- The events of a run: a process enters the kernel with a call, or takes the next operation
of its call. -/
inductive Event where
  | start (p : ℕ) (c : Call)
  | step (p : ℕ) (ans : Answer)
deriving DecidableEq, Repr

/-- A zombie goes on only until another process runs. -/
def State.CanRun (s : State) (p : ℕ) : Prop := p < s.nproc ∧ ((s.proc p).zombie = false ∨ s.cur = p)

instance (s : State) (p : ℕ) : Decidable (s.CanRun p) := inferInstanceAs (Decidable (_ ∧ _))

def next (e : Event) (s : State) : Outcome State :=
  match e with
  | .start p c =>
    if s.CanRun p ∧ (s.proc p).zombie = false ∧ (s.proc p).code.isNone then
      .ok { setProc p { s.proc p with code := some (c.code p) } s with cur := p }
    else .ok s
  | .step p ans =>
    if s.CanRun p then
      match (s.proc p).code with
      | none => .ok s
      | some (.ret _) => .ok { setProc p { s.proc p with code := none } s with cur := p }
      | some (.call op rest) => do
          let (a, s) ← exec p ans s op
          .ok { setProc p { s.proc p with code := some (rest a) } s with cur := p }
    else .ok s

/-- The first process, with the console at its first three descriptors. -/
def boot : State where
  heap := ⟨update (fun _ => none) 0 (some ⟨3, .other⟩), fun _ => none⟩
  proc := update (fun _ => ⟨none, none, 0, false, none⟩) 0
    ⟨some ⟨[.file 0, .file 0, .file 0] ++ List.replicate 29 .null, nrOpenDefault, 3⟩, none, 0,
      false, none⟩
  nproc := 1
  cur := 0

/-- The runs whose events satisfy `Ok`. -/
inductive Run (Ok : Event → State → Prop) : State → Prop
  | boot : Run Ok boot
  | next {s s' : State} (e : Event) : Run Ok s → Ok e s → next e s = .ok s' → Run Ok s'

end Files

end NoobKernel
