import NoobKernel.Library.Ring
import NoobKernel.Model.Basic

/-! # Scheduling and wait queues

A process has one list node, which links it into the run queue or into a wait queue.
`list_del` leaves the links of the removed node as they were, so a process that is in no
queue still points at its last neighbours. -/

namespace NoobKernel

open Library Function

abbrev esrch : ℤ := 3

namespace Sched

/-- The wait queue in a process, the buckets of the futex table, and all others. -/
inductive WaitQueue where
  | childWait (p : ℕ)
  | futex (bucket : ℕ)
  | other (n : ℕ)
deriving DecidableEq, Repr

/-- The heads of the queues and the nodes in the processes. -/
inductive Node where
  | runq
  | wait (wq : WaitQueue)
  | proc (p : ℕ)
deriving DecidableEq, Repr

inductive ProcState where
  | unused
  | runnable
  | running
  | sleeping
  | zombie
deriving DecidableEq, Repr

/-- The fields of `struct proc` that scheduling reads and writes. `fdTable` tells whether
the process still has its descriptors. -/
structure Proc where
  pid : ℤ
  state : ProcState
  parent : Option ℕ
  children : List ℕ
  exitCode : ℤ
  clearChildTid : ℕ
  futexUaddr : ℕ
  fdTable : Bool

/-- The processes, their links, and the one that runs, where none is the idle process. -/
structure State where
  proc : ℕ → Proc
  links : Links Node
  cur : Option ℕ
  needResched : Bool

def State.states (s : State) (p : ℕ) : ProcState := (s.proc p).state

def setProc (p : ℕ) (f : Proc → Proc) (s : State) : State :=
  { s with proc := update s.proc p (f (s.proc p)) }

def setState (p : ℕ) (st : ProcState) (s : State) : State :=
  setProc p (fun pr => { pr with state := st }) s

def setLinks (f : Links Node → Links Node) (s : State) : State := { s with links := f s.links }

attribute [simps -fullyApplied proc links cur] setProc setLinks

section Setters

variable (s : State) (p : ℕ) (st : ProcState)

@[simp] theorem setState_proc : (setState p st s).proc =
    update s.proc p { s.proc p with state := st } := rfl
@[simp] theorem setState_links : (setState p st s).links = s.links := rfl
@[simp] theorem setState_cur : (setState p st s).cur = s.cur := rfl

end Setters

/-- The process around a list node. A list head lies in no process. -/
def listEntry : Node → Outcome ℕ
  | .proc p => .ok p
  | _ => .error .wild

/-! ## The run queue -/

def enqueueProc (p : ℕ) (s : State) : State := setLinks (·.addTail (.proc p) .runq) s

def dequeueProc (s : State) : Outcome (Option ℕ × State) :=
  if s.links.isEmpty .runq then .ok (none, s)
  else do
    let p ← listEntry (s.links.next .runq)
    .ok (some p, setLinks (·.del (s.links.next .runq)) s)

/-- The switch from `old`, which may itself be the next process. -/
def contextSwitchYield (old : Option ℕ) (s : State) : Outcome State := do
  let (next, s) ← dequeueProc s
  match next with
  | some next => .ok { setState next .running s with cur := some next }
  | none =>
    match old with
    | none => .ok { s with cur := none }
    | some p =>
      if (s.proc p).state ≠ .zombie ∧ (s.proc p).state ≠ .sleeping then
        .ok { setState p .running s with cur := some p }
      else .ok { s with cur := none }

def schedYield (s : State) : Outcome State :=
  let old := s.cur
  let s : State := match old with
    | none => s
    | some p => if (s.proc p).state = .running then enqueueProc p (setState p .runnable s) else s
  contextSwitchYield old { s with cur := none, needResched := false }

/-! ## Wait queues -/

/-- The part of `wait_queue_sleep` under the lock of the queue. -/
def sleepOn (wq : WaitQueue) (p : ℕ) (s : State) : State :=
  setState p .sleeping (setLinks (·.addTail (.proc p) (.wait wq)) s)

def waitQueueSleep (wq : WaitQueue) (p : ℕ) (s : State) : Outcome State :=
  schedYield (sleepOn wq p s)

/-- A process that has been unlinked becomes runnable. -/
def makeRunnable (p : ℕ) (s : State) : State := enqueueProc p (setState p .runnable s)

/-- The loop of `wait_queue_wakeup`. It goes on to the end when `nr` is not positive. -/
def wakeupLoop (wq : WaitQueue) (nr : ℤ) : ℕ → ℕ → State → Outcome (ℕ × State)
  | 0, _, _ => .error .fuel
  | fuel + 1, count, s =>
    if s.links.isEmpty (.wait wq) then .ok (count, s)
    else do
      let lh := s.links.next (.wait wq)
      let s := setLinks (·.del lh) s
      let p ← listEntry lh
      let s := makeRunnable p s
      if nr > 0 ∧ (count + 1 : ℤ) ≥ nr then .ok (count + 1, s)
      else wakeupLoop wq nr fuel (count + 1) s

/-- `need_resched` is set when some process was woken. -/
def noteWakeup (r : ℕ × State) : ℕ × State :=
  if 0 < r.1 then (r.1, { r.2 with needResched := true }) else r

def waitQueueWakeup (fuel : ℕ) (wq : WaitQueue) (nr : ℤ) (s : State) : Outcome (ℕ × State) := do
  let r ← wakeupLoop wq nr fuel 0 s
  .ok (noteWakeup r)

def waitQueueWakeupOne (fuel : ℕ) (wq : WaitQueue) (s : State) : Outcome State := do
  let r ← waitQueueWakeup fuel wq 1 s
  .ok r.2

def waitQueueWakeupAll (fuel : ℕ) (wq : WaitQueue) (s : State) : Outcome State := do
  let r ← waitQueueWakeup fuel wq (-1) s
  .ok r.2

/-- The loop of `wait_queue_wakeup_addr` at the node `pos`; `n` is the node after it. -/
def wakeupAddrLoop (wq : WaitQueue) (uaddr : ℕ) (nr : ℤ) :
    ℕ → Node → Node → ℕ → State → Outcome (ℕ × State)
  | 0, _, _, _, _ => .error .fuel
  | fuel + 1, pos, n, count, s =>
    if pos = .wait wq then .ok (count, s)
    else do
      let p ← listEntry pos
      if (s.proc p).futexUaddr ≠ uaddr then
        wakeupAddrLoop wq uaddr nr fuel n (s.links.next n) count s
      else
        let s := setLinks (·.del pos) s
        let s := setProc p (fun pr => { pr with state := .runnable, futexUaddr := 0 }) s
        let s := enqueueProc p s
        if (count + 1 : ℤ) ≥ nr then .ok (count + 1, s)
        else wakeupAddrLoop wq uaddr nr fuel n (s.links.next n) (count + 1) s

def waitQueueWakeupAddr (fuel : ℕ) (wq : WaitQueue) (uaddr : ℕ) (nr : ℤ) (s : State) :
    Outcome (ℕ × State) :=
  if nr ≤ 0 then .ok (0, s)
  else do
    let pos := s.links.next (.wait wq)
    let r ← wakeupAddrLoop wq uaddr nr fuel pos (s.links.next pos) 0 s
    .ok (noteWakeup r)

/-! ## Futex buckets -/

abbrev futexBuckets : ℕ := 64

def futexBucket (uaddr : ℕ) : WaitQueue := .futex ((uaddr >>> 2) &&& (futexBuckets - 1))

def futexWakeAddr (fuel uaddr : ℕ) (s : State) : Outcome State := do
  let r ← waitQueueWakeupAddr fuel (futexBucket uaddr) uaddr 0x7fffffff s
  .ok r.2

/-! ## Creation, exit and kill -/

/-- A new process from `alloc_proc` enters the run queue. -/
def spawn (p : ℕ) (pid : ℤ) (parent : Option ℕ) (s : State) : State :=
  let s := setProc p (fun _ => ⟨pid, .runnable, parent, [], 0, 0, 0, true⟩) s
  let s := setLinks (·.init (.proc p)) s
  let s := match parent with
    | none => s
    | some q => setProc q (fun pr => { pr with children := pr.children ++ [p] }) s
  enqueueProc p s

/-- `fd_table_free`: closing the descriptors wakes all sleepers of some wait queues. -/
def fdTableFree (fuel : ℕ) : List WaitQueue → State → Outcome State
  | [], s => .ok s
  | wq :: closed, s => do
      let s ← waitQueueWakeupAll fuel wq s
      fdTableFree fuel closed s

def closeAll (fuel : ℕ) (closed : List WaitQueue) (p : ℕ) (s : State) : Outcome State :=
  if (s.proc p).fdTable then do
    let s ← fdTableFree fuel closed s
    .ok (setProc p (fun pr => { pr with fdTable := false }) s)
  else .ok s

def wakeParent (fuel p : ℕ) (s : State) : Outcome State :=
  match (s.proc p).parent with
  | none => .ok s
  | some parent => waitQueueWakeupOne fuel (.childWait parent) s

/-- The wakeup of the threads that join `p` at its `clear_child_tid`. -/
def wakeJoiners (fuel p : ℕ) (s : State) : Outcome State :=
  if (s.proc p).clearChildTid ≠ 0 then futexWakeAddr fuel (s.proc p).clearChildTid s else .ok s

/-- `sys_exit` of the running process `p`, up to the panic behind its last `sched_yield`. -/
def sysExit (fuel : ℕ) (closed : List WaitQueue) (p : ℕ) (status : ℤ) (s : State) :
    Outcome State := do
  let s := setProc p (fun pr => { pr with exitCode := status, futexUaddr := 0 }) s
  let s ← closeAll fuel closed p s
  let s ← wakeJoiners fuel p s
  let s := setState p .zombie s
  let s ← wakeParent fuel p s
  schedYield s

def findChildByPid (parent : ℕ) (pid : ℤ) (s : State) : Option ℕ :=
  (s.proc parent).children.find? (fun c => (s.proc c).pid = pid)

/-- The process that `sys_kill` of process `self` names. -/
def killTarget (self : ℕ) (pid : ℤ) (s : State) : Option ℕ :=
  if pid = (s.proc self).pid then some self
  else
    match findChildByPid self pid s with
    | some target => some target
    | none => (s.proc self).parent.bind (fun parent => findChildByPid parent pid s)

/-- The list operations of `sys_kill`. -/
def unlinkTarget (target : ℕ) (s : State) : State :=
  if !s.links.isEmpty (.proc target) then
    setLinks (fun L => (L.del (.proc target)).init (.proc target)) s
  else s

def sysKill (fuel : ℕ) (closed : List WaitQueue) (self : ℕ) (pid sig : ℤ) (s : State) :
    Outcome (ℤ × State) :=
  if sig = 0 then .ok (0, s)
  else if pid ≤ 0 then .ok (-einval, s)
  else
    match killTarget self pid s with
    | none => .ok (-esrch, s)
    | some target =>
      if sig = 9 ∨ sig = 15 then do
        let s := unlinkTarget target s
        let s := setProc target (fun pr => { pr with exitCode := -sig, state := .zombie }) s
        let s ← closeAll fuel closed target s
        let s ← wakeParent fuel target s
        if target = self then do
          let s ← schedYield s
          .ok (0, s)
        else .ok (0, s)
      else .ok (0, s)

/-! ## Runs -/

/-- No process exists and the queues are empty. -/
def boot : State where
  proc _ := ⟨0, .unused, none, [], 0, 0, 0, false⟩
  links := ⟨id, id⟩
  cur := none
  needResched := false

/-- The steps of the kernel on the queues. `Ok` restricts the signals. -/
inductive Run (Ok : ℕ → ℤ → ℤ → State → Prop) : State → Prop
  | boot : Run Ok boot
  | spawn {s : State} (p : ℕ) (pid : ℤ) (parent : Option ℕ) :
      Run Ok s → s.states p = .unused → Run Ok (spawn p pid parent s)
  | yield {s s' : State} : Run Ok s → schedYield s = .ok s' → Run Ok s'
  | sleep {s s' : State} (wq : WaitQueue) (p : ℕ) :
      Run Ok s → s.cur = some p → waitQueueSleep wq p s = .ok s' → Run Ok s'
  | wakeup {s : State} (fuel : ℕ) (wq : WaitQueue) (nr : ℤ) (r : ℕ × State) :
      Run Ok s → waitQueueWakeup fuel wq nr s = .ok r → Run Ok r.2
  | wakeupAddr {s : State} (fuel : ℕ) (wq : WaitQueue) (uaddr : ℕ) (nr : ℤ) (r : ℕ × State) :
      Run Ok s → waitQueueWakeupAddr fuel wq uaddr nr s = .ok r → Run Ok r.2
  | setFutexUaddr {s : State} (p uaddr : ℕ) :
      Run Ok s → s.cur = some p →
      Run Ok (setProc p (fun pr => { pr with futexUaddr := uaddr }) s)
  | setTidAddress {s : State} (p uaddr : ℕ) :
      Run Ok s → s.cur = some p →
      Run Ok (setProc p (fun pr => { pr with clearChildTid := uaddr }) s)
  | exit {s s' : State} (fuel : ℕ) (closed : List WaitQueue) (p : ℕ) (status : ℤ) :
      Run Ok s → s.cur = some p → sysExit fuel closed p status s = .ok s' → Run Ok s'
  | kill {s : State} (fuel : ℕ) (closed : List WaitQueue) (self : ℕ) (pid sig : ℤ)
      (r : ℤ × State) :
      Run Ok s → s.cur = some self → Ok self pid sig s →
      sysKill fuel closed self pid sig s = .ok r → Run Ok r.2

end Sched

end NoobKernel
