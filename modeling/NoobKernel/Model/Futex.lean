import NoobKernel.Model.Sched

/-! # Futexes

Threads call `sys_futex` and store to futex words. The part of a call under the lock of its
bucket is one step, and so is the part of `FUTEX_WAIT` behind its `sched_yield`. -/

namespace NoobKernel

open Function

open Library

abbrev eagain : ℤ := 11

namespace Futex

/-- `int`, as futex words and the argument `val` are read. -/
abbrev Word := BitVec 32

/-- Where a thread is: in user code after a call returned `ret`, at the head of the loop of
`FUTEX_WAIT`, or behind its entry into the wait queue. -/
inductive Point where
  | user (ret : ℤ)
  | waitTop (uaddr : ℕ) (val : Word)
  | asleep (uaddr : ℕ) (val : Word)
deriving DecidableEq, Repr

/-- The scheduler, the mapped words of each address space and the points of the threads.
`since` and `clock` are ghosts: the time when a thread went to sleep. -/
structure State where
  sched : Sched.State
  mem : ℕ → ℕ → Option Word
  point : ℕ → Point
  since : ℕ → ℕ
  clock : ℕ

def goto (p : ℕ) (pt : Point) (s : State) : State := { s with point := update s.point p pt }

abbrev futexCmdMask : Word := ~~~(128 ||| 256)

/-- `sys_futex` up to the loop of `FUTEX_WAIT`. -/
def sysFutex (fuel p uaddr : ℕ) (futexOp val : Word) (s : State) : Outcome State :=
  let op := futexOp &&& futexCmdMask
  if uaddr &&& 3 ≠ 0 then .ok (goto p (.user (-einval)) s)
  else if op = 0 ∨ op = 9 then .ok (goto p (.waitTop uaddr val) s)
  else if op = 1 ∨ op = 10 then
    if val.toInt ≤ 0 then .ok (goto p (.user 0) s)
    else do
      let r ← Sched.waitQueueWakeupAddr fuel (Sched.futexBucket uaddr) uaddr val.toInt s.sched
      .ok (goto p (.user r.1) { s with sched := r.2 })
  else .ok (goto p (.user (-enosys)) s)

/-- The entry of a thread into the wait queue of its bucket. -/
def enterQueue (p uaddr : ℕ) (val : Word) (s : State) : State :=
  let sched := Sched.setProc p (fun pr => { pr with futexUaddr := uaddr }) s.sched
  { s with
    sched := Sched.sleepOn (Sched.futexBucket uaddr) p sched
    point := update s.point p (.asleep uaddr val)
    since := update s.since p s.clock
    clock := s.clock + 1 }

/-- The part of the loop of `FUTEX_WAIT` under the lock; `m` is the memory of the thread. -/
def waitSection (m : ℕ → Option Word) (p uaddr : ℕ) (val : Word) (s : State) : State :=
  match m uaddr with
  | none => goto p (.user (-efault)) s
  | some cur => if cur ≠ val then goto p (.user (-eagain)) s else enterQueue p uaddr val s

/-- The rest of the loop, when the thread runs again. -/
def waitResume (m : ℕ → Option Word) (p uaddr : ℕ) (val : Word) (s : State) : State :=
  let sched := Sched.setProc p (fun pr => { pr with futexUaddr := 0 }) s.sched
  match m uaddr with
  | none => goto p (.user (-efault)) { s with sched }
  | some cur =>
    if cur ≠ val then goto p (.user 0) { s with sched }
    else goto p (.waitTop uaddr val) { s with sched }

/-- The steps of the system. `vm` gives the address space of a thread. Calls and stores may
come from any thread, so also from one on another hart. -/
inductive Step (vm : ℕ → ℕ) : State → State → Prop
  | spawn {s : State} (p : ℕ) (pid : ℤ) (parent : Option ℕ) :
      s.sched.states p = .unused →
      Step vm s (goto p (.user 0) { s with sched := Sched.spawn p pid parent s.sched })
  | yield {s : State} (sched : Sched.State) :
      Sched.schedYield s.sched = .ok sched → Step vm s { s with sched }
  | store {s : State} (p uaddr : ℕ) (w : Word) : s.mem (vm p) uaddr ≠ none →
      Step vm s { s with
        mem := update s.mem (vm p) (update (s.mem (vm p)) uaddr (some w)) }
  | call {s s' : State} (fuel p uaddr : ℕ) (futexOp val : Word) (ret : ℤ) :
      s.point p = .user ret → sysFutex fuel p uaddr futexOp val s = .ok s' → Step vm s s'
  | wait {s : State} (p uaddr : ℕ) (val : Word) :
      s.sched.states p = .running → s.point p = .waitTop uaddr val →
      Step vm s (waitSection (s.mem (vm p)) p uaddr val s)
  | resume {s : State} (p uaddr : ℕ) (val : Word) :
      s.sched.states p = .running → s.point p = .asleep uaddr val →
      Step vm s (waitResume (s.mem (vm p)) p uaddr val s)

/-- The start: no thread exists. -/
def initial (mem : ℕ → ℕ → Option Word) : State := ⟨Sched.boot, mem, fun _ => .user 0, fun _ => 0, 0⟩

inductive Run (vm : ℕ → ℕ) : State → Prop
  | initial (mem : ℕ → ℕ → Option Word) : Run vm (initial mem)
  | step {s s' : State} : Run vm s → Step vm s s' → Run vm s'

end Futex

end NoobKernel
