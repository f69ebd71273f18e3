import NoobKernel.Model.Sched

/-! # Waiting for children

`sys_wait4` looks through the children under the lock of the process and then goes to sleep
under the lock of its wait queue. A switch may happen wherever no lock is held. -/

namespace NoobKernel

open Library

abbrev echild : ℤ := 10

namespace Wait4

/-- Where a process is: in other code after a call returned `ret`; in `sys_wait4` before it
looks at the children, between that and its entry into the wait queue, or behind the entry;
in `sys_exit` with its descriptors closed, as a zombie, or behind the wakeup of its parent. -/
inductive Point where
  | other (ret : ℤ)
  | waitTop (pid : ℤ)
  | waitWindow (pid : ℤ)
  | waitAsleep (pid : ℤ)
  | exiting
  | exitZombie
  | exitDone
deriving DecidableEq, Repr

structure State where
  sched : Sched.State
  point : ℕ → Point

def goto (p : ℕ) (pt : Point) (s : State) : State :=
  { s with point := Function.update s.point p pt }

/-- The test `target == -1 || target == child->pid`. -/
def Matches (s : Sched.State) (target : ℤ) (child : ℕ) : Prop :=
  target = -1 ∨ target = (s.proc child).pid

instance (s : Sched.State) (target : ℤ) (child : ℕ) : Decidable (Matches s target child) :=
  inferInstanceAs (Decidable (_ ∨ _))

/-- The child leaves the list of its parent and is freed. -/
def reap (p child : ℕ) (s : Sched.State) : Sched.State :=
  let s := Sched.setProc child (fun pr => { pr with parent := none, state := .unused }) s
  Sched.setProc p (fun pr => { pr with children := pr.children.filter (· ≠ child) }) s

/-- The part of `sys_wait4` under the lock of the process. `copied` tells whether the status
could be copied out. -/
def scanChildren (p : ℕ) (pid : ℤ) (copied : Bool) (s : State) : State :=
  match (s.sched.proc p).children.find?
      (fun c => Matches s.sched pid c ∧ s.sched.states c = .zombie) with
  | some child =>
    if copied then
      goto p (.other (s.sched.proc child).pid) { s with sched := reap p child s.sched }
    else goto p (.other (-efault)) s
  | none =>
    if (s.sched.proc p).children.any (fun c => Matches s.sched pid c) then
      goto p (.waitWindow pid) s
    else goto p (.other (-echild)) s

/-- The part of `sys_exit` before the process becomes a zombie. -/
def exitStart (fuel : ℕ) (closed : List Sched.WaitQueue) (p : ℕ) (status : ℤ)
    (s : Sched.State) : Outcome Sched.State := do
  let s := Sched.setProc p (fun pr => { pr with exitCode := status, futexUaddr := 0 }) s
  let s ← Sched.closeAll fuel closed p s
  Sched.wakeJoiners fuel p s

/-- The steps of the processes. `Ok` restricts the wakeups in `sys_exit`. -/
inductive Run (Ok : ℕ → State → Prop) : State → Prop
  | boot : Run Ok ⟨Sched.boot, fun _ => .other 0⟩
  | spawn {s : State} (p : ℕ) (pid : ℤ) (parent : Option ℕ) : Run Ok s →
      s.sched.states p = .unused → parent ≠ some p →
      Run Ok (goto p (.other 0) { s with sched := Sched.spawn p pid parent s.sched })
  | yield {s : State} (sched : Sched.State) : Run Ok s →
      Sched.schedYield s.sched = .ok sched → Run Ok { s with sched }
  | wait4 {s : State} (p : ℕ) (pid ret : ℤ) : Run Ok s →
      s.sched.states p = .running → s.point p = .other ret → Run Ok (goto p (.waitTop pid) s)
  | scan {s : State} (p : ℕ) (pid : ℤ) (copied : Bool) : Run Ok s →
      s.sched.states p = .running → s.point p = .waitTop pid →
      Run Ok (scanChildren p pid copied s)
  | sleep {s : State} (p : ℕ) (pid : ℤ) : Run Ok s →
      s.sched.states p = .running → s.point p = .waitWindow pid →
      Run Ok (goto p (.waitAsleep pid) { s with sched := Sched.sleepOn (.childWait p) p s.sched })
  | resume {s : State} (p : ℕ) (pid : ℤ) : Run Ok s →
      s.sched.states p = .running → s.point p = .waitAsleep pid → Run Ok (goto p (.waitTop pid) s)
  | exit {s : State} (fuel : ℕ) (closed : List Sched.WaitQueue) (p : ℕ) (status ret : ℤ)
      (sched : Sched.State) : Run Ok s →
      s.sched.states p = .running → s.point p = .other ret →
      exitStart fuel closed p status s.sched = .ok sched →
      Run Ok (goto p .exiting { s with sched })
  | zombie {s : State} (p : ℕ) : Run Ok s →
      s.sched.states p = .running → s.point p = .exiting →
      Run Ok (goto p .exitZombie { s with sched := Sched.setState p .zombie s.sched })
  | wake {s : State} (fuel p : ℕ) (sched : Sched.State) : Run Ok s →
      s.sched.cur = some p → s.point p = .exitZombie → Ok p s →
      Sched.wakeParent fuel p s.sched = .ok sched →
      Run Ok (goto p .exitDone { s with sched })

end Wait4

end NoobKernel
