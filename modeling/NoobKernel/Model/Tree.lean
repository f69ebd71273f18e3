import NoobKernel.Model.Wait4

/-! # The process tree

The links between parents and children as the system calls read and write them. A system call
is one step here. The address space, the files and the queues of a process are left out. -/

namespace NoobKernel

open Function

open Library

namespace Tree

structure Proc where
  pid : ℤ
  parent : Option ℕ
  children : List ℕ
  zombie : Bool
  vmShared : Bool
deriving DecidableEq, Repr

/-- The processes by the address of their structure. A freed structure is none. -/
abbrev State := ℕ → Option Proc

/-- A structure is read. -/
def load (p : ℕ) (s : State) : Outcome Proc :=
  match s p with
  | none => .error .wild
  | some pr => .ok pr

def store (p : ℕ) (pr : Proc) (s : State) : State := update s p (some pr)

/-- `list_del` takes a child out of the list of a process. -/
def listDel (p child : ℕ) (s : State) : Outcome State := do
  let pr ← load p s
  .ok (store p { pr with children := pr.children.erase child } s)

/-- `wait_queue_wakeup_one(&p->parent->child_wait)`, if there is a parent. -/
def wakeParent (parent : Option ℕ) (s : State) : Outcome Unit :=
  match parent with
  | none => .ok ()
  | some parent => do
      let _ ← load parent s
      .ok ()

/-- `alloc_proc`, at an address that is not in use. -/
def allocProc (room : Bool) (p : ℕ) (s : State) : Option State :=
  if room && (s p).isNone then some (store p ⟨0, none, [], false, false⟩ s) else none

def freeProc (p : ℕ) (s : State) : Outcome State := do
  let pr ← load p s
  match pr.parent with
  | none => .ok (update s p none)
  | some parent => do
      let s ← listDel parent p s
      .ok (update s p none)

/-- A child leaves the list of its parent and is freed, in `sys_wait4` and
`reap_zombie_threads`. -/
def reap (p child : ℕ) (s : State) : Outcome State := do
  let pr ← load child s
  let s := store child { pr with parent := none } s
  let s ← listDel p child s
  freeProc child s

/-- The loop of `reap_zombie_threads` over the children. -/
def reapLoop (parent : ℕ) : List ℕ → State → Outcome State
  | [], s => .ok s
  | child :: rest, s => do
      let pr ← load child s
      if !pr.vmShared || !pr.zombie then reapLoop parent rest s
      else do
        let s ← reap parent child s
        reapLoop parent rest s

def reapZombieThreads (parent : ℕ) (s : State) : Outcome State := do
  let pr ← load parent s
  reapLoop parent pr.children s

/-- `sys_fork` and `sys_clone` from `alloc_proc` on. `room` and `ready` tell whether there is
memory for the structure and for all the rest of the child. -/
def newChild (vmShared room ready : Bool) (parent child : ℕ) (pid : ℤ) (s : State) :
    Outcome (ℤ × State) :=
  match allocProc room child s with
  | none => .ok (-enomem, s)
  | some s => do
      let pr ← load child s
      let s := store child { pr with pid, parent := some parent, vmShared } s
      if !ready then .ok (-enomem, update s child none)
      else do
        let pr ← load parent s
        .ok (pid, store parent { pr with children := pr.children ++ [child] } s)

def sysFork (room ready : Bool) (parent child : ℕ) (pid : ℤ) (s : State) : Outcome (ℤ × State) :=
  newChild false room ready parent child pid s

/-- `sys_clone` with `CLONE_THREAD` and `CLONE_VM` as flags. -/
def sysClone (thread shareVm room ready : Bool) (parent child : ℕ) (pid : ℤ) (s : State) :
    Outcome (ℤ × State) := do
  let s ← if thread then reapZombieThreads parent s else .ok s
  newChild shareVm room ready parent child pid s

def sysExit (p : ℕ) (s : State) : Outcome State := do
  let pr ← load p s
  let s := store p { pr with zombie := true } s
  wakeParent pr.parent s
  .ok s

/-- `find_child_by_pid` for the list of a process. -/
def findChildByPid (pid : ℤ) : List ℕ → State → Outcome (Option ℕ)
  | [], _ => .ok none
  | child :: rest, s => do
      let pr ← load child s
      if pr.pid = pid then .ok (some child) else findChildByPid pid rest s

/-- The target of `sys_kill`: the caller, a child or a sibling of it. -/
def killTarget (self : ℕ) (pid : ℤ) (s : State) : Outcome (Option ℕ) := do
  let pr ← load self s
  if pid = pr.pid then .ok (some self)
  else do
    match ← findChildByPid pid pr.children s, pr.parent with
    | some target, _ => .ok (some target)
    | none, none => .ok none
    | none, some parent => do
        let pr ← load parent s
        findChildByPid pid pr.children s

/-- `sys_kill`. The target ends as in `sys_exit`, and if it is the caller the call does not
return. -/
def sysKill (self : ℕ) (pid sig : ℤ) (s : State) : Outcome (ℤ × State) :=
  if sig = 0 then .ok (0, s)
  else if pid ≤ 0 then .ok (-einval, s)
  else do
    match ← killTarget self pid s with
    | none => .ok (-esrch, s)
    | some target =>
      if sig = 9 ∨ sig = 15 then do
        let s ← sysExit target s
        .ok (0, s)
      else .ok (0, s)

/-- The search of `sys_wait4` for a zombie, with `found_child`. -/
def findZombie (target : ℤ) : Bool → List ℕ → State → Outcome (Option ℕ × Bool)
  | found, [], _ => .ok (none, found)
  | found, child :: rest, s => do
      let pr ← load child s
      if target = -1 ∨ target = pr.pid then
        if pr.zombie then .ok (some child, found) else findZombie target true rest s
      else findZombie target found rest s

/-- A round of `sys_wait4`, which returns nothing if it goes to sleep. `copied` tells whether the
status need not be copied out or could be. -/
def sysWait4 (copied : Bool) (p : ℕ) (target : ℤ) (s : State) : Outcome (Option ℤ × State) := do
  let pr ← load p s
  match ← findZombie target false pr.children s with
  | (some child, _) =>
    if !copied then .ok (some (-efault), s)
    else do
      let cpid := (← load child s).pid
      let s ← reap p child s
      .ok (some cpid, s)
  | (none, true) => .ok (none, s)
  | (none, false) => .ok (some (-echild), s)

def sharedVmOwner (p : ℕ) (s : State) : Outcome ℕ := do
  let pr ← load p s
  if pr.vmShared then .ok (pr.parent.getD p) else .ok p

/-- What the calls on shared memory read: the owner, and its children in a loop such as the one
of `sync_shared_brk`. -/
def visitOwner (p : ℕ) (s : State) : Outcome Unit := do
  let owner ← sharedVmOwner p s
  let pr ← load owner s
  pr.children.forM (fun child => do
    let _ ← load child s
    .ok ())

inductive Call where
  | fork (room ready : Bool) (p child : ℕ) (pid : ℤ)
  | clone (thread shareVm room ready : Bool) (p child : ℕ) (pid : ℤ)
  | exit (p : ℕ)
  | kill (p : ℕ) (pid sig : ℤ)
  | wait4 (copied : Bool) (p : ℕ) (target : ℤ)
  | owner (p : ℕ)
deriving DecidableEq, Repr

def Call.caller : Call → ℕ
  | .fork _ _ p _ _ => p
  | .clone _ _ _ _ p _ _ => p
  | .exit p => p
  | .kill p _ _ => p
  | .wait4 _ p _ => p
  | .owner p => p

def call : Call → State → Outcome State
  | .fork room ready p child pid, s => Prod.snd <$> sysFork room ready p child pid s
  | .clone thread shareVm room ready p child pid, s =>
    Prod.snd <$> sysClone thread shareVm room ready p child pid s
  | .exit p, s => sysExit p s
  | .kill p pid sig, s => Prod.snd <$> sysKill p pid sig s
  | .wait4 copied p target, s => Prod.snd <$> sysWait4 copied p target s
  | .owner p, s => do
      visitOwner p s
      .ok s

/-- A process that can run. -/
def Runs (p : ℕ) (s : State) : Prop := (s p).any (fun pr => !pr.zombie) = true

instance (p : ℕ) (s : State) : Decidable (Runs p s) := inferInstanceAs (Decidable (_ = _))

/-- The runs whose calls satisfy `Ok`. Processes without a parent are started by the kernel. A
process that was killed in its sleep is woken and runs on. -/
inductive Run (Ok : Call → State → Prop) : State → Prop
  | boot : Run Ok (fun _ => none)
  | start {s : State} (p : ℕ) (pid : ℤ) : Run Ok s → s p = none →
      Run Ok (store p ⟨pid, none, [], false, false⟩ s)
  | wake {s : State} (p : ℕ) (pr : Proc) : Run Ok s → s p = some pr →
      Run Ok (store p { pr with zombie := false } s)
  | call {s s' : State} (c : Call) : Run Ok s → Runs c.caller s → Ok c s → call c s = .ok s' →
      Run Ok s'

end Tree

end NoobKernel
