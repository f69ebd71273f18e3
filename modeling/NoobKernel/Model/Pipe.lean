import NoobKernel.Model.Basic
import Mathlib.Data.List.Basic

/-! # Pipes

A ring buffer of bytes with a wait queue for each end. The code between taking and
releasing the lock of the pipe is one step of a process. A wakeup after the lock has been
dropped is a step of its own, and a process that was woken runs on at some later step. -/

namespace NoobKernel

abbrev epipe : ℤ := 32

abbrev Byte := BitVec 8

namespace Pipe

abbrev pipeSize : ℕ := 4096

/-- The largest `int`. The callers pass the size of a buffer on their stack. -/
abbrev intMax : ℕ := 2 ^ 31 - 1

end Pipe

/-- `struct pipe`. A wait queue lists its sleepers in the order in which they went to
sleep. -/
structure Pipe (ι : Type) where
  buf : ℕ → Byte
  rd : ℕ
  wr : ℕ
  count : ℕ
  nreaders : ℕ
  nwriters : ℕ
  rq : List ι
  wq : List ι
  freed : Bool

namespace Pipe

/-- Where a process is: in no call since one returned `ret`, or in `pipe_read` or
`pipe_write` before the lock, asleep, woken, or behind the lock and before its wakeup. -/
inductive Point where
  | out (ret : ℤ)
  | readTop (count : ℕ)
  | readAsleep (count : ℕ)
  | readWoken (count : ℕ)
  | readDone (bytes : List Byte)
  | writeTop (total : ℕ) (rest : List Byte)
  | writeAsleep (total : ℕ) (rest : List Byte)
  | writeWoken (total : ℕ) (rest : List Byte)
  | writeDone (total : ℕ) (rest : List Byte)
deriving DecidableEq, Repr

/-- A pipe, the processes that use it, and the bytes that were stored and taken so far. -/
structure State (ι : Type) where
  pipe : Pipe ι
  point : ι → Point
  stored : List Byte
  taken : List Byte

variable {ι : Type} [DecidableEq ι]

def pipeCreate : Pipe ι where
  buf := fun _ => 0
  rd := 0
  wr := 0
  count := 0
  nreaders := 1
  nwriters := 1
  rq := []
  wq := []
  freed := false

def initial : State ι := ⟨pipeCreate, fun _ => .out 0, [], []⟩

def goto (i : ι) (pt : Point) (s : State ι) : State ι :=
  { s with point := Function.update s.point i pt }

/-! ## Wakeups -/

def Point.wake : Point → Point
  | .readAsleep count => .readWoken count
  | .writeAsleep total rest => .writeWoken total rest
  | pt => pt

def wake (i : ι) (s : State ι) : State ι := goto i (s.point i).wake s

def wakeupOneReader (s : State ι) : State ι :=
  match s.pipe.rq with
  | [] => s
  | i :: rest => wake i { s with pipe := { s.pipe with rq := rest } }

def wakeupOneWriter (s : State ι) : State ι :=
  match s.pipe.wq with
  | [] => s
  | i :: rest => wake i { s with pipe := { s.pipe with wq := rest } }

/-- `wait_queue_wakeup_all` wakes the sleepers one after another. -/
def wakeAll (l : List ι) (s : State ι) : State ι := l.foldl (fun s i => wake i s) s

def wakeupAllReaders (s : State ι) : State ι :=
  wakeAll s.pipe.rq { s with pipe := { s.pipe with rq := [] } }

def wakeupAllWriters (s : State ι) : State ι :=
  wakeAll s.pipe.wq { s with pipe := { s.pipe with wq := [] } }

/-! ## `pipe_read` -/

/-- The loop that takes bytes out, with room for `n` more bytes. -/
def takeBytes : ℕ → Pipe ι → List Byte × Pipe ι
  | 0, p => ([], p)
  | n + 1, p =>
    if p.count = 0 then ([], p)
    else
      let c := p.buf p.rd
      let rest := takeBytes n { p with rd := (p.rd + 1) % pipeSize, count := p.count - 1 }
      (c :: rest.1, rest.2)

def readCall (i : ι) (count : ℕ) (s : State ι) : State ι :=
  if count = 0 then goto i (.out 0) s else goto i (.readTop count) s

def readSection (i : ι) (count : ℕ) (s : State ι) : State ι :=
  if 0 < s.pipe.count then
    let taken := takeBytes count s.pipe
    goto i (if taken.1 = [] then .out 0 else .readDone taken.1)
      { s with pipe := taken.2, taken := s.taken ++ taken.1 }
  else if s.pipe.nwriters = 0 then goto i (.out 0) s
  else goto i (.readAsleep count) { s with pipe := { s.pipe with rq := s.pipe.rq ++ [i] } }

/-! ## `pipe_write` -/

def storeByte (c : Byte) (p : Pipe ι) : Pipe ι :=
  { p with
    buf := Function.update p.buf p.wr c
    wr := (p.wr + 1) % pipeSize
    count := p.count + 1 }

def writeByte (i : ι) (total : ℕ) (c : Byte) (rest : List Byte) (s : State ι) : State ι :=
  goto i (.writeDone (total + 1) rest)
    { s with pipe := storeByte c s.pipe, stored := s.stored ++ [c] }

/-- The check of the readers happens without the lock. -/
def writeCall (i : ι) (bytes : List Byte) (s : State ι) : State ι :=
  if bytes = [] then goto i (.out 0) s
  else if s.pipe.nreaders = 0 then goto i (.out (-epipe)) s
  else goto i (.writeTop 0 bytes) s

def writeSection (i : ι) (total : ℕ) (c : Byte) (rest : List Byte) (s : State ι) : State ι :=
  if s.pipe.count = pipeSize then
    if s.pipe.nreaders = 0 then goto i (.out (-epipe)) s
    else goto i (.writeAsleep total (c :: rest))
      { s with pipe := { s.pipe with wq := s.pipe.wq ++ [i] } }
  else writeByte i total c rest s

/-- The second check after a sleep asks for a full pipe without readers only. -/
def writeResume (i : ι) (total : ℕ) (c : Byte) (rest : List Byte) (s : State ι) : State ι :=
  if s.pipe.count = pipeSize ∧ s.pipe.nreaders = 0 then
    goto i (.out (if total > 0 then total else -epipe)) s
  else writeByte i total c rest s

/-! ## Steps -/

/-- The next step of process `i` in its call. A sleeping process has none. -/
def advance (i : ι) (s : State ι) : State ι :=
  match s.point i with
  | .out _ | .readAsleep _ | .writeAsleep _ _ => s
  | .readTop count | .readWoken count => readSection i count s
  | .readDone bytes => goto i (.out bytes.length) (wakeupOneWriter s)
  | .writeTop total [] | .writeWoken total [] => goto i (.out total) s
  | .writeTop total (c :: rest) => writeSection i total c rest s
  | .writeWoken total (c :: rest) => writeResume i total c rest s
  | .writeDone total rest =>
    goto i (if rest = [] then .out total else .writeTop total rest) (wakeupOneReader s)

def freeIfUnused (s : State ι) : State ι :=
  { s with pipe := { s.pipe with
      freed := decide (s.pipe.nreaders = 0 ∧ s.pipe.nwriters = 0) } }

def releaseReader (s : State ι) : State ι :=
  freeIfUnused (wakeupAllWriters { s with pipe := { s.pipe with nreaders := s.pipe.nreaders - 1 } })

def releaseWriter (s : State ι) : State ι :=
  freeIfUnused (wakeupAllReaders { s with pipe := { s.pipe with nwriters := s.pipe.nwriters - 1 } })

/-- The runs of a pipe whose process steps satisfy `Ok`: any process may start a call
after the one before, take its next step, or release an end, in any order. A pipe that
was freed is not used any more. -/
inductive Run (Ok : ι → State ι → Prop) : State ι → Prop where
  | create : Run Ok initial
  | read {s : State ι} {i : ι} {ret : ℤ} {count : ℕ} (h : Run Ok s)
      (hlive : s.pipe.freed = false) (hpoint : s.point i = .out ret) (hcount : count ≤ intMax) :
      Run Ok (readCall i count s)
  | write {s : State ι} {i : ι} {ret : ℤ} {bytes : List Byte} (h : Run Ok s)
      (hlive : s.pipe.freed = false) (hpoint : s.point i = .out ret)
      (hcount : bytes.length ≤ intMax) : Run Ok (writeCall i bytes s)
  | advance {s : State ι} {i : ι} (h : Run Ok s) (hlive : s.pipe.freed = false) (hok : Ok i s) :
      Run Ok (advance i s)
  | releaseReader {s : State ι} (h : Run Ok s) (hlive : s.pipe.freed = false) :
      Run Ok (releaseReader s)
  | releaseWriter {s : State ι} (h : Run Ok s) (hlive : s.pipe.freed = false) :
      Run Ok (releaseWriter s)

/-! ## `sys_read` on a pipe -/

/-- What other processes do to a pipe while it is not locked: writers store bytes as long as
there is room, and close ends. -/
structure Meanwhile where
  bytes : List Byte
  closed : ℕ

/-- A byte of a writer. -/
def feed (p : Pipe ι) (c : Byte) : Pipe ι :=
  if p.count < pipeSize ∧ 0 < p.nwriters then storeByte c p else p

def Meanwhile.change (e : Meanwhile) (p : Pipe ι) : Pipe ι :=
  let p := e.bytes.foldl feed p
  { p with nwriters := p.nwriters - e.closed }

/-- `pipe_read`, which has no result when it goes to sleep. -/
def pipeRead (count : ℕ) (p : Pipe ι) : Option (List Byte) × Pipe ι :=
  if count = 0 then (some [], p)
  else if 0 < p.count then (some (takeBytes count p).1, (takeBytes count p).2)
  else if p.nwriters = 0 then (some [], p)
  else (none, p)

/-- How far a call of `sys_read` comes. -/
inductive Reading where
  | asleep
  | returned (done : ℕ)
deriving DecidableEq, Repr

/-- The loop of `sys_read` on a pipe, into a buffer that the process may write to. `env` is what
happens before each of its rounds, of which there are at most `fuel`. -/
def sysReadLoop (env : ℕ → Meanwhile) (len : ℕ) : ℕ → ℕ → ℕ → Pipe ι → Reading
  | 0, _, done, _ => .returned done
  | fuel + 1, round, done, p =>
    if len ≤ done then .returned done
    else
      let n := min (len - done) 512
      match pipeRead n ((env round).change p) with
      | (none, _) => .asleep
      | (some bytes, p) =>
        if bytes.length = 0 then .returned done
        else if bytes.length < n then .returned (done + bytes.length)
        else sysReadLoop env len fuel (round + 1) (done + bytes.length) p

/-- `sys_read`: each round of its loop reads a byte at least. -/
def sysRead (env : ℕ → Meanwhile) (len : ℕ) (p : Pipe ι) : Reading :=
  if len = 0 then .returned 0 else sysReadLoop env len len 0 0 p

end Pipe

end NoobKernel
