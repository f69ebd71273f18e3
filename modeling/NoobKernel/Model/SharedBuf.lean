import NoobKernel.Model.Basic

/-! # Sharing a buffer

Processes that each call `bread` for one block, change bytes of the buffer and call `bwrite` and
`brelse`. A process that holds a spinlock is not interrupted, but the device goes on with the
requests of the other ones. -/

namespace NoobKernel.Bcache

open Function

abbrev blockSize : ℕ := 512

abbrev Contents := Fin blockSize → BitVec 8

/-- `struct buf`, without its key, its lock and its lists. -/
structure Buf where
  data : Contents
  refcnt : ℕ
  dirty : Bool
  valid : Bool

/-- What a process does to the buffer. -/
structure Change where
  offset : ℕ
  len : ℕ
  bytes : Contents

def Change.Covers (c : Change) (k : Fin blockSize) : Prop := c.offset ≤ k ∧ k < c.offset + c.len

instance (c : Change) (k : Fin blockSize) : Decidable (c.Covers k) :=
  inferInstanceAs (Decidable (_ ∧ _))

def Change.apply (c : Change) (data : Contents) : Contents :=
  fun k => if c.Covers k then c.bytes k else data k

/-- Where a process is: before `bread`; about to take the lock of the buffer; in `blk_read`, before
and after the transfer; back from `bread`; before `bwrite`; in `blk_write`, before and after the
transfer; after `brelse`. -/
inductive Point where
  | start | got | reading | read | held | changed | writing | written | done
deriving DecidableEq, Repr

/-- `hashed` says that the buffer is the one of the block; otherwise it is the one that
`bcache_evict` chooses. -/
structure State (ι : Type*) where
  dev : Contents
  buf : Buf
  hashed : Bool
  lock : Option ι
  point : ι → Point

variable {ι : Type*} [DecidableEq ι]

/-- The next step of a process, up to the next release of a lock or transfer. -/
def next (change : ι → Change) (i : ι) (s : State ι) : State ι :=
  let goto := update s.point i
  match s.point i with
  | .start => { s with hashed := true, point := goto .got, buf :=
      if s.hashed then { s.buf with refcnt := s.buf.refcnt + 1 }
      else { s.buf with refcnt := 1, valid := false, dirty := false } }
  | .got =>
    if s.buf.valid then { s with lock := some i, point := goto .held }
    else { s with point := goto .reading }
  | .reading => { s with buf := { s.buf with data := s.dev }, point := goto .read }
  | .read => { s with buf := { s.buf with valid := true }, lock := some i, point := goto .held }
  | .held =>
    { s with buf := { s.buf with data := (change i).apply s.buf.data }, point := goto .changed }
  | .changed =>
    if s.buf.valid then
      { s with buf := { s.buf with dirty := true }, lock := none, point := goto .writing }
    else { s with buf := { s.buf with refcnt := s.buf.refcnt - 1 }, lock := none,
                  point := goto .done }
  | .writing => { s with dev := s.buf.data, point := goto .written }
  | .written => { s with buf := { s.buf with dirty := false, refcnt := s.buf.refcnt - 1 },
                         point := goto .done }
  | .done => s

/-- A transfer may happen at any time, everything else while no other process holds the lock. -/
def step (change : ι → Change) (i : ι) (s : State ι) : Option (State ι) :=
  if s.point i = .reading ∨ s.point i = .writing ∨ s.lock = none ∨ s.lock = some i then
    some (next change i s)
  else none

/-- The runs whose steps satisfy `Ok`, from any contents of the device and of the buffer. -/
inductive Run (change : ι → Change) (Ok : ι → State ι → Prop) : State ι → Prop
  | init (dev : Contents) (buf : Buf) (hashed : Bool) :
      Run change Ok ⟨dev, buf, hashed, none, fun _ => .start⟩
  | step {s s' : State ι} (i : ι) : Run change Ok s → Ok i s → step change i s = some s' →
      Run change Ok s'

end NoobKernel.Bcache
