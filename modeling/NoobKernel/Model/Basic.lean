import NoobKernel.Library.Outcome
import Mathlib.Data.Nat.Bitwise

/-! # Configuration, integer helpers and spinlocks -/

namespace NoobKernel

open Library

abbrev pageShift : ℕ := 12
abbrev pageSize : ℕ := 2 ^ pageShift
abbrev memSize : ℕ := 128 * 1024 * 1024
abbrev pageNum : ℕ := memSize / pageSize
abbrev pmStart : ℕ := 0x80000000
abbrev pmEnd : ℕ := pmStart + memSize

abbrev slabMaxObjSize : ℕ := 8192
abbrev slabBlobSize : ℕ := 16 * pageSize
abbrev earlyHeapSize : ℕ := pageSize
abbrev buddyMaxOrder : ℕ := 11
abbrev buddyBlobSize : ℕ := 2 ^ buddyMaxOrder * pageSize

/-- Registers, pointers and `size_t` are 64 bits wide. -/
abbrev wordSize : ℕ := 2 ^ 64

abbrev enoent : ℤ := 2
abbrev eio : ℤ := 5
abbrev enomem : ℤ := 12
abbrev efault : ℤ := 14
abbrev eexist : ℤ := 17
abbrev exdev : ℤ := 18
abbrev enotdir : ℤ := 20
abbrev eisdir : ℤ := 21
abbrev einval : ℤ := 22
abbrev enospc : ℤ := 28
abbrev enosys : ℤ := 38

/-! ## Alignment -/

/-- `ALIGN_DOWN` clears the bits of `n - 1`. -/
def alignDown (x n : ℕ) : ℕ := x &&& ((wordSize - 1) ^^^ (n - 1))

/-- `ALIGN_UP`. The macro masks with `n - 1` for any `n`, so the result is a multiple
of `n` only when `n` is a power of two. -/
def alignUp (x n : ℕ) : ℕ := alignDown ((x + (n - 1)) % wordSize) n

/-! ## Integer logarithm -/

/-- One test of the bisection in `log2_ceil`: whether the value has a bit from `w` on. -/
def log2Step (w : ℕ) (result : ℤ × ℕ) : ℤ × ℕ :=
  if result.2 ≥ 2 ^ w then (result.1 + w, result.2 >>> w) else result

/-- `log2_ceil`: the position of the highest set bit by bisection, and one more when
the value is not a power of two. -/
def log2Ceil (size : ℕ) : ℤ :=
  if size = 0 then -1
  else
    let log2Result := (log2Step 1 (log2Step 2 (log2Step 4 (log2Step 8 (log2Step 16
      (log2Step 32 (0, size))))))).1
    if size &&& (size - 1) ≠ 0 then log2Result + 1 else log2Result

/-! ## Spinlocks -/

/-- A lock with the debugging owner field; a free lock has no owner. -/
structure Spinlock where
  locked : Bool
  owner : Option ℕ
deriving DecidableEq, Repr

namespace Spinlock

def initializer : Spinlock := ⟨false, none⟩

/-- The hart that runs the kernel: the platform has one (`CPU_NUM`). -/
def hart : ℕ := 0

def holding (l : Spinlock) : Bool := l.locked && l.owner == some hart

/-- A lock held by another hart is waited for without end. -/
def acquire (l : Spinlock) : Outcome Spinlock :=
  if l.locked && l.owner == some hart then
    .error (.panic "recursive lock acquire: %s (hart %zu)" [hart])
  else if l.locked then .error .fuel
  else .ok ⟨true, some hart⟩

def release (l : Spinlock) : Outcome Spinlock :=
  if !l.locked then .error (.panic "release unlocked lock: %s" [])
  else if l.owner ≠ some hart then .error (.panic "spinlock_release: wrong CPU" [])
  else .ok initializer

/-- A lock held by the running hart. -/
def held : Spinlock := ⟨true, some hart⟩

@[simp] theorem holding_initializer : initializer.holding = false := rfl
@[simp] theorem holding_held : held.holding = true := rfl
@[simp] theorem acquire_initializer : initializer.acquire = .ok held := rfl
@[simp] theorem release_held : held.release = .ok initializer := rfl

end Spinlock

end NoobKernel
