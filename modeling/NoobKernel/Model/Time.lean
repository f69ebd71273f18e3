import NoobKernel.Model.UserCopy

/-! # Time system calls

`sys_clock_gettime`, `sys_gettimeofday`, `sys_nanosleep`, `sys_clock_nanosleep` and
`sys_times`. The readings of `r_time` are given by a list; a call that has used them up has not
returned yet. -/

namespace NoobKernel.Time

open Library Vm

abbrev timebaseFreq : ℕ := 10000000

def nsToCputime (ns : ℕ) : ℕ := ns * timebaseFreq % wordSize / 1000000000

def cputimeToNs (cputime : ℕ) : ℕ := cputime * 1000000000 % wordSize / timebaseFreq

/-- The bytes of a `u64`. -/
def u64 (v : ℕ) : List ℕ := bytes 8 v

/-- The number in eight bytes. -/
def ofU64 : List ℕ → ℕ
  | [] => 0
  | b :: src => b + 256 * ofU64 src

def sysClockGettime (tp pt : ℕ) (clock : List ℕ) (m : Memory) : Option (ℤ × Memory) :=
  match clock with
  | [] => none
  | now :: _ =>
    let ns := cputimeToNs now
    let r := copyout pt tp (u64 (ns / 1000000000) ++ u64 (ns % 1000000000)) m
    if r.1 < 0 then some (-efault, r.2) else some (0, r.2)

def sysGettimeofday (tv pt : ℕ) (clock : List ℕ) (m : Memory) : Option (ℤ × Memory) :=
  match clock with
  | [] => none
  | now :: _ =>
    let sec := now / timebaseFreq
    let usec := now % timebaseFreq * 1000000 % wordSize / timebaseFreq
    let r := copyout pt tv (u64 sec ++ u64 usec) m
    if r.1 < 0 then some (-efault, r.2) else some (0, r.2)

/-- The loop that waits for the clock. -/
def waitUntil (stop : ℕ) : List ℕ → Option (List ℕ)
  | [] => none
  | now :: clock => if now < stop then waitUntil stop clock else some clock

/-- `sys_nanosleep`. What is left of the time is cleared at the address `rem` itself. -/
def sysNanosleep (req rem pt : ℕ) (clock : List ℕ) (m : Memory) : Option (ℤ × Memory) :=
  let r := copyin pt req 16 m
  if r.1 < 0 then some (-efault, m)
  else
    match clock with
    | [] => none
    | start :: clock =>
      let tvSec := ofU64 (r.2.take 8)
      let tvNsec := ofU64 (r.2.drop 8)
      let ns := (tvSec * 1000000000 + tvNsec) % wordSize
      match waitUntil ((start + nsToCputime ns) % wordSize) clock with
      | none => none
      | some _ => if rem ≠ 0 then some (0, memset rem 0 16 m) else some (0, m)

def sysTimes (tbuf pt : ℕ) (clock : List ℕ) (m : Memory) : Option (ℤ × Memory) :=
  let r := if tbuf ≠ 0 then copyout pt tbuf (List.replicate 32 0) m else (0, m)
  if r.1 < 0 then some (-efault, r.2)
  else
    match clock with
    | [] => none
    | now :: _ => some (now / timebaseFreq, r.2)

/-- The time system calls with their arguments. -/
inductive Call where
  | clockGettime (clkid : ℤ) (tp : ℕ)
  | gettimeofday (tv tz : ℕ)
  | nanosleep (req rem : ℕ)
  | clockNanosleep (clockid flags : ℤ) (req rem : ℕ)
  | times (tbuf : ℕ)
deriving DecidableEq, Repr

def Call.run : Call → ℕ → List ℕ → Memory → Option (ℤ × Memory)
  | .clockGettime _ tp => sysClockGettime tp
  | .gettimeofday tv _ => sysGettimeofday tv
  | .nanosleep req rem => sysNanosleep req rem
  | .clockNanosleep _ _ req rem => sysNanosleep req rem
  | .times tbuf => sysTimes tbuf

end NoobKernel.Time
