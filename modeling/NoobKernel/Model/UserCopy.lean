import NoobKernel.Library.Bytes
import NoobKernel.Model.PageTable

/-! # Copies between the kernel and user memory

The bytes of the memory, and the loops of `copyin` and `copyout`, which look up each page of
the user's range. -/

namespace NoobKernel.Vm

open Library

/-- The page of an address. -/
def pageOf (a : ℕ) : ℕ := a / pageSize * pageSize

/-- The place of an address among the words of its page. -/
def wordOf (a : ℕ) : Index := ⟨a % pageSize / 8, Nat.div_lt_of_lt_mul (Nat.mod_lt _ (by decide))⟩

def byteAt (a : ℕ) (m : Memory) : ℕ := getByte (m.word (pageOf a) (wordOf a)) (a % 8)

def storeByte (a b : ℕ) (m : Memory) : Memory :=
  setPte (pageOf a, wordOf a) (setByte (m.word (pageOf a) (wordOf a)) (a % 8) b) m

/-- `memcpy` of bytes from the kernel's stack. -/
def memcpy (dst : ℕ) : List ℕ → Memory → Memory
  | [], m => m
  | b :: src, m => memcpy ((dst + 1) % wordSize) src (storeByte dst b m)

def memset (dst value n : ℕ) (m : Memory) : Memory := memcpy dst (List.replicate n value) m

/-- The bytes of the memory from an address on. -/
def load (src n : ℕ) (m : Memory) : List ℕ := (List.range n).map (fun i => byteAt (src + i) m)

/-- The loop of `copyin`; each of its `fuel` rounds copies a byte at least. The second
component is what has been stored in the buffer. -/
def copyinLoop (pt : ℕ) (m : Memory) : ℕ → ℕ → ℕ → ℤ × List ℕ
  | 0, _, _ => (0, [])
  | fuel + 1, srcva, len =>
    if len = 0 then (0, [])
    else if srcva ≥ userTop then (-1, [])
    else
      let pa := walkaddr pt srcva m
      if pa = 0 then (-1, [])
      else
        let offset := srcva &&& (pageSize - 1)
        let n := min (pageSize - offset) len
        let r := copyinLoop pt m fuel ((srcva + n) % wordSize) (len - n)
        (r.1, load (pa + offset) n m ++ r.2)

def copyin (pt srcva len : ℕ) (m : Memory) : ℤ × List ℕ := copyinLoop pt m len srcva len

/-- The loop of `copyinstr`; each of its `fuel` rounds reads a byte at least. A string without
an end is an error. -/
def copyinstrLoop (pt : ℕ) (m : Memory) : ℕ → ℕ → ℕ → Option (List ℕ)
  | 0, _, _ => none
  | fuel + 1, srcva, max =>
    if max = 0 then none
    else if srcva ≥ userTop then none
    else
      let pa := walkaddr pt srcva m
      if pa = 0 then none
      else
        let offset := srcva &&& (pageSize - 1)
        let n := min (pageSize - offset) max
        let read := load (pa + offset) n m
        if 0 ∈ read then some (read.takeWhile (· ≠ 0))
        else (copyinstrLoop pt m fuel ((srcva + n) % wordSize) (max - n)).map (read ++ ·)

def copyinstr (pt srcva max : ℕ) (m : Memory) : Option (List ℕ) := copyinstrLoop pt m max srcva max

/-- The loop of `copyout`; each of its `fuel` rounds copies a byte at least. -/
def copyoutLoop (pt : ℕ) : ℕ → ℕ → List ℕ → Memory → ℤ × Memory
  | 0, _, _, m => (0, m)
  | fuel + 1, dstva, src, m =>
    if src.length = 0 then (0, m)
    else if dstva ≥ userTop then (-1, m)
    else
      let pa := walkaddr pt dstva m
      if pa = 0 then (-1, m)
      else
        let offset := dstva &&& (pageSize - 1)
        let n := min (pageSize - offset) src.length
        copyoutLoop pt fuel ((dstva + n) % wordSize) (src.drop n)
          (memcpy (pa + offset) (src.take n) m)

def copyout (pt dstva : ℕ) (src : List ℕ) (m : Memory) : ℤ × Memory :=
  copyoutLoop pt src.length dstva src m

end NoobKernel.Vm
