import NoobKernel.Library.Outcome
import Mathlib.Algebra.Order.Ring.Nat

/-! # LZ4 decompression

Positions in the buffers are indices. Where the code compares a sum of a pointer and a length, the
sum is one of 64 bits. -/

namespace NoobKernel.Lz4

open Library

abbrev lz4Minmatch : ℕ := 4
abbrev addressSpace : ℕ := 2 ^ 64

/-- The source and the destination of a call. -/
structure Buffers where
  src : ℕ
  bytes : List UInt8
  dst : ℕ
  dstCapacity : ℕ

/-- How `lz4_decompress` ends early: it returns `-1`, or it reads or writes where it must not, or the
fuel is spent. -/
inductive Exit where
  | failed
  | wild
  | fuel
deriving DecidableEq, Repr

variable (c : Buffers)

def readByte (i : ℕ) : Except Exit ℕ :=
  match c.bytes[i]? with
  | none => .error .wild
  | some b => .ok b.toNat

/-- The bytes behind a length of 15, and the index behind them. -/
def readLength : ℕ → ℕ → ℕ → Except Exit (ℕ × ℕ)
  | 0, _, _ => .error .fuel
  | fuel + 1, i, len =>
    if c.bytes.length ≤ i then .error .failed
    else do
      let s ← readByte c i
      if s = 255 then readLength fuel (i + 1) (len + s) else .ok (len + s, i + 1)

/-- A length from half of a token. -/
def tokenLength (half i : ℕ) : Except Exit (ℕ × ℕ) :=
  if half = 15 then readLength c (c.bytes.length + 1) i half else .ok (half, i)

/-- The test `p + len > end` for a pointer at index `pos` of a buffer of `size` bytes. -/
def passes (base size pos len : ℕ) : Prop :=
  (base + size) % addressSpace < (base + pos + len) % addressSpace

instance (base size pos len : ℕ) : Decidable (passes base size pos len) :=
  inferInstanceAs (Decidable (_ < _))

def copyLiterals (i len : ℕ) (out : List UInt8) : Except Exit (List UInt8) :=
  if i + len ≤ c.bytes.length ∧ out.length + len ≤ c.dstCapacity then
    .ok (out ++ (c.bytes.drop i).take len)
  else .error .wild

/-- A copy of bytes that are written already to the end of the output. -/
def copyWithin (offset len : ℕ) (out : List UInt8) : Except Exit (List UInt8) :=
  if offset ≤ out.length ∧ len ≤ offset ∧ out.length + len ≤ c.dstCapacity then
    .ok (out ++ (out.drop (out.length - offset)).take len)
  else .error .wild

/-- The copy byte by byte until no more than `offset` bytes remain. -/
def copyOverlap (offset : ℕ) : ℕ → List UInt8 → Except Exit (ℕ × List UInt8)
  | 0, _ => .error .wild
  | remaining + 1, out => do
    let out ← copyWithin c offset 1 out
    if offset < remaining then copyOverlap offset remaining out else .ok (remaining, out)

def copyMatch (offset len : ℕ) (out : List UInt8) : Except Exit (List UInt8) :=
  if offset < len then do
    let (remaining, out) ← copyOverlap c offset len out
    copyWithin c offset remaining out
  else copyWithin c offset len out

def decompressLoop : ℕ → ℕ → List UInt8 → Except Exit (List UInt8)
  | 0, _, _ => .error .fuel
  | fuel + 1, i, out =>
    if c.bytes.length ≤ i then .ok out
    else do
      let token ← readByte c i
      let (literalLen, i) ← tokenLength c (token / 16) (i + 1)
      if passes c.src c.bytes.length i literalLen ∨ passes c.dst c.dstCapacity out.length literalLen then
        .error .failed
      else do
        let out ← copyLiterals c i literalLen out
        let i := i + literalLen
        if c.bytes.length ≤ i then .ok out
        else if c.bytes.length < i + 2 then .error .failed
        else do
          let low ← readByte c i
          let high ← readByte c (i + 1)
          let offset := low + 256 * high
          if offset = 0 then .error .failed
          else do
            let (len, i) ← tokenLength c (token % 16) (i + 2)
            let matchLen := len + lz4Minmatch
            let ref := (c.dst + out.length + addressSpace - offset) % addressSpace
            if passes c.dst c.dstCapacity out.length matchLen ∨ ref < c.dst then .error .failed
            else do
              let out ← copyMatch c offset matchLen out
              decompressLoop fuel i out

/-- What is returned, with the bytes that were produced. -/
def lz4Decompress : Outcome (ℤ × List UInt8) :=
  match decompressLoop c (c.bytes.length + 1) 0 [] with
  | .ok out => .ok (out.length, out)
  | .error .failed => .ok (-1, [])
  | .error .wild => .error .wild
  | .error .fuel => .error .fuel

end NoobKernel.Lz4
