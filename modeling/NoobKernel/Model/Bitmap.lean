import NoobKernel.Model.Basic

/-! # Bitmaps -/

namespace NoobKernel

/-- `struct bitmap`: bit `i` is bit `i % 8` of byte `i / 8`. -/
structure Bitmap where
  data : ℕ → BitVec 8
  len : ℕ

def bitmapGet (bm : Bitmap) (bitIdx : ℕ) : BitVec 8 :=
  if bitIdx ≥ bm.len then 0
  else (bm.data (bitIdx >>> 3) >>> (bitIdx &&& 7)) &&& 1

def bitmapSet (bm : Bitmap) (bitIdx : ℕ) : Bitmap :=
  if bitIdx ≥ bm.len then bm
  else
    { bm with
      data := Function.update bm.data (bitIdx >>> 3)
        (bm.data (bitIdx >>> 3) ||| (1#8 <<< (bitIdx &&& 7))) }

def bitmapClear (bm : Bitmap) (bitIdx : ℕ) : Bitmap :=
  if bitIdx ≥ bm.len then bm
  else
    { bm with
      data := Function.update bm.data (bitIdx >>> 3)
        (bm.data (bitIdx >>> 3) &&& ~~~(1#8 <<< (bitIdx &&& 7))) }

/-- The inner loop of the searches, which counts the zero bits below the lowest set
bit. It makes at most eight turns on a byte that is not zero. -/
def trailingZeros : ℕ → BitVec 8 → ℕ
  | 0, _ => 0
  | n + 1, b => if b &&& 1 = 0 then trailingZeros n (b >>> 1) + 1 else 0

/-- The clear bits of byte `i` as set bits, without those past the end of the map. -/
def clearByte (bm : Bitmap) (i : ℕ) : BitVec 8 :=
  let b := ~~~(bm.data i)
  if i = (bm.len + 7) >>> 3 - 1 ∧ bm.len &&& 7 ≠ 0 then b &&& (1#8 <<< (bm.len &&& 7) - 1)
  else b

/-- The loop over the bytes from `i` on, with `n` bytes left. -/
def findClearByte (bm : Bitmap) : ℕ → ℕ → ℕ
  | 0, _ => bm.len
  | n + 1, i =>
    if clearByte bm i ≠ 0 then i <<< 3 + trailingZeros 8 (clearByte bm i)
    else findClearByte bm n (i + 1)

/-- The loop for a set bit. -/
def findSetByte (bm : Bitmap) : ℕ → ℕ → ℕ
  | 0, _ => bm.len
  | n + 1, i =>
    if bm.data i ≠ 0 then
      let pos := i <<< 3 + trailingZeros 8 (bm.data i)
      if pos < bm.len then pos else bm.len
    else findSetByte bm n (i + 1)

def bitmapFindNextSet (bm : Bitmap) (bitIdx : ℕ) : ℕ :=
  if bitIdx ≥ bm.len then bm.len
  else
    let byteIdx := bitIdx >>> 3
    let bitOff := bitIdx &&& 7
    let b := bm.data byteIdx &&& (0xFF#8 <<< bitOff)
    if b ≠ 0 then byteIdx <<< 3 + bitOff + trailingZeros 8 b
    else findSetByte bm ((bm.len + 7) >>> 3 - (byteIdx + 1)) (byteIdx + 1)

/-- The first byte is searched without the bits below `bitIdx` and without masking its
end. -/
def bitmapFindNextClear (bm : Bitmap) (bitIdx : ℕ) : ℕ :=
  if bitIdx ≥ bm.len then bm.len
  else
    let byteIdx := bitIdx >>> 3
    let bitOff := bitIdx &&& 7
    let b := ~~~(bm.data byteIdx) &&& (0xFF#8 <<< bitOff)
    if b ≠ 0 then byteIdx <<< 3 + bitOff + trailingZeros 8 b
    else findClearByte bm ((bm.len + 7) >>> 3 - (byteIdx + 1)) (byteIdx + 1)

end NoobKernel
