import NoobKernel.Model.Basic
import NoobKernel.Library.Disk

/-! # The block cache

The buffers of `bcache`, used by one process. A call that panics or waits for a lock that the process
holds itself has no result. A transfer that fails leaves anything where it was to write. -/

namespace NoobKernel.BlockCache

open Function Library

abbrev blockSize : ℕ := 512
abbrev bcacheSize : ℕ := 512
abbrev bcacheHashSize : ℕ := 64

/-- The number of a device and of a block on it. -/
structure Key where
  dev : ℤ
  blockno : ℕ
deriving DecidableEq, Repr

/-- `struct buf`, without its links. -/
structure Buf where
  data : List UInt8
  key : Key
  refcnt : ℕ
  dirty : Bool
  valid : Bool
  lock : Bool

/-- A transfer that the device was asked for. -/
structure Transfer where
  write : Bool
  key : Key
  failed : Bool

/-- The cache, what is on the devices, and the transfers so far, the last one first. -/
structure State where
  buf : ℕ → Buf
  hashTable : ℕ → List ℕ
  lruList : List ℕ
  disk : Key → List UInt8
  log : List Transfer

/-- What a transfer leaves if it fails, by the number of transfers before. -/
abbrev Fault := ℕ → Option (List UInt8)

def State.setBuf (b : ℕ) (f : Buf → Buf) (s : State) : State :=
  { s with buf := update s.buf b (f (s.buf b)) }

def bcacheHash (key : Key) : ℕ := ((key.dev + key.blockno) % 2 ^ 64 % bcacheHashSize).toNat

def bcacheInit (disk : Key → List UInt8) : State where
  buf _ := ⟨List.replicate blockSize 0, ⟨0, 0⟩, 0, false, false, false⟩
  hashTable _ := []
  lruList := (List.range bcacheSize).reverse
  disk := disk
  log := []

def blkRead (fault : Fault) (key : Key) (b : ℕ) (s : State) : State :=
  let left := fault s.log.length
  { s.setBuf b (fun buf => { buf with data := left.getD (s.disk key) }) with
    log := ⟨false, key, left.isSome⟩ :: s.log }

def blkWrite (fault : Fault) (b : ℕ) (s : State) : State :=
  let left := fault s.log.length
  let key := (s.buf b).key
  { s with disk := update s.disk key (left.getD (s.buf b).data)
           log := ⟨true, key, left.isSome⟩ :: s.log }

def bcacheLookup (key : Key) (s : State) : Option ℕ :=
  (s.hashTable (bcacheHash key)).find? (fun b => (s.buf b).key = key)

/-- The buffers without references, from the end of the list. -/
def State.unused (s : State) : List ℕ := s.lruList.reverse.filter (fun b => (s.buf b).refcnt = 0)

/-- A buffer leaves the list of its block. -/
def unhash (b : ℕ) (s : State) : State :=
  { s with hashTable := fun h => (s.hashTable h).erase b }.setBuf b
    (fun buf => { buf with valid := false })

def bcacheEvict (fault : Fault) (s : State) : Option (ℕ × State) :=
  match s.unused.find? (fun b => !(s.buf b).dirty) with
  | some b => some (b, unhash b s)
  | none =>
    match s.unused.head? with
    | none => none
    | some b =>
      let s := unhash b { s with lruList := s.lruList.erase b }
      some (b, (blkWrite fault b s).setBuf b (fun buf => { buf with dirty := false }))

def acquire (b : ℕ) (s : State) : Option (ℕ × State) :=
  if (s.buf b).lock then none else some (b, s.setBuf b (fun buf => { buf with lock := true }))

def bcacheGet (fault : Fault) (key : Key) (s : State) : Option (ℕ × State) :=
  match bcacheLookup key s with
  | some b =>
    acquire b ({ s with lruList := b :: s.lruList.erase b }.setBuf b
      (fun buf => { buf with refcnt := buf.refcnt + 1 }))
  | none =>
    match bcacheEvict fault s with
    | none => none
    | some (b, s) =>
      let h := bcacheHash key
      acquire b ({ s with hashTable := update s.hashTable h (b :: s.hashTable h)
                          lruList := b :: s.lruList.erase b }.setBuf b
        (fun buf => { buf with key, refcnt := 1, valid := false, dirty := false }))

/-- The lock is free during the transfer, but no other process takes it. -/
def bread (fault : Fault) (key : Key) (s : State) : Option (ℕ × State) :=
  match bcacheGet fault key s with
  | none => none
  | some (b, s) =>
    if (s.buf b).valid then some (b, s)
    else some (b, (blkRead fault key b s).setBuf b (fun buf => { buf with valid := true }))

def bwrite (fault : Fault) (b : ℕ) (s : State) : State :=
  if (s.buf b).valid then
    let s := s.setBuf b (fun buf => { buf with dirty := true })
    (blkWrite fault b s).setBuf b (fun buf => { buf with dirty := false })
  else s

def brelse (b : ℕ) (s : State) : State :=
  let s := s.setBuf b (fun buf => { buf with lock := false, refcnt := buf.refcnt - 1 })
  if (s.buf b).refcnt = 0 then { s with lruList := s.lruList.erase b ++ [b] } else s

/-! ## Bytes of a device

`bread` never returns `NULL`, so that `-EIO` is never returned. -/

def readAtLoop (fault : Fault) (dev : ℤ) :
    ℕ → ℕ → ℕ → List UInt8 → State → Option (ℤ × List UInt8 × State)
  | 0, _, _, p, s => some (0, p, s)
  | fuel + 1, offset, size, p, s =>
    if size = 0 then some (0, p, s)
    else
      let off := offset % blockSize
      let n := min (blockSize - off) size
      match bread fault ⟨dev, offset / blockSize⟩ s with
      | none => none
      | some (b, s) =>
        readAtLoop fault dev fuel ((offset + n) % 2 ^ 64) (size - n)
          (p ++ ((s.buf b).data.drop off).take n) (brelse b s)

/-- `ext4_read_at`, with the bytes that it copies. -/
def ext4ReadAt (fault : Fault) (dev : ℤ) (offset size : ℕ) (s : State) :
    Option (ℤ × List UInt8 × State) :=
  readAtLoop fault dev size offset size [] s

def writeAtLoop (fault : Fault) (dev : ℤ) : ℕ → ℕ → List UInt8 → State → Option (ℤ × State)
  | 0, _, _, s => some (0, s)
  | fuel + 1, offset, p, s =>
    if p.length = 0 then some (0, s)
    else
      let off := offset % blockSize
      let n := min (blockSize - off) p.length
      match bread fault ⟨dev, offset / blockSize⟩ s with
      | none => none
      | some (b, s) =>
        let s := s.setBuf b (fun buf => { buf with data := patch off (p.take n) buf.data })
        writeAtLoop fault dev fuel ((offset + n) % 2 ^ 64) (p.drop n) (brelse b (bwrite fault b s))

def ext4WriteAt (fault : Fault) (dev : ℤ) (offset : ℕ) (p : List UInt8) (s : State) :
    Option (ℤ × State) :=
  writeAtLoop fault dev p.length offset p s

end NoobKernel.BlockCache
