import NoobKernel.Model.Bitmap
import NoobKernel.Model.Buddy

/-! # The slab allocator

A cache hands out objects of one size from slabs. A slab is a blob of the buddy
allocator with a header and a bitmap of its objects at its start, and is on one of
three lists of its cache. The buddy allocator is a parameter of the functions that ask
it for a blob. -/

namespace NoobKernel

open Library Function

namespace Slab

inductive ListName where
  | slabsFull
  | slabsPartial
  | slabsFree
deriving DecidableEq, Repr

/-- The list nodes: the three heads of each cache and the nodes in the headers of the
slabs. -/
inductive Node where
  | head (kmem : ℕ) (list : ListName)
  | slab (s : ℕ)
deriving DecidableEq, Repr

end Slab

/-- `struct slab`, the header at the start of a blob. -/
structure Slab where
  kmem : ℕ
  bm : Bitmap
  total : ℕ
  free : ℕ
  offset : ℕ
  magic : BitVec 16

/-- `struct kmem_cache` without its lists. -/
structure KmemCache where
  objSize : ℕ
  allocSize : ℕ
  total : ℕ
  free : ℕ
  low : ℕ
  high : ℕ
  expanding : Bool
  lock : Spinlock

/-- What the memory manager keeps besides the buddy allocator: the caches, the slab
headers by address, the list links, and the early heap with its two flags. -/
structure Kmem where
  cache : ℕ → KmemCache
  slab : ℕ → Slab
  links : Links Slab.Node
  earlyBrk : ℕ
  buddyInited : Bool
  kallocInited : Bool

namespace Slab

abbrev u32Size : ℕ := 2 ^ 32

abbrev slabMagic : BitVec 16 := 0x51AB

/-- `sizeof(struct slab)`. The bitmap starts in the padding of the header. -/
abbrev sizeofSlab : ℕ := 56
abbrev bmDataOffset : ℕ := 54

def setCache (c : ℕ) (f : KmemCache → KmemCache) (k : Kmem) : Kmem :=
  { k with cache := update k.cache c (f (k.cache c)) }

def setSlab (a : ℕ) (f : Slab → Slab) (k : Kmem) : Kmem :=
  { k with slab := update k.slab a (f (k.slab a)) }

def setLinks (f : Links Node → Links Node) (k : Kmem) : Kmem := { k with links := f k.links }

attribute [simps -fullyApplied cache slab links] setCache setSlab setLinks

/-- A step on the caches inside the memory manager. -/
def onKmem (f : Kmem → Kmem) (s : Mm Kmem) : Mm Kmem := { s with rest := f s.rest }

attribute [simps -fullyApplied rest buddy] onKmem

/-- The slab around a list node. A list head lies in no slab. -/
def listEntry : Node → Outcome ℕ
  | .head _ _ => .error .wild
  | .slab a => .ok a

def listFirstEntry (k : Kmem) (c : ℕ) (l : ListName) : Outcome ℕ :=
  listEntry (k.links.next (.head c l))

/-! ## Slabs -/

def objectNum (objSize : ℕ) : ℕ :=
  (8 * (slabBlobSize - sizeofSlab) - 7) / ((8 * objSize + 1) % u32Size) % u32Size

def bitmapSize (total : ℕ) : ℕ := alignUp total 8 / 8

def objectOffset (objSize total : ℕ) : ℕ :=
  alignUp (sizeofSlab + bitmapSize total) objSize % u32Size

/-- The `while` loop of `slab_init`, which lowers the number of objects until they fit. -/
def fitTotal (objSize allocSize : ℕ) : ℕ → Outcome ℕ
  | 0 => if (objectOffset objSize 0) % u32Size > slabBlobSize then .error .fuel else .ok 0
  | total + 1 =>
    if (objectOffset objSize (total + 1) + (total + 1) * allocSize) % u32Size > slabBlobSize
    then fitTotal objSize allocSize total
    else .ok (total + 1)

/-- The loop that marks the pages of a blob, with `n` pages left from `addr`. -/
def markPages {κ : Type} : ℕ → ℕ → Mm κ → Outcome (Mm κ)
  | 0, _, s => .ok s
  | n + 1, addr, s => do
      let page ← addr2page addr
      markPages n (addr + pageSize)
        (Buddy.setPage page (fun page => { page with flags := page.flags ||| pmSlab }) s)

/-- The header that `slab_init` writes. Of the bitmap it clears the bytes in use. -/
def header (kmem total offset : ℕ) (old : Slab) : Slab where
  kmem := kmem
  bm := ⟨fun i => if i < bitmapSize total then 0 else old.bm.data i, total⟩
  total := total
  free := total
  offset := offset
  magic := slabMagic

def slabInit (c blob : ℕ) (s : Mm Kmem) : Outcome (Mm Kmem) := do
  let s ← markPages (slabBlobSize / pageSize) blob s
  let kmem := s.rest.cache c
  let total ← fitTotal kmem.objSize kmem.allocSize (objectNum kmem.allocSize)
  let s := onKmem (setSlab blob (header c total (objectOffset kmem.objSize total))) s
  .ok (onKmem (setLinks (·.addTail (.slab blob) (.head c .slabsPartial))) s)

def slabAlloc (a : ℕ) (k : Kmem) : Outcome (ℕ × Kmem) :=
  let k := setSlab a (fun s => { s with free := (s.free + u32Size - 1) % u32Size }) k
  let k := if (k.slab a).free = 0 then
      setLinks (·.move (.slab a) (.head (k.slab a).kmem .slabsFull)) k
    else k
  let idx := bitmapFindNextClear (k.slab a).bm 0 % u32Size
  if idx = (k.slab a).bm.len then .error (.panic "slab meta data error" [])
  else
    let k := setSlab a (fun s => { s with bm := bitmapSet s.bm idx }) k
    let allocSize := (k.cache (k.slab a).kmem).allocSize
    .ok ((a + (k.slab a).offset + idx * allocSize % u32Size) % wordSize, k)

/-- The part of `slab_free` after the checks, for object `idx` of the slab at `a`. -/
def slabPut (a idx : ℕ) (k : Kmem) : Kmem :=
  let k := if (k.slab a).free = 0 then
      setLinks (·.move (.slab a) (.head (k.slab a).kmem .slabsPartial)) k
    else k
  let k := setSlab a (fun s => { s with bm := bitmapClear s.bm idx }) k
  setSlab a (fun s => { s with free := (s.free + 1) % u32Size }) k

/-- The result tells whether the object was live. -/
def slabFree (addr : ℕ) (k : Kmem) : Outcome (Bool × Kmem) :=
  let a := alignDown addr slabBlobSize
  let s := k.slab a
  if s.magic ≠ slabMagic then
    .error (.panic "trying free %p that doesn't belong to a slab" [addr])
  else
    let objOffset := (addr - a) % u32Size
    if objOffset < s.offset then
      .error (.panic "trying free %p belongs to a slab's meta data" [addr])
    else
      let idx := (objOffset - s.offset) / (k.cache s.kmem).allocSize
      if idx ≥ s.total then
        .error (.panic "trying free out-bounded block at %p in slab" [addr])
      else if bitmapGet s.bm idx = 0 then .ok (false, k)
      else if s.free = s.total then .error (.panic "meta data error in slab" [])
      else .ok (true, slabPut a idx k)

/-! ## Caches -/

/-- The counters of a cache when a slab is put on `slabs_partial`. -/
def addCounters (c a : ℕ) (k : Kmem) : Kmem :=
  setCache c (fun kmem => { kmem with
    total := (kmem.total + (k.slab a).total) % wordSize
    free := (kmem.free + (k.slab a).free) % wordSize }) k

def initHeads (c : ℕ) (L : Links Node) : Links Node :=
  ((L.init (.head c .slabsFree)).init (.head c .slabsFull)).init (.head c .slabsPartial)

/-- The fields of an empty cache. -/
def emptyCache (objSize : ℕ) : KmemCache where
  objSize := objSize % u32Size
  allocSize := alignUp objSize 8 % u32Size
  total := 0
  free := 0
  low := objectNum (alignUp objSize 8 % u32Size)
  high := 2 * objectNum (alignUp objSize 8 % u32Size) % u32Size
  expanding := false
  lock := .initializer

def kmemCacheInit (buddyAlloc : Mm Kmem → Outcome (Option ℕ × Mm Kmem)) (c objSize : ℕ)
    (withInitialAlloc : Bool) (s : Mm Kmem) : Outcome (ℤ × Mm Kmem) :=
  let s := onKmem (setCache c (fun _ => emptyCache objSize)) s
  let s := onKmem (setLinks (initHeads c)) s
  if !withInitialAlloc then .ok (0, s)
  else if !s.rest.buddyInited then
    .error (.panic "trying create slab without buddy inited" [])
  else do
    let (slab, s) ← buddyAlloc s
    match slab with
    | none => .ok (-enomem, s)
    | some slab => do
        let s ← slabInit c slab s
        .ok (0, onKmem (addCounters c slab) s)

/-- What `kmem_cache_alloc_nolock` does with the blob it asked for. The result is false
when the call ends there without an object. -/
def expandWith (c : ℕ) (slab : Option ℕ) (s : Mm Kmem) : Outcome (Bool × Mm Kmem) :=
  let s := onKmem (setCache c (fun kmem => { kmem with expanding := false })) s
  match slab with
  | none => .ok (decide ((s.rest.cache c).free > 0), s)
  | some slab => do
      let s ← slabInit c slab s
      .ok (true, onKmem (addCounters c slab) s)

/-- The first part of `kmem_cache_alloc_nolock`, which looks for another slab when few
objects are left. -/
def expand (buddyAlloc : Mm Kmem → Outcome (Option ℕ × Mm Kmem)) (c : ℕ) (s : Mm Kmem) :
    Outcome (Bool × Mm Kmem) :=
  if (s.rest.cache c).expanding = false ∧ (s.rest.cache c).free < (s.rest.cache c).low then
    if !s.rest.links.isEmpty (.head c .slabsFree) then do
      let slab ← listFirstEntry s.rest c .slabsFree
      let s := onKmem (setLinks (·.move (.slab slab) (.head c .slabsPartial))) s
      .ok (true, onKmem (addCounters c slab) s)
    else do
      let s := onKmem (setCache c (fun kmem => { kmem with expanding := true })) s
      let (slab, s) ← buddyAlloc s
      expandWith c slab s
  else .ok (true, s)

/-- The second part: an object of the first slab on `slabs_partial`. -/
def takeObject (c : ℕ) (k : Kmem) : Outcome (Option ℕ × Kmem) :=
  if (k.cache c).free = 0 then .ok (none, k)
  else do
    let slab ← listFirstEntry k c .slabsPartial
    let (mem, k) ← slabAlloc slab k
    .ok (some mem, setCache c
      (fun kmem => { kmem with free := (kmem.free + wordSize - 1) % wordSize }) k)

def kmemCacheAllocNolock (buddyAlloc : Mm Kmem → Outcome (Option ℕ × Mm Kmem)) (c : ℕ)
    (s : Mm Kmem) : Outcome (Option ℕ × Mm Kmem) := do
  let (more, s) ← expand buddyAlloc c s
  if !more then .ok (none, s)
  else do
    let (mem, k) ← takeObject c s.rest
    .ok (mem, { s with rest := k })

def setLock (c : ℕ) (lock : Spinlock) (k : Kmem) : Kmem :=
  setCache c (fun kmem => { kmem with lock := lock }) k

/-- A caller that holds the lock is expanding the same cache. -/
def kmemCacheAlloc (buddyAlloc : Mm Kmem → Outcome (Option ℕ × Mm Kmem)) (c : ℕ)
    (s : Mm Kmem) : Outcome (Option ℕ × Mm Kmem) :=
  if (s.rest.cache c).lock.holding then kmemCacheAllocNolock buddyAlloc c s
  else do
    let lock ← (s.rest.cache c).lock.acquire
    let (mem, s) ← kmemCacheAllocNolock buddyAlloc c (onKmem (setLock c lock) s)
    let lock ← (s.rest.cache c).lock.release
    .ok (mem, onKmem (setLock c lock) s)

/-- `slab_free` and the counter of the cache. -/
def putObject (c addr : ℕ) (k : Kmem) : Outcome Kmem := do
  let (freed, k) ← slabFree addr k
  if freed then
    .ok (setCache c (fun kmem => { kmem with free := (kmem.free + 1) % wordSize }) k)
  else .ok k

def kmemCacheFree (addr : ℕ) (k : Kmem) : Outcome Kmem :=
  let c := (k.slab (alignDown addr slabBlobSize)).kmem
  if (k.cache c).lock.holding then putObject c addr k
  else do
    let lock ← (k.cache c).lock.acquire
    let k ← putObject c addr (setLock c lock k)
    let lock ← (k.cache c).lock.release
    .ok (setLock c lock k)

def slabEmpty (s : Slab) : Bool := s.total = s.free

/-- The loop of `kmem_cache_flush` at the node `pos`; `n` is the node after it. -/
def flushLoop (c : ℕ) : ℕ → Node → Node → Kmem → Outcome Kmem
  | 0, _, _, _ => .error .fuel
  | fuel + 1, pos, n, k =>
    if pos = .head c .slabsPartial then .ok k
    else do
      let a ← listEntry pos
      let k := if slabEmpty (k.slab a) then
          setLinks (·.move (.slab a) (.head c .slabsFree)) k
        else k
      flushLoop c fuel n (k.links.next n) k

/-- The early return leaves the lock taken. -/
def kmemCacheFlush (fuel c : ℕ) (k : Kmem) : Outcome Kmem := do
  let lock ← (k.cache c).lock.acquire
  let k := setLock c lock k
  if (k.cache c).free < (k.cache c).high then .ok k
  else do
    let pos := k.links.next (.head c .slabsPartial)
    let k ← flushLoop c fuel pos (k.links.next pos) k
    let lock ← (k.cache c).lock.release
    .ok (setLock c lock k)

end Slab

end NoobKernel
