import NoobKernel.Library.Ring
import NoobKernel.Model.Basic

/-! # The buddy allocator

Free blocks are listed by order. Each has a `mem_block` with its address and its list
node, and the first page of a block records the order and, while the block is free,
the `mem_block`. Metadata is allocated by a parameter, which may use the allocator
itself. -/

namespace NoobKernel

open Library Function

abbrev pmBuddy : BitVec 16 := 0x01
abbrev pmSlab : BitVec 16 := 0x02
abbrev pmStatic : BitVec 16 := 0x04

/-- `struct page`: `priv` is the `private` pointer to a `mem_block`. -/
structure Page where
  flags : BitVec 16
  order : ℕ
  priv : Option ℕ
deriving DecidableEq, Repr

def addr2index (addr : ℕ) : Option ℕ :=
  if pmStart ≤ addr ∧ addr < pmEnd then some ((addr - pmStart) / pageSize) else none

/-- `addr2page`, used where the result is dereferenced at once. -/
def addr2page (addr : ℕ) : Outcome ℕ :=
  match addr2index addr with
  | none => .error .wild
  | some i => .ok i

namespace Buddy

/-- The list nodes: the heads of the free lists and the nodes inside `mem_block`s. -/
inductive Node where
  | head (order : ℕ)
  | block (p : ℕ)
deriving DecidableEq, Repr

/-- The state of the allocator. `start p` is the address field of the `mem_block`
at `p`. -/
structure State where
  pages : ℕ → Page
  start : ℕ → ℕ
  links : Links Node
  freePages : ℕ
  lock : Spinlock

end Buddy

/-- The allocator together with the rest of the memory manager. -/
structure Mm (κ : Type) where
  buddy : Buddy.State
  rest : κ

namespace Buddy

variable {κ : Type}

/-- `alloc_mem_block` and `free_mem_block`. -/
structure Metadata (κ : Type) where
  alloc : Mm κ → Outcome (Option ℕ × Mm κ)
  free : ℕ → Mm κ → Outcome (Mm κ)

def setPage (i : ℕ) (f : Page → Page) (s : Mm κ) : Mm κ :=
  { s with buddy := { s.buddy with
      pages := update s.buddy.pages i (f (s.buddy.pages i)) } }

def setStart (p addr : ℕ) (s : Mm κ) : Mm κ :=
  { s with buddy := { s.buddy with start := update s.buddy.start p addr } }

def setLinks (f : Links Node → Links Node) (s : Mm κ) : Mm κ :=
  { s with buddy := { s.buddy with links := f s.buddy.links } }

def setFreePages (f : ℕ → ℕ) (s : Mm κ) : Mm κ :=
  { s with buddy := { s.buddy with freePages := f s.buddy.freePages % wordSize } }

def setLock (l : Spinlock) (s : Mm κ) : Mm κ := { s with buddy := { s.buddy with lock := l } }

attribute [simps -fullyApplied buddy rest] setPage setStart setLinks setFreePages setLock

def listEmpty (s : Mm κ) (order : ℕ) : Bool := s.buddy.links.isEmpty (.head order)

/-- The `mem_block` around a list node. A list head lies in no `mem_block`. -/
def listEntry : Node → Outcome ℕ
  | .head _ => .error .wild
  | .block p => .ok p

def listFirstEntry (s : Mm κ) (order : ℕ) : Outcome ℕ :=
  listEntry (s.buddy.links.next (.head order))

/-- The list head for an order read from a page; the array has no further heads. -/
def freeList (order : ℕ) : Outcome Node :=
  if order ≤ buddyMaxOrder then .ok (.head order) else .error .wild

def size2order (size : ℕ) : ℕ := ((log2Ceil size - pageShift) % 256).toNat

def getBuddyAddr (addr order : ℕ) : ℕ := addr ^^^ (pageSize <<< order)

/-! ## Initialisation -/

/-- The part of physical memory that the allocator manages. -/
structure Region where
  base : ℕ
  limit : ℕ

/-- A page of the region after `pm_pages_init`: it belongs to the allocator and to no
block yet. -/
def buddyPage : Page := ⟨pmStatic ||| pmBuddy, buddyMaxOrder + 1, none⟩

def initLists (s : Mm κ) : ℕ → Mm κ
  | 0 => s
  | k + 1 => setLinks (·.init (.head k)) (initLists s k)

/-- One turn of the loop of `buddy_init`, for the blob at `p`. -/
def initBlob (md : Metadata κ) (p : ℕ) (s : Mm κ) : Outcome (ℤ × Mm κ) :=
  match addr2index p with
  | none => .ok (-einval, s)
  | some pg => do
      let (t, s) ← md.alloc s
      match t with
      | none => .error (.panic "no enough early heap memory for buddy init" [])
      | some t =>
        let s := setStart t p s
        let s := setPage pg (fun page => { page with priv := some t }) s
        let s := setPage pg (fun page => { page with order := buddyMaxOrder }) s
        let s := setFreePages (· + 1 <<< buddyMaxOrder) s
        .ok (0, setLinks (·.addTail (.block t) (.head buddyMaxOrder)) s)

/-- The loop over the blobs of the region, with `n` blobs left from `p`. -/
def initBlobs (md : Metadata κ) : ℕ → ℕ → Mm κ → Outcome (ℤ × Mm κ)
  | 0, _, s => .ok (0, s)
  | n + 1, p, s => do
      let (ret, s) ← initBlob md p s
      if ret = 0 then initBlobs md n (p + buddyBlobSize) s else .ok (ret, s)

def buddyInit (md : Metadata κ) (R : Region) (s : Mm κ) : Outcome (ℤ × Mm κ) :=
  initBlobs md ((R.limit - R.base + (buddyBlobSize - 1)) / buddyBlobSize) R.base
    (initLists s (buddyMaxOrder + 1))

/-! ## Merging -/

/-- The scan of `list_for_each_safe` in `merge_blocks` from node `p`: the node where
it ends and, when it ends early, the block there and its free buddy. -/
def mergeScan (s : Mm κ) (i : ℕ) : ℕ → Node → Outcome (Node × Option (ℕ × ℕ × ℕ × ℕ))
  | 0, _ => .error .fuel
  | fuel + 1, p =>
    if p = .head i then .ok (p, none)
    else do
      let block ← listEntry p
      let page ← addr2page (s.buddy.start block)
      let buddyPage ← addr2page
        (getBuddyAddr (s.buddy.start block) (s.buddy.pages page).order)
      match (s.buddy.pages buddyPage).priv with
      | none => mergeScan s i fuel (s.buddy.links.next p)
      | some buddyBlock =>
        if (s.buddy.pages buddyPage).order ≠ i then
          mergeScan s i fuel (s.buddy.links.next p)
        else .ok (p, some (block, page, buddyBlock, buddyPage))

/-- The merged block keeps the `mem_block` and the page of its lower half. -/
def mergeInto (md : Metadata κ) (keep keepPage drop dropPage : ℕ) (s : Mm κ) :
    Outcome (Mm κ) := do
  let s ← md.free drop s
  let s := setPage dropPage (fun page => { page with priv := none }) s
  let s := setPage dropPage (fun page => { page with order := buddyMaxOrder + 1 }) s
  let s := setPage keepPage (fun page => { page with order := (page.order + 1) % 256 }) s
  let list ← freeList (s.buddy.pages keepPage).order
  .ok (setLinks (·.add (.block keep) list) s)

def mergePair (md : Metadata κ) (block page buddyBlock buddyPage : ℕ) (s : Mm κ) : Outcome (Mm κ) :=
  let s := setLinks (·.del (.block block)) s
  let s := setLinks (·.del (.block buddyBlock)) s
  if s.buddy.start block > s.buddy.start buddyBlock then
    mergeInto md buddyBlock buddyPage block page s
  else mergeInto md block page buddyBlock buddyPage s

/-- The `while` loop of one level. The cursor `p` is that of the whole function. -/
def mergeLevel (md : Metadata κ) (scanFuel i : ℕ) :
    ℕ → Option Node → Mm κ → Outcome (Option Node × Mm κ)
  | 0, _, _ => .error .fuel
  | fuel + 1, p, s =>
    if p = some (.head i) then .ok (p, s)
    else do
      let (p, found) ← mergeScan s i scanFuel (s.buddy.links.next (.head i))
      match found with
      | none => mergeLevel md scanFuel i fuel (some p) s
      | some (block, page, buddyBlock, buddyPage) => do
          let s ← mergePair md block page buddyBlock buddyPage s
          mergeLevel md scanFuel i fuel (some p) s

/-- The levels from `i` on, with `n` levels left. -/
def mergeLevels (md : Metadata κ) (fuel : ℕ) : ℕ → ℕ → Option Node → Mm κ → Outcome (Mm κ)
  | 0, _, _, s => .ok s
  | n + 1, i, p, s =>
    if listEmpty s i then mergeLevels md fuel n (i + 1) p s
    else do
      let (p, s) ← mergeLevel md fuel i fuel p s
      mergeLevels md fuel n (i + 1) p s

def mergeBlocks (md : Metadata κ) (fuel order : ℕ) (s : Mm κ) : Outcome (Mm κ) :=
  mergeLevels md fuel order 0 none s

/-! ## Splitting -/

/-- The smallest order from `source` on with a free block, or `buddyMaxOrder + 1`. -/
def sourceOrder (s : Mm κ) : ℕ → ℕ → ℕ
  | 0, source => source
  | n + 1, source =>
    if source ≤ buddyMaxOrder ∧ listEmpty s source = true then sourceOrder s n (source + 1)
    else source

/-- The first part of a turn of the split loop: take the first block off its list. -/
def splitUnlink (order : ℕ) (s : Mm κ) : Outcome (ℕ × ℕ × Mm κ) := do
  let block ← listFirstEntry s order
  let page ← addr2page (s.buddy.start block)
  if (s.buddy.pages page).order ≠ order then
    .error (.panic "split_blocks: page->order=%u != list order=%u"
      [(s.buddy.pages page).order, order])
  else .ok (block, page, setLinks (·.del (.block block)) s)

/-- The second part, after the metadata allocation: list the two halves. -/
def splitRelink (newOrder block page buddyBlock : ℕ) (s : Mm κ) : Outcome (Mm κ) := do
  let s := setPage page (fun page => { page with order := newOrder }) s
  let s := setStart buddyBlock (getBuddyAddr (s.buddy.start block) newOrder) s
  let buddyPage ← addr2page (s.buddy.start buddyBlock)
  let s := setPage buddyPage (fun page => { page with order := newOrder }) s
  let s := setPage buddyPage (fun page => { page with priv := some buddyBlock }) s
  let s := setLinks (·.addTail (.block block) (.head newOrder)) s
  .ok (setLinks (·.addTail (.block buddyBlock) (.head newOrder)) s)

def splitStep (md : Metadata κ) (order : ℕ) (s : Mm κ) : Outcome (Mm κ) := do
  let (block, page, s) ← splitUnlink order s
  let (buddyBlock, s) ← md.alloc s
  match buddyBlock with
  | none => .error (.panic "buddy metadata OOM in split_blocks" [])
  | some buddyBlock => splitRelink (order - 1) block page buddyBlock s

/-- The split loop from order `targetOrder + n` down. -/
def splitLoop (md : Metadata κ) (targetOrder : ℕ) : ℕ → Mm κ → Outcome (Mm κ)
  | 0, s => .ok s
  | n + 1, s => do
      let s ← splitStep md (targetOrder + n + 1) s
      splitLoop md targetOrder n s

def splitBlocks (md : Metadata κ) (targetOrder : ℕ) (s : Mm κ) : Outcome (Mm κ) :=
  let source := sourceOrder s (buddyMaxOrder + 1) (targetOrder + 1)
  if source > buddyMaxOrder then .ok s
  else splitLoop md targetOrder (source - targetOrder) s

/-! ## Allocation and release -/

def buddyAllocInner (md : Metadata κ) (order : ℕ) (s : Mm κ) : Outcome (Option ℕ × Mm κ) := do
  let block ← listFirstEntry s order
  let page ← addr2page (s.buddy.start block)
  if (s.buddy.pages page).order ≠ order then
    .error (.panic "buddy order broken, expected: %u, actual: %u"
      [order, (s.buddy.pages page).order])
  else do
    let s := setPage page (fun page => { page with priv := none }) s
    let s := setPage page (fun page => { page with flags := page.flags &&& ~~~pmSlab }) s
    let addr := s.buddy.start block
    let s := setLinks (·.del (.block block)) s
    let s ← md.free block s
    .ok (some addr, setFreePages (· + wordSize - 1 <<< order) s)

def buddyAllocNolock (md : Metadata κ) (fuel size : ℕ) (s : Mm κ) : Outcome (Option ℕ × Mm κ) :=
  let order := size2order size
  if !listEmpty s order then buddyAllocInner md order s
  else do
    let s ← mergeBlocks md fuel order s
    if !listEmpty s order then buddyAllocInner md order s
    else do
      let s ← splitBlocks md order s
      if !listEmpty s order then buddyAllocInner md order s
      else .ok (none, s)

/-- A caller that holds the lock is the metadata allocation of an outer call. -/
def buddyAlloc (md : Metadata κ) (fuel size : ℕ) (s : Mm κ) : Outcome (Option ℕ × Mm κ) :=
  if size < pageSize ∨ size > buddyBlobSize then .ok (none, s)
  else if s.buddy.lock.holding then buddyAllocNolock md fuel size s
  else do
    let lock ← s.buddy.lock.acquire
    let (addr, s) ← buddyAllocNolock md fuel size (setLock lock s)
    let lock ← s.buddy.lock.release
    .ok (addr, setLock lock s)

def buddyFree (md : Metadata κ) (addr : ℕ) (s : Mm κ) : Outcome (Mm κ) := do
  let (block, s) ← md.alloc s
  match block with
  | none => .error (.panic "OOM during buddy free" [])
  | some block => do
      let page ← addr2page addr
      let s := setStart block addr s
      let s := setPage page (fun page => { page with priv := some block }) s
      let s := setPage page (fun page => { page with flags := page.flags &&& ~~~pmSlab }) s
      let lock ← s.buddy.lock.acquire
      let s := setLock lock s
      let s := setFreePages (· + 1 <<< (s.buddy.pages page).order) s
      let list ← freeList (s.buddy.pages page).order
      let s := setLinks (·.add (.block block) list) s
      let lock ← s.buddy.lock.release
      .ok (setLock lock s)

end Buddy

end NoobKernel
