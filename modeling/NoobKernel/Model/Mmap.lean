import NoobKernel.Model.Uvm

/-! # Memory system calls

`sys_brk`, `sys_mmap`, `sys_munmap` and `sys_mprotect`, for processes of which each has a page
table of its own and some share their pages. -/

namespace NoobKernel.Vm

open Function

open Library

abbrev stackPages : ℕ := 128
abbrev mapFixed : ℕ := 0x10
abbrev protRead : ℕ := 1
abbrev protWrite : ℕ := 2
abbrev protExec : ℕ := 4

def pageAlignUp (a : ℕ) : ℕ := alignUp a pageSize

def pageAlignDown (a : ℕ) : ℕ := alignDown a pageSize

/-- The addresses of `n` pages from `a` on. -/
def pagesFrom : ℕ → ℕ → List ℕ
  | 0, _ => []
  | n + 1, a => a :: pagesFrom n (a + pageSize)

/-- The addresses in the loop `for (a = start; a < stop; a += PAGE_SIZE)`. -/
def pages (start stop : ℕ) : List ℕ := pagesFrom ((stop - start + (pageSize - 1)) / pageSize) start

/-! ## Processes -/

/-- An open file, of which only the reads matter: from a position, a number of bytes, into a
page. The answer is the number of bytes read and the page. -/
structure File where
  read : ℕ → ℕ → (Index → ℕ) → ℕ × (Index → ℕ)

structure Proc where
  pagetable : ℕ
  brkEnd : ℕ
  vmShared : Bool
  parent : Option ℕ
  children : List ℕ
  vmLock : Spinlock
  fdTable : ℕ → Option File

structure State where
  mem : Memory
  proc : ℕ → Proc

def setProc (p : ℕ) (f : Proc → Proc) (s : State) : State :=
  { s with proc := update s.proc p (f (s.proc p)) }

def sharedVmOwner (s : State) (p : ℕ) : ℕ :=
  match (s.proc p).parent with
  | some parent => if (s.proc p).vmShared then parent else p
  | none => p

/-- A process and those of its children that share its pages. -/
def members (s : State) (owner : ℕ) : List ℕ :=
  owner :: (s.proc owner).children.filter (fun c => (s.proc c).vmShared)

def tables (s : State) (owner : ℕ) : List ℕ := (members s owner).map (fun q => (s.proc q).pagetable)

def syncSharedBrk (owner brkEnd : ℕ) (s : State) : State :=
  { s with proc := fun q => if q ∈ members s owner then { s.proc q with brkEnd } else s.proc q }

/-- A system call under the lock of the owner, which is held until the call returns. -/
def withVmLock (owner : ℕ) (s : State) (call : State → ℤ × State) : Outcome (ℤ × State) := do
  let _ ← (s.proc owner).vmLock.acquire
  pure (call s)

/-! ## Pages of a group -/

/-- `shared_map_page`. The first table is that of the owner. -/
def sharedMapPage (tables : List ℕ) (va pa pteFlags : ℕ) (m : Memory) : ℤ × Memory :=
  forEach (fun pt => mappages pt va pa 1 pteFlags) tables m

def reservePage (va pt : ℕ) (m : Memory) : ℤ × Memory :=
  match va2pte pt va true m with
  | (none, m) => (-enomem, m)
  | (some loc, m) => (0, setPte loc pteMmapReserved m)

def sharedReservePage (tables : List ℕ) (va : ℕ) (m : Memory) : ℤ × Memory :=
  forEach (reservePage va) tables m

def unmapPage (va pt : ℕ) (m : Memory) : Memory :=
  let m :=
    match (va2pte pt va false m).1 with
    | none => m
    | some loc => setPte loc 0 m
  (unmappages pt va 1 m).2

def sharedUnmapPage (tables : List ℕ) (va : ℕ) (m : Memory) : Memory :=
  tables.foldl (fun m pt => unmapPage va pt m) m

def protectPage (va pteFlags pt : ℕ) (m : Memory) : ℤ × Memory :=
  match (va2pte pt va false m).1 with
  | none => (-enomem, m)
  | some loc =>
    if m.word loc.1 loc.2 &&& pteV = 0 then (-enomem, m)
    else (0, setPte loc (leafPte (pte2pa (m.word loc.1 loc.2)) pteFlags) m)

/-- `shared_protect_page`. A reserved page of the owner is mapped; a valid one gets its flags in
all tables. -/
def sharedProtectPage (tables : List ℕ) (va pteFlags : ℕ) (m : Memory) : ℤ × Memory :=
  let pte := pteOf (tables.headD 0) va m
  if pte &&& pteV = 0 then
    if pte &&& pteMmapReserved = 0 then (-enomem, m)
    else if pteFlags &&& pteU = 0 then (0, m)
    else
      match kzalloc m with
      | (none, m) => (-enomem, m)
      | (some pa, m) => sharedMapPage tables va pa pteFlags m
  else forEach (protectPage va pteFlags) tables m

/-- Whether a page is mapped or reserved. -/
def IsTaken (pt va : ℕ) (m : Memory) : Prop :=
  pteOf pt va m &&& pteV ≠ 0 ∨ pteOf pt va m &&& pteMmapReserved ≠ 0

instance (pt va : ℕ) (m : Memory) : Decidable (IsTaken pt va m) :=
  inferInstanceAs (Decidable (_ ∨ _))

def userRangeHasMapping (pt start sz : ℕ) (m : Memory) : Bool :=
  (pages start ((start + sz) % wordSize)).any (fun a => IsTaken pt a m)

/-- The loop of `find_free_user_range` over `n` candidates. -/
def findFreeLoop (pt sz : ℕ) (m : Memory) : ℕ → ℕ → ℕ
  | 0, _ => 0
  | n + 1, cur =>
    if userRangeHasMapping pt cur sz m then findFreeLoop pt sz m n (cur + pageSize) else cur

def findFreeUserRange (pt start sz limit : ℕ) (m : Memory) : ℕ :=
  let cur := pageAlignUp start
  if sz = 0 ∨ cur ≥ limit then 0
  else if sz > limit - cur then 0
  else findFreeLoop pt sz m ((limit - sz - cur) / pageSize + 1) cur

/-! ## `sys_brk` -/

/-- The loop that frees the pages of a heap that gets smaller. -/
def shrinkHeap (own : ℕ) (tables : List ℕ) (vas : List ℕ) (m : Memory) : Memory :=
  vas.foldl (fun m a =>
    if walkaddr own a m ≠ 0 then kfree (walkaddr own a m) (sharedUnmapPage tables a m) else m) m

/-- One round of the loop that adds pages to the heap. -/
def growPage (own : ℕ) (tables : List ℕ) (a : ℕ) (m : Memory) : ℤ × Memory :=
  if walkaddr own a m ≠ 0 then (0, m)
  else
    match kzalloc m with
    | (none, m) => (-enomem, m)
    | (some pa, m) =>
      let r := sharedMapPage tables a pa (pteR ||| pteW ||| pteU) m
      if r.1 ≠ 0 then (-enomem, kfree pa r.2) else (0, r.2)

/-- The break before the first call that moves it. -/
abbrev brkDefault : ℕ := 1 <<< 20

/-- The break that `sys_brk(0)` reports. -/
def brkOf (s : State) (owner : ℕ) : ℕ :=
  if (s.proc owner).brkEnd = 0 then brkDefault else (s.proc owner).brkEnd

/-- The first call that moves the break sets it to its default. -/
def startBrk (owner : ℕ) (s : State) : State :=
  if (s.proc owner).brkEnd = 0 then setProc owner (fun q => { q with brkEnd := brkDefault }) s
  else s

/-- The part of `sys_brk` that moves the break. -/
def moveBrk (addr p owner : ℕ) (s : State) : ℤ × State :=
  let cur := (s.proc owner).brkEnd
  let own := (s.proc p).pagetable
  if addr < cur then
    let mem := shrinkHeap own (tables s owner) (pages (pageAlignUp addr) (pageAlignUp cur)) s.mem
    (addr, syncSharedBrk owner addr { s with mem })
  else if cur < addr then
    let r := forEach (growPage own (tables s owner))
      (pages (pageAlignUp cur) (pageAlignUp addr)) s.mem
    let s := { s with mem := r.2 }
    let s := if r.1 = 0 then syncSharedBrk owner addr s else s
    ((s.proc owner).brkEnd, s)
  else (cur, s)

def sysBrk (addr p : ℕ) (s : State) : Outcome (ℤ × State) :=
  let owner := sharedVmOwner s p
  withVmLock owner s fun s =>
    if addr = 0 then (brkOf s owner, s) else moveBrk addr p owner (startBrk owner s)

/-! ## `sys_mmap` -/

/-- The flags for the pages of a protection; without access they lack `PTE_U`. -/
def protFlags (prot : ℕ) : ℕ :=
  (if prot &&& (protRead ||| protWrite ||| protExec) = 0 then pteR else pteU) |||
    (if prot &&& protRead ≠ 0 then pteR else 0) |||
    (if prot &&& protWrite ≠ 0 then pteR ||| pteW else 0) |||
    (if prot &&& protExec ≠ 0 then pteX else 0)

abbrev mmapLimit : ℕ := userTop - stackPages * pageSize

/-- Where `sys_mmap` places its range, or nothing when no range is free. -/
def mmapStart (own addr sz flags brkEnd : ℕ) (m : Memory) : Option ℕ :=
  if flags &&& mapFixed ≠ 0 then some addr
  else
    let base := pageAlignUp (if brkEnd ≠ 0 then brkEnd else 0x10000)
    let hint := if addr ≠ 0 ∧ addr < mmapLimit then findFreeUserRange own addr sz mmapLimit m else 0
    let start := if hint ≠ 0 then hint else findFreeUserRange own base sz mmapLimit m
    if start = 0 then none else some start

/-- The loop for a mapped file. -/
def fileMapLoop (tables : List ℕ) (f : File) (start len pteFlags : ℕ) :
    List ℕ → ℕ → Memory → ℤ × Memory
  | [], _, m => (0, m)
  | a :: vas, pos, m =>
    match kzalloc m with
    | (none, m) => (-enomem, m)
    | (some pa, m) =>
      let r := sharedMapPage tables a pa pteFlags m
      if r.1 ≠ 0 then (-enomem, kfree pa r.2)
      else
        let toRead := min pageSize (len - (a - start))
        let bytes := f.read pos toRead (r.2.word pa)
        if 0 < toRead then
          fileMapLoop tables f start len pteFlags vas (pos + bytes.1)
            { r.2 with word := update r.2.word pa bytes.2 }
        else fileMapLoop tables f start len pteFlags vas pos r.2

/-- The end of a round of the anonymous loop, where the page is reserved or mapped. -/
def placePage (tables : List ℕ) (protNone : Bool) (pteFlags a : ℕ) (m : Memory) : ℤ × Memory :=
  if protNone then
    let r := sharedReservePage tables a m
    if r.1 ≠ 0 then (-enomem, r.2) else (0, r.2)
  else
    match kzalloc m with
    | (none, m) => (-enomem, m)
    | (some pa, m) =>
      let r := sharedMapPage tables a pa pteFlags m
      if r.1 ≠ 0 then (-enomem, kfree pa r.2) else (0, r.2)

/-- One round of the anonymous loop. -/
def anonPage (own : ℕ) (tables : List ℕ) (fixed protNone : Bool) (pteFlags a : ℕ) (m : Memory) :
    ℤ × Memory :=
  if walkaddr own a m ≠ 0 then
    if fixed then
      placePage tables protNone pteFlags a (kfree (walkaddr own a m) (sharedUnmapPage tables a m))
    else (0, m)
  else if pteOf own a m &&& pteV ≠ 0 then
    if fixed then placePage tables protNone pteFlags a (sharedUnmapPage tables a m) else (0, m)
  else placePage tables protNone pteFlags a m

/-- The break is raised to the end of a mapped range. -/
def raiseBrk (owner stop : ℕ) (s : State) : State :=
  if stop > (s.proc owner).brkEnd then syncSharedBrk owner stop s else s

/-- The pages of a range that `sys_mmap` has placed, from a file or anonymous. -/
def mmapPages (own : ℕ) (tables : List ℕ) (file : Option File) (start stop len prot flags offset : ℕ)
    (m : Memory) : ℤ × Memory :=
  match file with
  | some f => fileMapLoop tables f start len (protFlags prot) (pages start stop) offset m
  | none =>
    let fixed := flags &&& mapFixed ≠ 0
    let protNone := prot &&& (protRead ||| protWrite ||| protExec) = 0
    forEach (anonPage own tables fixed protNone (protFlags prot)) (pages start stop) m

/-- `sys_mmap`. A descriptor without a file ends the call with the lock still held. -/
def sysMmap (addr len prot flags : ℕ) (fd : ℤ) (offset p : ℕ) (s : State) : Outcome (ℤ × State) :=
  let owner := sharedVmOwner s p
  if len = 0 then pure (-1, s)
  else
    withVmLock owner s fun s =>
      let own := (s.proc p).pagetable
      let sz := pageAlignUp len
      match mmapStart own addr sz flags (s.proc owner).brkEnd s.mem with
      | none => (-enomem, s)
      | some start =>
        let stop := (start + sz) % wordSize
        let file := if 0 ≤ fd then (s.proc p).fdTable fd.toNat else none
        if 0 ≤ fd ∧ file.isNone then
          (-1, setProc owner (fun q => { q with vmLock := Spinlock.held }) s)
        else
          let r := mmapPages own (tables s owner) file start stop len prot flags offset s.mem
          if r.1 ≠ 0 then (-enomem, { s with mem := r.2 })
          else (start, raiseBrk owner stop { s with mem := r.2 })

/-! ## `sys_munmap` and `sys_mprotect` -/

def munmapPage (own : ℕ) (tables : List ℕ) (m : Memory) (a : ℕ) : Memory :=
  if walkaddr own a m ≠ 0 then kfree (walkaddr own a m) (sharedUnmapPage tables a m)
  else if pteOf own a m &&& pteMmapReserved ≠ 0 then sharedUnmapPage tables a m
  else m

/-- Ranges that `sys_munmap` refuses: those that start in the two trap pages, and those that
reach into the stack. -/
def IsGuarded (addr rangeEnd : ℕ) : Prop :=
  (trampoline ≤ addr ∧ addr < trampoline + pageSize) ∨
    (trapframe ≤ addr ∧ addr < trapframe + pageSize) ∨
    (rangeEnd > mmapLimit ∧ addr < userTop)

instance (addr rangeEnd : ℕ) : Decidable (IsGuarded addr rangeEnd) :=
  inferInstanceAs (Decidable (_ ∨ _ ∨ _))

def sysMunmap (addr len p : ℕ) (s : State) : Outcome (ℤ × State) :=
  let owner := sharedVmOwner s p
  if addr = 0 ∨ len = 0 then pure (0, s)
  else
    withVmLock owner s fun s =>
      let rangeEnd := (addr + pageAlignUp len) % wordSize
      if IsGuarded addr rangeEnd then (-einval, s)
      else
        let unmap := munmapPage (s.proc p).pagetable (tables s owner)
        (0, { s with mem := (pages addr rangeEnd).foldl unmap s.mem })

def sysMprotect (addr len prot p : ℕ) (s : State) : Outcome (ℤ × State) :=
  let owner := sharedVmOwner s p
  if len = 0 then pure (0, s)
  else if addr ≥ userTop then pure (-einval, s)
  else
    withVmLock owner s fun s =>
      let r := forEach (fun a => sharedProtectPage (tables s owner) a (protFlags prot))
        (pages (pageAlignDown addr) (pageAlignUp ((addr + len) % wordSize))) s.mem
      if r.1 ≠ 0 then (-enomem, { s with mem := r.2 }) else (0, { s with mem := r.2 })

/-- The memory system calls with their arguments. -/
inductive Call where
  | brk (addr : ℕ)
  | mmap (addr len prot flags : ℕ) (fd : ℤ) (offset : ℕ)
  | munmap (addr len : ℕ)
  | mprotect (addr len prot : ℕ)
deriving DecidableEq, Repr

def Call.run (p : ℕ) (s : State) : Call → Outcome (ℤ × State)
  | .brk addr => sysBrk addr p s
  | .mmap addr len prot flags fd offset => sysMmap addr len prot flags fd offset p s
  | .munmap addr len => sysMunmap addr len p s
  | .mprotect addr len prot => sysMprotect addr len prot p s

/-! ## `sys_fork` and `sys_clone` -/

def cloneProc (share : Bool) (p : ℕ) (parent : Proc) (pagetable : ℕ) : Proc where
  pagetable := pagetable
  brkEnd := parent.brkEnd
  vmShared := share
  parent := some p
  children := []
  vmLock := Spinlock.initializer
  fdTable := parent.fdTable

/-- `sys_clone` as far as the address space goes; `share` is `CLONE_VM`. The child has the
number `c` that `alloc_pid` gave. -/
def sysClone (share : Bool) (trampolinePa p c : ℕ) (s : State) : ℤ × State :=
  let parent := s.proc p
  match childPagetable share parent.pagetable trampolinePa s.mem with
  | (none, mem) => (-enomem, { s with mem })
  | (some pagetable, mem) =>
    (c, setProc p (fun q => { q with children := q.children ++ [c] })
      { mem, proc := update s.proc c (cloneProc share p parent pagetable) })

def sysFork (trampolinePa p c : ℕ) (s : State) : ℤ × State := sysClone false trampolinePa p c s

end NoobKernel.Vm
