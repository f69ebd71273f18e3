import NoobKernel.Model.Basic

/-! # Page tables

The Sv39 page tables of the kernel, in a memory of pages of 512 words. `kzalloc` stands for
the allocator as the page tables see it: it answers with a page that is not in use, which it
clears, or with nothing. -/

namespace NoobKernel

open Function

abbrev eaddrinuse : ℤ := 98
abbrev erange : ℤ := 34

abbrev vmEnd : ℕ := 2 ^ 38
abbrev userTop : ℕ := 0x80000000
abbrev trampoline : ℕ := vmEnd - pageSize
abbrev trapframe : ℕ := trampoline - pageSize

namespace Vm

abbrev pteV : ℕ := 1
abbrev pteR : ℕ := 2
abbrev pteW : ℕ := 4
abbrev pteX : ℕ := 8
abbrev pteU : ℕ := 16
abbrev pteG : ℕ := 32
abbrev pteA : ℕ := 64
abbrev pteD : ℕ := 128
abbrev pteMmapReserved : ℕ := 256

def pa2pte (pa : ℕ) : ℕ := ((pa >>> pageShift) <<< 10) % wordSize

def pte2pa (pte : ℕ) : ℕ := ((pte >>> 10) <<< pageShift) % wordSize

def pteFlags (pte : ℕ) : ℕ := pte &&& 0x3ff

/-- Entries that map a page rather than a table. -/
def IsLeaf (pte : ℕ) : Prop := pte &&& (pteR ||| pteW ||| pteX) ≠ 0

instance (pte : ℕ) : Decidable (IsLeaf pte) := inferInstanceAs (Decidable (_ ≠ _))

abbrev Index := Fin 512

def pxShift (level : ℕ) : ℕ := pageShift + 9 * level

def px (level va : ℕ) : Index :=
  ⟨(va >>> pxShift level) &&& 0x1ff, Nat.lt_of_le_of_lt Nat.and_le_right (by decide)⟩

def pageAligned (a : ℕ) : Bool := a &&& (pageSize - 1) = 0

/-- The pages of physical memory, which of them are in use, and the future answers of the
allocator. -/
structure Memory where
  word : ℕ → Index → ℕ
  used : ℕ → Bool
  answers : List ℕ

/-- Addresses at which a page can start. -/
def IsPage (pa : ℕ) : Prop := pageSize ∣ pa ∧ pageSize ≤ pa ∧ pa < pmEnd

instance (pa : ℕ) : Decidable (IsPage pa) := inferInstanceAs (Decidable (_ ∧ _ ∧ _))

/-- `kzalloc(PAGE_SIZE)`. -/
def kzalloc (m : Memory) : Option ℕ × Memory :=
  match m.answers with
  | [] => (none, m)
  | pa :: answers =>
    if IsPage pa ∧ m.used pa = false then
      (some pa, ⟨update m.word pa (fun _ => 0), update m.used pa true, answers⟩)
    else (none, { m with answers })

def kfree (pa : ℕ) (m : Memory) : Memory := { m with used := update m.used pa false }

/-- `*pte = value` for the entry `pte` of a page. -/
def setPte (pte : ℕ × Index) (value : ℕ) (m : Memory) : Memory :=
  { m with word := update m.word pte.1 (update (m.word pte.1) pte.2 value) }

/-- The loop of `va2pte` from a level downward. -/
def va2pteLevel (va : ℕ) (alloc : Bool) : ℕ → ℕ → Memory → Option (ℕ × Index) × Memory
  | 0, pagetable, m => (some (pagetable, px 0 va), m)
  | level + 1, pagetable, m =>
    let pte := m.word pagetable (px (level + 1) va)
    if pte &&& pteV ≠ 0 then va2pteLevel va alloc level (pte2pa pte) m
    else if !alloc then (none, m)
    else
      match kzalloc m with
      | (none, m) => (none, m)
      | (some page, m) =>
        va2pteLevel va alloc level page
          (setPte (pagetable, px (level + 1) va) (pa2pte page ||| pteV) m)

def va2pte (pagetable va : ℕ) (alloc : Bool) (m : Memory) : Option (ℕ × Index) × Memory :=
  va2pteLevel va alloc 2 pagetable m

/-- The entry that `va2pte` without allocation finds, or zero. -/
def pteOf (pagetable va : ℕ) (m : Memory) : ℕ :=
  match (va2pte pagetable va false m).1 with
  | none => 0
  | some pte => m.word pte.1 pte.2

def walkaddr (pagetable va : ℕ) (m : Memory) : ℕ :=
  if va ≥ vmEnd then 0
  else
    match (va2pte pagetable va false m).1 with
    | none => 0
    | some loc =>
      let pte := m.word loc.1 loc.2
      if pte &&& pteV = 0 then 0
      else if pte &&& pteU = 0 then 0
      else if pte &&& (pteR ||| pteW ||| pteX) = 0 then 0
      else pte2pa pte

def pagetableCreate (m : Memory) : Option ℕ × Memory := kzalloc m

/-- The entry for a page that is mapped with the permissions `perm`. -/
def leafPte (pa perm : ℕ) : ℕ :=
  pa2pte pa ||| perm ||| pteV ||| pteA ||| if perm &&& pteW ≠ 0 then pteD else 0

/-- The loop of `mappages`. -/
def mapLoop (pagetable : ℕ) : ℕ → ℕ → ℕ → ℕ → Memory → ℤ × Memory
  | 0, _, _, _, m => (0, m)
  | n + 1, va, pa, perm, m =>
    match va2pte pagetable va true m with
    | (none, m) => (-enomem, m)
    | (some loc, m) =>
      if m.word loc.1 loc.2 &&& pteV ≠ 0 then (-eaddrinuse, m)
      else mapLoop pagetable n ((va + pageSize) % wordSize) ((pa + pageSize) % wordSize) perm
        (setPte loc (leafPte pa perm) m)

/-- The permission bits that `mappages` keeps. -/
abbrev permMask : ℕ := pteV ||| pteR ||| pteW ||| pteX ||| pteU ||| pteG ||| pteA ||| pteD

def mappages (pagetable va pa npages perm : ℕ) (m : Memory) : ℤ × Memory :=
  if pagetable = 0 then (-einval, m)
  else if ¬ pageAligned va ∨ ¬ pageAligned pa then (-einval, m)
  else if npages = 0 then (0, m)
  else if (va + npages * pageSize) % wordSize > vmEnd then (-erange, m)
  else if (pa + npages * pageSize) % wordSize > pmEnd then (-erange, m)
  else mapLoop pagetable npages va pa (perm &&& permMask) m

/-- The loop of `unmappages` over `n` pages. -/
def unmapLoop (pagetable : ℕ) : ℕ → ℕ → Memory → Memory
  | 0, _, m => m
  | n + 1, va, m =>
    match (va2pte pagetable va false m).1 with
    | none => unmapLoop pagetable n (va + pageSize) m
    | some loc =>
      if m.word loc.1 loc.2 &&& pteV ≠ 0 then
        unmapLoop pagetable n (va + pageSize) (setPte loc 0 m)
      else unmapLoop pagetable n (va + pageSize) m

def unmappages (pagetable vm npages : ℕ) (m : Memory) : ℤ × Memory :=
  let start := alignDown vm pageSize
  let stop := (start + npages * pageSize) % wordSize
  (0, unmapLoop pagetable ((stop - start) / pageSize) start m)

end Vm

end NoobKernel
