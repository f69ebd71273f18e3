import NoobKernel.Model.PageTable

/-! # User page tables

The walks over a whole page table in `uvmcopy_tree` and `uvmshare_tree`, and the page tables
of new processes. -/

namespace NoobKernel.Vm

/-- `memcpy` of a page. -/
def copyPage (dst src : ℕ) (m : Memory) : Memory :=
  { m with word := Function.update m.word dst (m.word src) }

/-- A loop that ends with the first result other than zero. -/
def forEach {α : Type} (f : α → Memory → ℤ × Memory) : List α → Memory → ℤ × Memory
  | [], m => (0, m)
  | x :: xs, m => if (f x m).1 ≠ 0 then f x m else forEach f xs (f x m).2

/-- The address that an index adds to the base of a table. -/
def slotVa (level base : ℕ) (i : Index) : ℕ := base ||| ((i : ℕ) <<< pxShift level)

/-- The walk over the tables from a level downward. `leaf` is called with the address and the
entry of each valid leaf. -/
def walkTree (leaf : ℕ → ℕ → Memory → ℤ × Memory) : ℕ → ℕ → ℕ → Memory → ℤ × Memory
  | 0, src, base, m =>
    forEach (fun i m =>
      let pte := m.word src i
      if pte &&& pteV = 0 then (0, m)
      else if IsLeaf pte then leaf (slotVa 0 base i) pte m
      else (0, m)) (List.finRange 512) m
  | level + 1, src, base, m =>
    forEach (fun i m =>
      let pte := m.word src i
      if pte &&& pteV = 0 then (0, m)
      else if IsLeaf pte then leaf (slotVa (level + 1) base i) pte m
      else
        let r := walkTree leaf level (pte2pa pte) (slotVa (level + 1) base i) m
        if r.1 ≠ 0 then (-enomem, r.2) else (0, r.2)) (List.finRange 512) m

/-- What `uvmcopy_tree` does with a leaf. -/
def copyLeaf (dst va pte : ℕ) (m : Memory) : ℤ × Memory :=
  if va = trampoline ∨ va = trapframe then (0, m)
  else
    match kzalloc m with
    | (none, m) => (-enomem, m)
    | (some mem, m) =>
      match va2pte dst va true (copyPage mem (pte2pa pte) m) with
      | (none, m) => (-enomem, kfree mem m)
      | (some loc, m) => (0, setPte loc (pa2pte mem ||| pteFlags pte) m)

/-- What `uvmshare_tree` does with a leaf. -/
def shareLeaf (dst va pte : ℕ) (m : Memory) : ℤ × Memory :=
  if va = trampoline ∨ va = trapframe then (0, m)
  else
    match va2pte dst va true m with
    | (none, m) => (-enomem, m)
    | (some loc, m) => (0, setPte loc pte m)

def uvmcopyTree (src dst : ℕ) (m : Memory) : ℤ × Memory :=
  if src = 0 ∨ dst = 0 then (-einval, m) else walkTree (copyLeaf dst) 2 src 0 m

def uvmshareTree (src dst : ℕ) (m : Memory) : ℤ × Memory :=
  if src = 0 ∨ dst = 0 then (-einval, m) else walkTree (shareLeaf dst) 2 src 0 m

def uvmcreate (m : Memory) : Option ℕ × Memory := pagetableCreate m

/-- `pagetable_destroy_level`: the tables from a level downward are freed. -/
def pagetableDestroyLevel : ℕ → ℕ → Memory → Memory
  | 0, pagetable, m => kfree pagetable m
  | level + 1, pagetable, m =>
    kfree pagetable ((List.finRange 512).foldl (fun m i =>
      if m.word pagetable i &&& pteV ≠ 0 then
        pagetableDestroyLevel level (pte2pa (m.word pagetable i)) m
      else m) m)

def pagetableDestroy (pagetable : ℕ) (m : Memory) : Memory := pagetableDestroyLevel 2 pagetable m

/-- The walk for a new process: `sys_clone` with `CLONE_VM` shares the pages, and `sys_fork` and
`sys_clone` without it copy them. -/
def childWalk (share : Bool) (parent child : ℕ) (m : Memory) : ℤ × Memory :=
  if share then uvmshareTree parent child m else uvmcopyTree parent child m

/-- The page table of a new process, with the trampoline at `trampolinePa`. -/
def childPagetable (share : Bool) (parent trampolinePa : ℕ) (m : Memory) : Option ℕ × Memory :=
  match uvmcreate m with
  | (none, m) => (none, m)
  | (some child, m) =>
    let r := childWalk share parent child m
    if r.1 < 0 then (none, pagetableDestroy child r.2)
    else
      match kzalloc r.2 with
      | (none, m) => (none, pagetableDestroy child m)
      | (some tf, m) =>
        let r := mappages child trampoline trampolinePa 1 (pteR ||| pteX) m
        if r.1 ≠ 0 then (none, pagetableDestroy child (kfree tf r.2))
        else
          let r := mappages child trapframe tf 1 (pteR ||| pteW) r.2
          if r.1 ≠ 0 then (none, pagetableDestroy child (kfree tf r.2))
          else (some child, r.2)

end NoobKernel.Vm
