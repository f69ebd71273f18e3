import NoobKernel.Model.Buddy

/-! # Sources of metadata

`alloc_mem_block` takes its memory from a cache of small objects. While the cache has
objects it is a pool outside the buddy allocator. When the cache is below its low mark it
asks the buddy allocator for a blob first, also from inside a split. -/

namespace NoobKernel.Buddy

open Library

variable {κ : Type}

/-- A supply of `mem_block`s outside the buddy allocator. -/
structure Pool (κ : Type) where
  take : κ → ℕ × κ
  put : ℕ → κ → κ

namespace Pool

/-- The pool as a metadata allocator. The list records the blobs that the cache has
been given. -/
def metadata (pool : Pool κ) : Metadata (κ × List ℕ) where
  alloc s := .ok (some (pool.take s.rest.1).1,
    { s with rest := ((pool.take s.rest.1).2, s.rest.2) })
  free p s := .ok { s with rest := (pool.put p s.rest.1, s.rest.2) }

/-- `alloc_mem_block` when the cache is below its low mark in the states `again`. The
nested call takes its own metadata from the pool, as the cache is being expanded. -/
def reentrant (pool : Pool κ) (again : Mm (κ × List ℕ) → Bool) (fuel : ℕ) :
    Metadata (κ × List ℕ) where
  alloc s :=
    if again s then do
      let (blob, s) ← buddyAlloc pool.metadata fuel slabBlobSize s
      pool.metadata.alloc { s with rest := (s.rest.1, blob.toList ++ s.rest.2) }
    else pool.metadata.alloc s
  free := pool.metadata.free

/-- `mem_block`s by increasing address, with those in use. -/
def counter : Pool (ℕ × List ℕ) where
  take r := (r.1, (r.1 + 1, r.1 :: r.2))
  put p r := (r.1, r.2.filter (· ≠ p))

end Pool

end NoobKernel.Buddy
