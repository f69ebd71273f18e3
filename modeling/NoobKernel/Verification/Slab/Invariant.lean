import NoobKernel.Verification.Bitmap
import NoobKernel.Verification.Slab.Layout
import Mathlib.Algebra.Group.Action.Defs
import Mathlib.Algebra.Order.BigOperators.Group.List
import Mathlib.Order.Interval.Finset.Nat

/-! # The invariant of the slab allocator

A ghost map gives the slabs on each list of a cache. The headers agree with the
lists, and the counter of the cache with the headers of its partial slabs. -/

namespace NoobKernel.Slab

open Library

/-- The slabs on the three lists of a cache. -/
abbrev Lists := ListName → List ℕ

/-- Which slabs a list is for. -/
def Fits : ListName → Slab → Prop
  | .slabsFull, s => s.free = 0
  | .slabsPartial, s => 0 < s.free
  | .slabsFree, s => s.free = s.total

/-- The header of a slab at `a` of cache `c` with objects of `obj` bytes at a distance of
`size`. -/
structure Header (obj size c a : ℕ) (s : Slab) : Prop where
  kmem : s.kmem = c
  magic : s.magic = slabMagic
  aligned : slabBlobSize ∣ a
  low : pmStart ≤ a
  high : a + slabBlobSize ≤ pmEnd
  total_pos : 0 < s.total
  offset : IsOffset obj s.total s.offset
  fits : s.offset + s.total * size ≤ slabBlobSize
  len : s.bm.len = s.total
  count : s.free = s.bm.clearBits s.total

/-- A cache as `kmem_cache_init` makes it, up to its counters and its lock. -/
structure Sized (kmem : KmemCache) : Prop where
  objSize : ObjSize kmem.objSize
  allocSize : kmem.allocSize = alignUp kmem.objSize 8
  low : kmem.low = objectNum kmem.allocSize

/-- Lists and headers of cache `c` agree. -/
structure Wf (c : ℕ) (k : Kmem) (lists : Lists) : Prop where
  rings : Rings k.links (Node.head c) Set.univ (fun l => (lists l).map Node.slab)
  header : ∀ l, ∀ a ∈ lists l,
    Header (k.cache c).objSize (k.cache c).allocSize c a (k.slab a) ∧ Fits l (k.slab a)
  sized : Sized (k.cache c)

def freeObjects (k : Kmem) (l : List ℕ) : ℕ := (l.map (fun a => (k.slab a).free)).sum

structure Inv (c : ℕ) (k : Kmem) (lists : Lists) : Prop extends Wf c k lists where
  counted : (k.cache c).free = freeObjects k (lists .slabsPartial)

def slabsOf (lists : Lists) : Set ℕ := { a | ∃ l, a ∈ lists l }

def objectAddr (k : Kmem) (a idx : ℕ) : ℕ :=
  a + (k.slab a).offset + idx * (k.cache (k.slab a).kmem).allocSize

theorem map_slab_update (lists : Lists) (l : ListName) (nodes : List ℕ) :
    (fun m => (Function.update lists l nodes m).map Node.slab) =
      Function.update (fun m => (lists m).map Node.slab) l (nodes.map Node.slab) := by
  funext m
  by_cases h : m = l
  · subst h
    simp
  · simp [h]

/-! ## What the invariant says of one slab -/

namespace Header

variable {obj size c a idx : ℕ} {s : Slab} (h : Header obj size c a s)

include h

theorem free_le : s.free ≤ s.total := by
  rw [h.count]
  exact clearBits_le

theorem total_le (hsize : AllocSize size) : s.total ≤ 8192 := by
  have hfits := h.fits
  have hpos : 8 ≤ size := Nat.le_of_dvd hsize.pos hsize.dvd
  have hmul : s.total * 8 ≤ s.total * size := Nat.mul_le_mul_left _ hpos
  norm_num at hfits
  omega

theorem addr_lt : a + slabBlobSize < wordSize := by
  have hhigh := h.high
  norm_num at hhigh ⊢
  omega

theorem object_le (hidx : idx < s.total) :
    s.offset + idx * size + size ≤ slabBlobSize := by
  have hmul : (idx + 1) * size ≤ s.total * size := Nat.mul_le_mul_right _ hidx
  have hfits := h.fits
  rw [Nat.add_mul, Nat.one_mul] at hmul
  omega

end Header

theorem blob_apart {a b : ℕ} (ha : slabBlobSize ∣ a) (hb : slabBlobSize ∣ b) (hne : a ≠ b) :
    a + slabBlobSize ≤ b ∨ b + slabBlobSize ≤ a := by
  obtain ⟨m, rfl⟩ := ha
  obtain ⟨n, rfl⟩ := hb
  norm_num at hne ⊢
  omega

namespace Wf

variable {k : Kmem} {lists : Lists} {c a : ℕ} {l m : ListName} (h : Wf c k lists)

include h

theorem nodup (l : ListName) : (lists l).Nodup :=
  (h.rings.ring l (Set.mem_univ l)).nodup_tail.of_map _

theorem list_unique (hl : a ∈ lists l) (hm : a ∈ lists m) : l = m := by
  by_contra hne
  exact h.rings.apart l (Set.mem_univ l) m (Set.mem_univ m) hne (.slab a) (by simp [hl])
    (by simp [hm])

theorem size_eq (ha : a ∈ lists l) :
    (k.cache (k.slab a).kmem).allocSize = (k.cache c).allocSize := by
  rw [(h.header l a ha).1.kmem]

theorem allocSize : AllocSize (k.cache c).allocSize := by
  rw [h.sized.allocSize]
  exact h.sized.objSize.alignUp_eight

theorem length_le (l : ListName) : (lists l).length ≤ 2048 := by
  have hmaps : ∀ a ∈ (lists l).toFinset, (a - pmStart) / slabBlobSize ∈ Finset.range 2048 := by
    intro a ha
    have hhigh := (h.header l a (List.mem_toFinset.mp ha)).1.high
    norm_num at hhigh ⊢
    omega
  have hinj : Set.InjOn (fun a => (a - pmStart) / slabBlobSize) ((lists l).toFinset : Set ℕ) := by
    intro a ha b hb hab
    have hha := (h.header l a (by simpa using ha)).1
    have hhb := (h.header l b (by simpa using hb)).1
    obtain ⟨m, hm⟩ := hha.aligned
    obtain ⟨n, hn⟩ := hhb.aligned
    have hla := hha.low
    have hlb := hhb.low
    norm_num at hab hm hn hla hlb
    omega
  have hcard := Finset.card_le_card_of_injOn _ hmaps hinj
  rwa [List.toFinset_card_of_nodup (h.nodup l), Finset.card_range] at hcard

theorem freeObjects_le (l : ListName) : freeObjects k (lists l) ≤ 2048 * 8192 := by
  have hbound : ∀ x ∈ (lists l).map (fun a => (k.slab a).free), x ≤ 8192 := by
    intro x hx
    obtain ⟨a, ha, rfl⟩ := List.mem_map.mp hx
    have hhead := (h.header l a ha).1
    exact hhead.free_le.trans (hhead.total_le h.allocSize)
  calc freeObjects k (lists l)
      ≤ ((lists l).map (fun a => (k.slab a).free)).length • 8192 :=
        List.sum_le_card_nsmul _ _ hbound
    _ = (lists l).length * 8192 := by rw [List.length_map, smul_eq_mul]
    _ ≤ 2048 * 8192 := Nat.mul_le_mul_right _ (h.length_le l)

end Wf

/-! ## Moves of a slab between lists

Every operation of a cache rewrites one header, and moves that slab to another list
when the header no longer fits the list it is on. -/

open Function List

/-- The steps of a cache do not change its sizes. -/
structure SameSizes (kmem kmem' : KmemCache) : Prop where
  objSize : kmem'.objSize = kmem.objSize
  allocSize : kmem'.allocSize = kmem.allocSize
  low : kmem'.low = kmem.low

theorem Sized.congr {kmem kmem' : KmemCache} (h : Sized kmem) (hs : SameSizes kmem kmem') :
    Sized kmem' :=
  ⟨by rw [hs.objSize]; exact h.objSize, by rw [hs.allocSize, hs.objSize, h.allocSize],
    by rw [hs.low, hs.allocSize, h.low]⟩

/-- The lists after slab `a` has moved from list `l` to the front of list `l'`. -/
def movedLists (lists : Lists) (l l' : ListName) (a : ℕ) (rest : List ℕ) : Lists :=
  update (update lists l rest) l' (a :: lists l')

section Lists

variable {lists : Lists} {a b : ℕ} {l l' m : ListName} {xs ys : List ℕ}

theorem movedLists_target {rest : List ℕ} : movedLists lists l l' a rest l' = a :: lists l' := by
  simp [movedLists]

theorem movedLists_source {rest : List ℕ} (hne : l' ≠ l) :
    movedLists lists l l' a rest l = rest := by
  simp [movedLists, hne.symm]

theorem movedLists_other {rest : List ℕ} (hl : m ≠ l) (hl' : m ≠ l') :
    movedLists lists l l' a rest m = lists m := by
  simp [movedLists, hl, hl']

section

variable (hl : lists l = xs ++ a :: ys) (hnodup : (lists l).Nodup)

include hl hnodup

theorem notMem_rest : a ∉ xs ++ ys := by
  rw [hl] at hnodup
  exact (nodup_cons.mp (perm_middle.nodup_iff.mp hnodup)).1

theorem mem_movedLists (hne : l' ≠ l) :
    b ∈ movedLists lists l l' a (xs ++ ys) m ↔
      (m = l' ∧ b = a) ∨ (b ∈ lists m ∧ ¬ (m = l ∧ b = a)) := by
  by_cases ht : m = l'
  · subst ht
    simp [movedLists_target, hne]
  by_cases hs : m = l
  · subst hs
    have hnot := notMem_rest hl hnodup
    rw [movedLists_source hne, hl]
    by_cases hba : b = a
    · simp [hba, hnot, ht]
    · simp [hba]
  · simp [movedLists_other hs ht, hs, ht]

theorem slabsOf_movedLists (hne : l' ≠ l) :
    slabsOf (movedLists lists l l' a (xs ++ ys)) = slabsOf lists := by
  ext b
  constructor
  · rintro ⟨m, hm⟩
    rcases (mem_movedLists hl hnodup hne).mp hm with ⟨-, rfl⟩ | ⟨hm, -⟩
    · exact ⟨l, by simp [hl]⟩
    · exact ⟨m, hm⟩
  · rintro ⟨m, hm⟩
    by_cases hmoved : m = l ∧ b = a
    · exact ⟨l', (mem_movedLists hl hnodup hne).mpr (Or.inl ⟨rfl, hmoved.2⟩)⟩
    · exact ⟨m, (mem_movedLists hl hnodup hne).mpr (Or.inr ⟨hm, hmoved⟩)⟩

end

end Lists

namespace Wf

variable {k k' : Kmem} {lists : Lists} {c a : ℕ} {l l' : ListName} {s' : Slab} {xs ys : List ℕ}

theorem congr (h : Wf c k lists) (hlinks : k'.links = k.links) (hslab : k'.slab = k.slab)
    (hs : SameSizes (k.cache c) (k'.cache c)) : Wf c k' lists := by
  refine ⟨by rw [hlinks]; exact h.rings, ?_, h.sized.congr hs⟩
  intro l b hb
  rw [hslab, hs.objSize, hs.allocSize]
  exact h.header l b hb

section

variable (h : Wf c k lists) (hslab : k'.slab = update k.slab a s')
  (hs : SameSizes (k.cache c) (k'.cache c))
  (hhead : Header (k.cache c).objSize (k.cache c).allocSize c a s')

include h hslab hs hhead

theorem stay (ha : a ∈ lists l) (hlinks : k'.links = k.links) (hfits : Fits l s') :
    Wf c k' lists := by
  refine ⟨by rw [hlinks]; exact h.rings, ?_, h.sized.congr hs⟩
  intro m b hb
  rw [hslab, hs.objSize, hs.allocSize]
  by_cases hba : b = a
  · subst hba
    cases h.list_unique ha hb
    rw [update_self]
    exact ⟨hhead, hfits⟩
  · rw [update_of_ne hba]
    exact h.header m b hb

/-- A header is rewritten and the slab moves to another list. -/
theorem move (hne : l' ≠ l) (hl : lists l = xs ++ a :: ys)
    (hlinks : k'.links = k.links.move (.slab a) (.head c l')) (hfits : Fits l' s') :
    Wf c k' (movedLists lists l l' a (xs ++ ys)) := by
  have hnodes : (lists l).map Node.slab = xs.map .slab ++ .slab a :: ys.map .slab := by simp [hl]
  refine ⟨?_, ?_, h.sized.congr hs⟩
  · have hmove := h.rings.move (j := l') (Set.mem_univ l) (Set.mem_univ l') hne hnodes
    rw [hlinks]
    unfold movedLists
    rw [map_slab_update, map_slab_update]
    simpa using hmove
  · intro m b hb
    rw [hslab, hs.objSize, hs.allocSize]
    rcases (mem_movedLists hl (h.nodup l) hne).mp hb with ⟨rfl, rfl⟩ | ⟨hold, hnot⟩
    · rw [update_self]
      exact ⟨hhead, hfits⟩
    have hba : b ≠ a := by
      rintro rfl
      exact hnot ⟨h.list_unique hold (by simp [hl]), rfl⟩
    rw [update_of_ne hba]
    exact h.header m b hold

end

end Wf

/-! ## The free objects of a list -/

section Count

variable {k k' : Kmem} {a : ℕ} {s' : Slab} {l xs ys : List ℕ}

theorem freeObjects_congr (h : ∀ b ∈ l, (k'.slab b).free = (k.slab b).free) :
    freeObjects k' l = freeObjects k l := by
  unfold freeObjects
  rw [map_congr_left h]

theorem freeObjects_append (k : Kmem) (xs ys : List ℕ) :
    freeObjects k (xs ++ ys) = freeObjects k xs + freeObjects k ys := by
  simp [freeObjects]

theorem freeObjects_cons (k : Kmem) (a : ℕ) (ys : List ℕ) :
    freeObjects k (a :: ys) = (k.slab a).free + freeObjects k ys := by
  simp [freeObjects]

theorem freeObjects_update_notMem (hslab : k'.slab = update k.slab a s') (ha : a ∉ l) :
    freeObjects k' l = freeObjects k l := by
  apply freeObjects_congr
  intro b hb
  have hba : b ≠ a := fun he => ha (he ▸ hb)
  rw [hslab, update_of_ne hba]

theorem freeObjects_update_mem (hslab : k'.slab = update k.slab a s') {lists : Lists}
    {m : ListName} (hl : lists m = xs ++ a :: ys) (hnodup : (lists m).Nodup) :
    freeObjects k' (lists m) + (k.slab a).free = freeObjects k (lists m) + s'.free := by
  have hnot := notMem_rest hl hnodup
  rw [mem_append, not_or] at hnot
  simp only [hl, freeObjects_append, freeObjects_cons,
    freeObjects_update_notMem hslab hnot.1, freeObjects_update_notMem hslab hnot.2]
  rw [hslab, update_self]
  omega

theorem Wf.freeObjects_full {lists : Lists} {c : ℕ} (h : Wf c k lists) :
    freeObjects k (lists .slabsFull) = 0 := by
  apply sum_eq_zero
  intro x hx
  obtain ⟨a, ha, rfl⟩ := mem_map.mp hx
  exact (h.header .slabsFull a ha).2

end Count

/-! ## Taking and returning one object -/

open Outcome Nat

variable {s : Slab}

/-! ## Objects of a state -/

section Objects

variable {k k' : Kmem} {lists : Lists} {a b c idx jdx : ℕ} {l m : ListName} (h : Wf c k lists)

include h

section

variable (ha : a ∈ lists l)

include ha

theorem Wf.objectAddr_eq (idx : ℕ) :
    objectAddr k a idx = a + (k.slab a).offset + idx * (k.cache c).allocSize := by
  unfold objectAddr
  rw [h.size_eq ha]

theorem Wf.object_inside (hidx : idx < (k.slab a).total) :
    a + sizeofSlab + bitmapSize (k.slab a).total ≤ objectAddr k a idx ∧
      objectAddr k a idx + (k.cache c).allocSize ≤ a + slabBlobSize := by
  have hhead := (h.header l a ha).1
  have hlow := hhead.offset.header_le
  have hhigh := hhead.object_le hidx
  rw [h.objectAddr_eq ha]
  omega

theorem Wf.object_dvd (hdvd : 8 ∣ (k.cache c).objSize) : 8 ∣ objectAddr k a idx := by
  have hhead := (h.header l a ha).1
  have hblob : 8 ∣ a := dvd_trans (by decide) hhead.aligned
  rw [h.objectAddr_eq ha]
  exact Nat.dvd_add (Nat.dvd_add hblob (hhead.offset.dvd hdvd))
    (Nat.dvd_mul_left_of_dvd h.allocSize.dvd idx)

end

theorem Wf.objects_apart (ha : a ∈ lists l) (hb : b ∈ lists m) (hidx : idx < (k.slab a).total)
    (hjdx : jdx < (k.slab b).total) (hne : (a, idx) ≠ (b, jdx)) :
    objectAddr k a idx + (k.cache c).allocSize ≤ objectAddr k b jdx ∨
      objectAddr k b jdx + (k.cache c).allocSize ≤ objectAddr k a idx := by
  by_cases hab : a = b
  · subst hab
    have hlt : idx ≠ jdx := fun he => hne (by rw [he])
    rw [h.objectAddr_eq ha, h.objectAddr_eq ha]
    rcases lt_or_gt_of_ne hlt with hlt | hlt
    · have hmul : (idx + 1) * (k.cache c).allocSize ≤ jdx * (k.cache c).allocSize :=
        mul_le_mul_right _ hlt
      rw [add_mul, one_mul] at hmul
      omega
    · have hmul : (jdx + 1) * (k.cache c).allocSize ≤ idx * (k.cache c).allocSize :=
        mul_le_mul_right _ hlt
      rw [add_mul, one_mul] at hmul
      omega
  · have hblob := blob_apart (h.header l a ha).1.aligned (h.header m b hb).1.aligned hab
    have hina := h.object_inside ha hidx
    have hinb := h.object_inside hb hjdx
    omega

end Objects

/-- An object in use: its bit is set in the header of its slab. -/
structure InUse (s : Slab) (idx : ℕ) : Prop where
  lt : idx < s.total
  set : bitmapGet s.bm idx ≠ 0

/-! ## Taking an object -/

def taken (s : Slab) (idx : ℕ) : Slab := { s with free := s.free - 1, bm := bitmapSet s.bm idx }

/-- The state after object `idx` of the slab at `a` of cache `c` was taken. -/
def tookObject (c a idx : ℕ) (k : Kmem) : Kmem :=
  { k with
    slab := update k.slab a ((k.slab a).taken idx)
    links := if (k.slab a).free = 1 then k.links.move (.slab a) (.head c .slabsFull) else k.links
    cache := update k.cache c { k.cache c with free := (k.cache c).free - 1 } }

theorem Header.taken {obj size c a idx : ℕ} (h : Header obj size c a s) (hidx : idx < s.total)
    (hclear : bitmapGet s.bm idx = 0) : Header obj size c a (s.taken idx) := by
  have hcount : (bitmapSet s.bm idx).clearBits s.total + 1 = s.bm.clearBits s.total :=
    clearBits_bitmapSet hidx h.len.ge hclear
  refine ⟨h.kmem, h.magic, h.aligned, h.low, h.high, h.total_pos, h.offset, h.fits, ?_, ?_⟩
  · exact bitmapSet_len.trans h.len
  · have hfree := h.count
    simp only [Slab.taken]
    omega

section Take

variable {k k' : Kmem} {lists : Lists} {a b c idx : ℕ}

theorem slabAlloc_spec (h : Wf c k lists) (ha : a ∈ lists .slabsPartial) :
    ∃ idx, idx < (k.slab a).total ∧ bitmapGet (k.slab a).bm idx = 0 ∧
      slabAlloc a k = .ok (objectAddr k a idx, { tookObject c a idx k with cache := k.cache }) := by
  obtain ⟨hhead, hfits⟩ := h.header .slabsPartial a ha
  have htotal := hhead.total_le h.allocSize
  have hpos : 0 < (k.slab a).free := hfits
  have hle := hhead.free_le
  have hex : ∃ p < (k.slab a).bm.len, (k.slab a).bm.bit p = false := by
    apply exists_clear_of_clearBits
    rw [hhead.len, ← hhead.count]
    exact hpos
  obtain ⟨hlen, hbit⟩ := bitmapFindNextClear_zero (k.slab a).bm hex
  set idx := bitmapFindNextClear (k.slab a).bm 0 with hidx
  have hlt : idx < (k.slab a).total := hhead.len ▸ hlen
  have hclear := (bitmapGet_eq_zero_iff hlen).mpr hbit
  have hmod : idx % u32Size = idx := mod_eq_of_lt (by norm_num; omega)
  have hword : 8192 ≤ u32Size := by decide
  have hfree : ((k.slab a).free + u32Size - 1) % u32Size = (k.slab a).free - 1 :=
    add_pred_mod hpos (by omega)
  have hone : (k.slab a).free - 1 = 0 ↔ (k.slab a).free = 1 := by omega
  have hinside := h.object_inside ha hlt
  have hend := hhead.addr_lt
  have hsmall : idx * (k.cache c).allocSize % u32Size = idx * (k.cache c).allocSize := by
    have hobj := hhead.object_le hlt
    norm_num at hobj ⊢
    omega
  have haddr : (a + (k.slab a).offset + idx * (k.cache c).allocSize) % wordSize =
      objectAddr k a idx := by
    rw [← h.objectAddr_eq ha]
    exact mod_eq_of_lt (by omega)
  refine ⟨idx, hlt, hclear, ?_⟩
  unfold slabAlloc tookObject Slab.taken
  by_cases hlast : (k.slab a).free = 1
  · simp [hlast, ← hidx, hmod, hlen.ne, hhead.kmem, hsmall, haddr, setSlab, setLinks]
  · simp [hfree, hone, hlast, ← hidx, hmod, hlen.ne, hhead.kmem, hsmall, haddr, setSlab]

theorem tookObject_slab : (tookObject c a idx k).slab =
    update k.slab a ((k.slab a).taken idx) := rfl

theorem tookObject_cache : (tookObject c a idx k).cache c =
    { k.cache c with free := (k.cache c).free - 1 } := update_self ..

theorem tookObject_sameSizes : SameSizes (k.cache c) ((tookObject c a idx k).cache c) := by
  rw [tookObject_cache]
  exact ⟨rfl, rfl, rfl⟩

/-- The cache has the same slabs as before, and the same ones are parked. -/
structure SameSlabs (lists lists' : Lists) : Prop where
  slabs : slabsOf lists' = slabsOf lists
  parked : lists' .slabsFree = lists .slabsFree

/-- What a slab on list `l` adds to the counter of its cache. -/
def counts (l : ListName) (s : Slab) : ℕ := if l = .slabsPartial then s.free else 0

/-- A header is rewritten, the slab goes to the list it then fits, and the counter follows. -/
theorem Inv.relist {l m : ListName} {s' : Slab} (h : Inv c k lists) (ha : a ∈ lists l)
    (hpart : l = .slabsPartial ∨ m = .slabsPartial)
    (hlinks : k'.links = if m = l then k.links else k.links.move (.slab a) (.head c m))
    (hslab : k'.slab = update k.slab a s') (hs : SameSizes (k.cache c) (k'.cache c))
    (hhead : Header (k.cache c).objSize (k.cache c).allocSize c a s') (hfits : Fits m s')
    (hfree : (k'.cache c).free + counts l (k.slab a) = (k.cache c).free + counts m s') :
    ∃ lists', Inv c k' lists' ∧ a ∈ lists' m ∧ slabsOf lists' = slabsOf lists ∧
      ∀ i, i ≠ l → i ≠ m → lists' i = lists i := by
  obtain ⟨xs, ys, hl⟩ := List.append_of_mem ha
  have hnodup := h.nodup l
  have hcount := h.counted
  by_cases hstay : m = l
  · subst hstay
    rw [or_self] at hpart
    subst hpart
    rw [if_pos rfl] at hlinks
    refine ⟨lists, ⟨h.toWf.stay hslab hs hhead ha hlinks hfits, ?_⟩, ha, rfl, fun _ _ _ => rfl⟩
    have hsum := freeObjects_update_mem hslab hl hnodup
    simp only [counts, if_true] at hfree
    omega
  · rw [if_neg hstay] at hlinks
    refine ⟨_, ⟨h.toWf.move hslab hs hhead hstay hl hlinks hfits, ?_⟩,
      by simp [movedLists_target], slabsOf_movedLists hl hnodup hstay, fun i => movedLists_other⟩
    rcases hpart with rfl | rfl
    · rw [movedLists_source hstay, freeObjects_update_notMem hslab (notMem_rest hl hnodup),
        freeObjects_append]
      rw [hl, freeObjects_append, freeObjects_cons] at hcount
      simp only [counts, if_true, hstay, if_false] at hfree
      omega
    · have hnot : a ∉ lists .slabsPartial := fun hmem => hstay (h.list_unique hmem ha)
      rw [movedLists_target, freeObjects_cons, hslab, update_self,
        freeObjects_update_notMem hslab hnot]
      simp only [counts, if_true, Ne.symm hstay, if_false] at hfree
      omega

theorem Inv.first_partial (h : Inv c k lists) (hfree : (k.cache c).free ≠ 0) :
    ∃ a ∈ lists .slabsPartial, listFirstEntry k c .slabsPartial = .ok a := by
  have hcount := h.counted
  have hring := h.rings.ring .slabsPartial (Set.mem_univ _)
  cases hl : lists .slabsPartial with
  | nil =>
    rw [hl] at hcount
    exact absurd hcount hfree
  | cons a ys =>
    simp only [hl, List.map_cons] at hring
    refine ⟨a, List.mem_cons_self, ?_⟩
    unfold listFirstEntry
    rw [hring.next_head rfl]
    rfl

/-- Taking an object of a cache that has one. -/
structure Took (c : ℕ) (k : Kmem) (lists : Lists) (a idx : ℕ) (lists' : Lists) : Prop where
  mem : a ∈ lists .slabsPartial
  lt : idx < (k.slab a).total
  clear : bitmapGet (k.slab a).bm idx = 0
  inv : Inv c (tookObject c a idx k) lists'
  slabs : SameSlabs lists lists'

theorem Inv.took (h : Inv c k lists) (ha : a ∈ lists .slabsPartial)
    (hidx : idx < (k.slab a).total) (hclear : bitmapGet (k.slab a).bm idx = 0) :
    ∃ lists', Took c k lists a idx lists' := by
  obtain ⟨hhead, hfits⟩ := h.header .slabsPartial a ha
  have hpos : 0 < (k.slab a).free := hfits
  obtain ⟨xs, ys, hl⟩ := List.append_of_mem ha
  have hcount := h.counted
  rw [hl, freeObjects_append, freeObjects_cons] at hcount
  obtain ⟨lists', hinv, -, hslabs, hkept⟩ := h.relist
    (m := if (k.slab a).free = 1 then .slabsFull else .slabsPartial) ha (Or.inl rfl)
    (by by_cases hlast : (k.slab a).free = 1 <;> simp [tookObject, hlast]) tookObject_slab
    tookObject_sameSizes (hhead.taken hidx hclear) (by split <;> simp [Fits, taken] <;> omega)
    (by split <;> simp [counts, taken, tookObject_cache] <;> omega)
  exact ⟨lists', ha, hidx, hclear, hinv, hslabs, hkept _ (by simp) (by split <;> simp)⟩

theorem takeObject_spec (h : Inv c k lists) (hfree : (k.cache c).free ≠ 0) :
    ∃ a idx lists', takeObject c k = .ok (some (objectAddr k a idx), tookObject c a idx k) ∧
      Took c k lists a idx lists' := by
  obtain ⟨a, ha, hfirst⟩ := h.first_partial hfree
  obtain ⟨idx, hidx, hclear, halloc⟩ := slabAlloc_spec h.toWf ha
  obtain ⟨lists', htook⟩ := h.took ha hidx hclear
  refine ⟨a, idx, lists', ?_, htook⟩
  have hbound := h.toWf.freeObjects_le .slabsPartial
  rw [← h.counted] at hbound
  have hword : 2048 * 8192 ≤ wordSize := by decide
  have hdec : ((k.cache c).free + wordSize - 1) % wordSize = (k.cache c).free - 1 :=
    add_pred_mod (pos_of_ne_zero hfree) (hbound.trans hword)
  unfold takeObject
  rw [if_neg hfree, hfirst, ok_bind, halloc, ok_bind]
  simp only [setCache, hdec]
  rfl

end Take

/-! ## Returning an object -/

def returned (s : Slab) (idx : ℕ) : Slab :=
  { s with free := s.free + 1, bm := bitmapClear s.bm idx }

/-- The state after object `idx` of the slab at `a` of cache `c` was returned. -/
def putBack (c a idx : ℕ) (k : Kmem) : Kmem :=
  { k with
    slab := update k.slab a ((k.slab a).returned idx)
    links := if (k.slab a).free = 0 then k.links.move (.slab a) (.head c .slabsPartial)
      else k.links
    cache := update k.cache c { k.cache c with free := (k.cache c).free + 1 } }

theorem Header.returned {obj size c a idx : ℕ} (h : Header obj size c a s) (hidx : idx < s.total)
    (hset : bitmapGet s.bm idx ≠ 0) : Header obj size c a (s.returned idx) := by
  have hcount : (bitmapClear s.bm idx).clearBits s.total = s.bm.clearBits s.total + 1 :=
    clearBits_bitmapClear hidx h.len.ge hset
  refine ⟨h.kmem, h.magic, h.aligned, h.low, h.high, h.total_pos, h.offset, h.fits, ?_, ?_⟩
  · exact bitmapClear_len.trans h.len
  · have hfree := h.count
    simp only [Slab.returned]
    omega

theorem Header.free_lt {obj size c a idx : ℕ} (h : Header obj size c a s) (hidx : idx < s.total)
    (hset : bitmapGet s.bm idx ≠ 0) : s.free < s.total := by
  rw [h.count]
  exact clearBits_lt hidx hset

section Put

variable {k : Kmem} {lists : Lists} {a c idx addr : ℕ} {l : ListName}

theorem putBack_slab : (putBack c a idx k).slab = update k.slab a ((k.slab a).returned idx) := rfl

theorem putBack_cache : (putBack c a idx k).cache c =
    { k.cache c with free := (k.cache c).free + 1 } := update_self ..

theorem putBack_sameSizes : SameSizes (k.cache c) ((putBack c a idx k).cache c) := by
  rw [putBack_cache]
  exact ⟨rfl, rfl, rfl⟩

/-- An address inside object `idx` of the slab at `a`. -/
structure InObject (k : Kmem) (a idx addr : ℕ) : Prop where
  lt : idx < (k.slab a).total
  low : objectAddr k a idx ≤ addr
  high : addr < objectAddr k a idx + (k.cache (k.slab a).kmem).allocSize

theorem Wf.alignDown_object (h : Wf c k lists) (ha : a ∈ lists l)
    (hobj : InObject k a idx addr) : alignDown addr slabBlobSize = a := by
  have hhead := (h.header l a ha).1
  have hinside := h.object_inside ha hobj.lt
  have hlow := hobj.low
  have hhigh := hobj.high
  have hend := hhead.addr_lt
  rw [h.size_eq ha] at hhigh
  exact alignDown_blob hhead.aligned (by omega) (by omega) (by omega)

theorem slabFree_eq (h : Wf c k lists) (ha : a ∈ lists l)
    (hobj : InObject k a idx addr) :
    slabFree addr k = if bitmapGet (k.slab a).bm idx = 0 then .ok (false, k)
      else .ok (true, slabPut a idx k) := by
  have hhead := (h.header l a ha).1
  have hinside := h.object_inside ha hobj.lt
  have hlow := hobj.low
  have hhigh := hobj.high
  rw [h.size_eq ha] at hhigh
  rw [h.objectAddr_eq ha] at hlow hhigh hinside
  have hword : slabBlobSize ≤ u32Size := by decide
  have hoff : (addr - a) % u32Size = addr - a := mod_eq_of_lt (by omega)
  have hidx : (addr - a - (k.slab a).offset) / (k.cache c).allocSize = idx := by
    apply Nat.div_eq_of_lt_le
    · omega
    · rw [add_mul, one_mul]
      omega
  unfold slabFree
  rw [h.alignDown_object ha hobj]
  simp only [hhead.magic, hoff, hhead.kmem, hidx]
  rw [if_neg (by simp), if_neg (by omega), if_neg (by have := hobj.lt; omega)]
  by_cases hset : bitmapGet (k.slab a).bm idx = 0
  · simp [hset]
  · have hlt := hhead.free_lt hobj.lt hset
    simp [hlt.ne]

theorem Inv.put (h : Inv c k lists) (ha : a ∈ lists l)
    (hidx : idx < (k.slab a).total) (hset : bitmapGet (k.slab a).bm idx ≠ 0) :
    ∃ lists', Inv c (putBack c a idx k) lists' ∧ SameSlabs lists lists' := by
  obtain ⟨hhead, hfits⟩ := h.header l a ha
  have hlt := hhead.free_lt hidx hset
  have hparked : l ≠ .slabsFree := by
    rintro rfl
    exact hlt.ne hfits
  have hfull : l = .slabsPartial ∧ (k.slab a).free ≠ 0 ∨ l = .slabsFull ∧ (k.slab a).free = 0 := by
    cases l with
    | slabsFull => exact Or.inr ⟨rfl, hfits⟩
    | slabsPartial => exact Or.inl ⟨rfl, pos_iff_ne_zero.mp hfits⟩
    | slabsFree => exact absurd rfl hparked
  obtain ⟨lists', hinv, -, hslabs, hkept⟩ := h.relist (m := .slabsPartial) ha (Or.inr rfl)
    (by rcases hfull with ⟨rfl, hzero⟩ | ⟨rfl, hzero⟩ <;> simp [putBack, hzero])
    putBack_slab putBack_sameSizes (hhead.returned hidx hset)
    (by simp [Fits, Slab.returned])
    (by rcases hfull with ⟨rfl, hzero⟩ | ⟨rfl, hzero⟩ <;>
      simp [counts, Slab.returned, putBack_cache] <;> omega)
  exact ⟨lists', hinv, hslabs, hkept _ hparked.symm (by simp)⟩

/-- `slab_free` with the counter of the cache: an object in use is returned, and an
object that is already free leaves everything as it was. -/
theorem putObject_spec (h : Inv c k lists) (ha : a ∈ lists l)
    (hobj : InObject k a idx addr) :
    putObject c addr k = if bitmapGet (k.slab a).bm idx = 0 then .ok k
      else .ok (putBack c a idx k) := by
  have hhead := (h.header l a ha).1
  unfold putObject
  rw [slabFree_eq h.toWf ha hobj]
  by_cases hset : bitmapGet (k.slab a).bm idx = 0
  · simp [hset]
  have htotal := hhead.total_le (h.allocSize)
  have hlt := hhead.free_lt hobj.lt hset
  have hu32 : 8192 < u32Size := by decide
  have hfree : ((k.slab a).free + 1) % u32Size = (k.slab a).free + 1 :=
    mod_eq_of_lt (by omega)
  have hbound := h.toWf.freeObjects_le .slabsPartial
  rw [← h.counted] at hbound
  have hword : 2048 * 8192 + 1 < wordSize := by decide
  have hinc : ((k.cache c).free + 1) % wordSize = (k.cache c).free + 1 :=
    mod_eq_of_lt (by omega)
  rw [if_neg hset, ok_bind, if_neg hset]
  unfold slabPut putBack Slab.returned
  by_cases hzero : (k.slab a).free = 0
  · simp [hzero, hhead.kmem, hinc, setSlab, setLinks, setCache]
  · simp [hzero, hfree, hinc, setSlab, setCache]

end Put

end NoobKernel.Slab
