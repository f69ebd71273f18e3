import NoobKernel.Verification.Slab.Cache

/-! # A cache over whole runs

A run starts with `kmem_cache_init` and goes on with allocations and releases in any
order. It records the objects that are live by their addresses. -/

namespace NoobKernel.Slab

open Library List

/-- The slab at `a` is on list `l` of cache `c`. -/
def OnList (k : Kmem) (c : ℕ) (l : ListName) (a : ℕ) : Prop :=
  ∃ nodes, Ring k.links (.head c l) nodes ∧ Node.slab a ∈ nodes

/-- A blob of the buddy allocator that is no slab of cache `c`. -/
structure FreshBlob (k : Kmem) (c b : ℕ) : Prop extends Blob b where
  notMem : ∀ l, ¬ OnList k c l b

/-- An address inside an object of a slab of cache `c`. -/
def OfCache (k : Kmem) (c addr : ℕ) : Prop := ∃ l a idx, OnList k c l a ∧ InObject k a idx addr

/-- The object of `size` bytes at `x` contains `addr`. -/
def Covers (size addr x : ℕ) : Prop := x ≤ addr ∧ addr < x + size

instance (size addr x : ℕ) : Decidable (Covers size addr x) :=
  inferInstanceAs (Decidable (x ≤ addr ∧ addr < x + size))

/-- The runs of cache `c` for objects of `objSize` bytes, with the live objects. The
buddy allocator answers as it likes as long as its blobs are fresh. -/
inductive CacheRun (c objSize : ℕ) : Mm Kmem → List ℕ → Prop where
  | init {s0 s : Mm Kmem} {withInitialAlloc : Bool} {blob : Option ℕ} {b : Buddy.State} {ret : ℤ}
      (hblob : ∀ x, blob = some x → Blob x)
      (hinit : kmemCacheInit (answer blob b) c objSize withInitialAlloc s0 = .ok (ret, s)) :
      CacheRun c objSize s []
  | alloc {s s' : Mm Kmem} {live : List ℕ} {blob r : Option ℕ} {b : Buddy.State}
      (h : CacheRun c objSize s live) (hblob : ∀ x, blob = some x → FreshBlob s.rest c x)
      (halloc : kmemCacheAlloc (answer blob b) c s = .ok (r, s')) :
      CacheRun c objSize s' (r.toList ++ live)
  | free {s : Mm Kmem} {live : List ℕ} {addr : ℕ} {k' : Kmem} (h : CacheRun c objSize s live)
      (hobj : OfCache s.rest c addr) (hfree : kmemCacheFree addr s.rest = .ok k') :
      CacheRun c objSize { s with rest := k' } (live.filter (fun x => ¬ Covers objSize addr x))

/-- The lists, headers and counters of cache `c` agree with each other and with the
live objects. -/
structure Accounting (k : Kmem) (c objSize : ℕ) (live : List ℕ) : Prop where
  apart : live.Pairwise (fun x y => x + objSize ≤ y ∨ y + objSize ≤ x)
  aligned : ∀ x ∈ live, 8 ∣ x
  inside : ∀ x ∈ live, ∃ l a, OnList k c l a ∧ a + sizeofSlab ≤ x ∧
    a + bmDataOffset + bitmapSize (k.slab a).total ≤ x ∧ x + objSize ≤ a + slabBlobSize
  clear_bits : ∀ l a, OnList k c l a → (k.slab a).free = (k.slab a).bm.clearBits (k.slab a).total
  onPartial_iff : ∀ l a, OnList k c l a → (OnList k c .slabsPartial a ↔ 0 < (k.slab a).free)
  onFull_iff : ∀ l a, OnList k c l a → (OnList k c .slabsFull a ↔ (k.slab a).free = 0)
  free_sum : ∃ slabs : List ℕ, slabs.Nodup ∧ (∀ a, a ∈ slabs ↔ ∃ l, OnList k c l a) ∧
    (k.cache c).free = (slabs.map (fun a => (k.slab a).free)).sum

/-! ## The invariant of a run -/

section Tracked

variable {k k' : Kmem} {lists lists' : Lists} {c n a addr idx : ℕ} {l : ListName}
  {live : List ℕ} {objs : List (ℕ × ℕ)} {blob r : Option ℕ}

theorem Wf.onList_iff (h : Wf c k lists) (l : ListName) (a : ℕ) :
    OnList k c l a ↔ a ∈ lists l := by
  have hring := h.rings.ring l (Set.mem_univ l)
  constructor
  · intro ⟨nodes, hnodes, hmem⟩
    rw [hnodes.eq_of_ring hring] at hmem
    simpa using hmem
  · intro hmem
    exact ⟨_, hring, by simpa using hmem⟩

/-- Ghost lists and objects for a state of a run. -/
structure Tracked (c n : ℕ) (k : Kmem) (live : List ℕ) (lists : Lists) (objs : List (ℕ × ℕ)) :
    Prop where
  inv : Inv c k lists
  idle : Idle (k.cache c)
  objSize : (k.cache c).objSize = n
  size : (k.cache c).allocSize = n
  parked : lists .slabsFree = []
  nodup : objs.Nodup
  mem_iff : ∀ o, o ∈ objs ↔ o ∈ used k lists
  live_eq : live = objs.map (fun o => objectAddr k o.1 o.2)

/-- An allocation when the buddy allocator gives fresh blobs only. -/
theorem Inv.alloc_fresh {s : Mm Kmem} {b : Buddy.State} (h : Inv c s.rest lists)
    (hidle : Idle (s.rest.cache c)) (hblob : ∀ x, blob = some x → FreshBlob s.rest c x) :
    ∃ r s' lists', kmemCacheAlloc (answer blob b) c s = .ok (r, s') ∧
      Served c blob s.rest lists r s'.rest lists' ∧ Idle (s'.rest.cache c) := by
  apply kmemCacheAlloc_spec h hidle
  intro x hx
  refine ⟨(hblob x hx).toBlob, fun ⟨l, hl⟩ => ?_⟩
  exact (hblob x hx).notMem l ((h.toWf.onList_iff l x).mpr hl)

theorem Wf.object_unique {b jdx : ℕ} (h : Wf c k lists) (ha : a ∈ slabsOf lists)
    (hb : b ∈ slabsOf lists) (hobj : InObject k a idx addr) (hobj' : InObject k b jdx addr) :
    (b, jdx) = (a, idx) := by
  obtain ⟨l, ha⟩ := ha
  obtain ⟨m, hb⟩ := hb
  by_contra hne
  have hapart := h.objects_apart hb ha hobj'.lt hobj.lt hne
  have hhigh := hobj.high
  have hhigh' := hobj'.high
  rw [h.size_eq ha] at hhigh
  rw [h.size_eq hb] at hhigh'
  have hlow := hobj.low
  have hlow' := hobj'.low
  omega

section

variable (h : Tracked c n k live lists objs)

include h

theorem Tracked.addr_congr (hev : Evolves c k lists k' lists') :
    objs.map (fun o => objectAddr k' o.1 o.2) = live := by
  rw [h.live_eq]
  apply map_congr_left
  intro o ho
  exact hev.objectAddr_eq h.inv.toWf ((h.mem_iff o).mp ho).1 o.2

theorem Tracked.served (hres : Served c blob k lists r k' lists') (hidle : Idle (k'.cache c)) :
    ∃ objs', Tracked c n k' (r.toList ++ live) lists' objs' := by
  have hobj : (k'.cache c).objSize = n := hres.evolves.sizes.objSize.trans h.objSize
  have hsize : (k'.cache c).allocSize = n := hres.evolves.sizes.allocSize.trans h.size
  have hparked := hres.parked h.parked
  cases r with
  | none =>
    refine ⟨objs, hres.evolves.inv, hidle, hobj, hsize, hparked, h.nodup, ?_,
      (h.addr_congr hres.evolves).symm⟩
    intro o
    rw [(hres.refused rfl).2.2]
    exact h.mem_iff o
  | some x =>
    obtain ⟨a, idx, haddr, hfresh, hused⟩ := hres.granted x rfl
    refine ⟨(a, idx) :: objs, hres.evolves.inv, hidle, hobj, hsize, hparked, ?_, ?_, ?_⟩
    · exact nodup_cons.mpr ⟨fun ho => hfresh ((h.mem_iff _).mp ho), h.nodup⟩
    · intro o
      rw [hused, Set.mem_insert_iff, mem_cons, h.mem_iff]
    · rw [map_cons, h.addr_congr hres.evolves, ← haddr]
      rfl

theorem Tracked.covers_iff (ha : a ∈ slabsOf lists) (hobj : InObject k a idx addr) {o : ℕ × ℕ}
    (ho : o ∈ objs) :
    Covers n addr (objectAddr k o.1 o.2) ↔ o = (a, idx) := by
  obtain ⟨hb, huse⟩ := (h.mem_iff o).mp ho
  have hsize : ∀ x ∈ slabsOf lists, (k.cache (k.slab x).kmem).allocSize = n := by
    rintro x ⟨m, hx⟩
    rw [h.inv.toWf.size_eq hx]
    exact h.size
  constructor
  · intro hcov
    exact h.inv.toWf.object_unique ha hb hobj ⟨huse.lt, hcov.1, by rw [hsize o.1 hb]; exact hcov.2⟩
  · rintro rfl
    have hhigh := hobj.high
    rw [hsize a ha] at hhigh
    exact ⟨hobj.low, hhigh⟩

theorem Tracked.release (ha : a ∈ lists l) (hobj : InObject k a idx addr) :
    ∃ k' lists' objs', kmemCacheFree addr k = .ok k' ∧
      Tracked c n k' (live.filter (fun x => ¬ Covers n addr x)) lists' objs' ∧
      ((∀ x ∈ live, ¬ Covers n addr x) → k' = k) := by
  have hmem : a ∈ slabsOf lists := ⟨l, ha⟩
  have hfilter : live.filter (fun x => ¬ Covers n addr x) =
      (objs.filter (fun o => o ≠ (a, idx))).map (fun o => objectAddr k o.1 o.2) := by
    rw [h.live_eq, filter_map]
    congr 1
    apply filter_congr
    intro o ho
    simp [h.covers_iff hmem hobj ho]
  have hrun := kmemCacheFree_spec h.inv ha h.idle hobj
  by_cases hclear : bitmapGet (k.slab a).bm idx = 0
  · rw [if_pos hclear] at hrun
    have hnot : (a, idx) ∉ objs := fun ho => ((h.mem_iff _).mp ho).2.set hclear
    have hsame : objs.filter (fun o => o ≠ (a, idx)) = objs := by
      apply filter_eq_self.mpr
      intro o ho
      have hne : o ≠ (a, idx) := fun he => hnot (he ▸ ho)
      simp [hne]
    refine ⟨k, lists, objs, hrun, ?_, fun _ => rfl⟩
    rw [hfilter, hsame, ← h.live_eq]
    exact h
  · rw [if_neg hclear] at hrun
    obtain ⟨lists', hinv, hslabs⟩ := h.inv.put ha hobj.lt hclear
    have hev : Evolves c k lists (putBack c a idx k) lists' :=
      evolves_update hinv hslabs.slabs putBack_sameSizes putBack_slab rfl
    refine ⟨_, lists', objs.filter (fun o => o ≠ (a, idx)), hrun,
      ⟨hinv, ?_, ?_, ?_, ?_, ?_, ?_, ?_⟩, ?_⟩
    · rw [putBack_cache]
      exact ⟨h.idle.lock, h.idle.expanding⟩
    · exact hev.sizes.objSize.trans h.objSize
    · exact hev.sizes.allocSize.trans h.size
    · rw [hslabs.parked, h.parked]
    · exact h.nodup.filter _
    · intro o
      rw [put_used_eq hslabs hmem hobj.lt (h.inv.header l a ha).1.len, mem_filter, h.mem_iff]
      simp
    · rw [hfilter]
      apply map_congr_left
      intro o ho
      have hin := (h.mem_iff o).mp (mem_filter.mp ho).1
      exact (hev.objectAddr_eq h.inv.toWf hin.1 o.2).symm
    · intro hnone
      have ho : (a, idx) ∈ objs := (h.mem_iff _).mpr ⟨hmem, hobj.lt, hclear⟩
      have hlive : objectAddr k a idx ∈ live := by
        rw [h.live_eq]
        exact mem_map.mpr ⟨_, ho, rfl⟩
      exact absurd ((h.covers_iff hmem hobj ho).mpr rfl) (hnone _ hlive)

end

end Tracked

/-! ## Runs -/

section Runs

variable {k : Kmem} {lists : Lists} {s s0 : Mm Kmem} {c n : ℕ} {live : List ℕ}
  {objs : List (ℕ × ℕ)} {blob : Option ℕ} {b : Buddy.State} {ret : ℤ} {withInitialAlloc : Bool}

theorem Tracked.init (hn : ObjSize n) (hdvd : 8 ∣ n) (hblob : ∀ x, blob = some x → Blob x)
    (hinit : kmemCacheInit (answer blob b) c n withInitialAlloc s0 = .ok (ret, s)) :
    ∃ lists, Tracked c n s.rest [] lists [] := by
  obtain ⟨lists, h⟩ := kmemCacheInit_spec hn hblob hinit
  refine ⟨lists, h.inv, h.idle, h.objSize, ?_, h.parked, nodup_nil, ?_, rfl⟩
  · rw [h.inv.sized.allocSize, h.objSize, hn.alignUp_eq hdvd]
  · intro o
    rw [h.used]
    simp

theorem CacheRun.tracked (hn : ObjSize n) (hdvd : 8 ∣ n) (h : CacheRun c n s live) :
    ∃ lists objs, Tracked c n s.rest live lists objs := by
  induction h with
  | init hblob hinit =>
    obtain ⟨lists, h⟩ := Tracked.init hn hdvd hblob hinit
    exact ⟨lists, [], h⟩
  | alloc _ hblob halloc ih =>
    obtain ⟨lists, objs, h⟩ := ih
    obtain ⟨r, s', lists', hrun, hres, hidle⟩ := h.inv.alloc_fresh h.idle hblob
    rw [hrun] at halloc
    cases halloc
    obtain ⟨objs', h'⟩ := h.served hres hidle
    exact ⟨lists', objs', h'⟩
  | free _ hobj hfree ih =>
    obtain ⟨lists, objs, h⟩ := ih
    obtain ⟨l, a, idx, hon, hin⟩ := hobj
    obtain ⟨k', lists', objs', hrun, h', -⟩ :=
      h.release ((h.inv.toWf.onList_iff l a).mp hon) hin
    rw [hrun] at hfree
    cases hfree
    exact ⟨lists', objs', h'⟩

theorem Tracked.accounting (hdvd : 8 ∣ n) (h : Tracked c n k live lists objs) :
    Accounting k c n live := by
  have hon := h.inv.toWf.onList_iff
  have hheader : ∀ l a, OnList k c l a → Header n n c a (k.slab a) ∧ Fits l (k.slab a) := by
    intro l a ha
    have hhead := h.inv.header l a ((hon l a).mp ha)
    rwa [h.objSize, h.size] at hhead
  have hnotParked : ∀ a, ¬ OnList k c .slabsFree a := by
    intro a ha
    rw [hon, h.parked] at ha
    simp at ha
  refine ⟨?_, ?_, ?_, ?_, ?_, ?_, ?_⟩
  · rw [h.live_eq, pairwise_map]
    refine h.nodup.imp_of_mem ?_
    intro o o' ho ho' hne
    obtain ⟨⟨l, ha⟩, huse⟩ := (h.mem_iff o).mp ho
    obtain ⟨⟨m, hb⟩, huse'⟩ := (h.mem_iff o').mp ho'
    have hapart := h.inv.toWf.objects_apart ha hb huse.lt huse'.lt hne
    rwa [h.size] at hapart
  · intro x hx
    rw [h.live_eq, mem_map] at hx
    obtain ⟨o, ho, rfl⟩ := hx
    obtain ⟨⟨l, ha⟩, -⟩ := (h.mem_iff o).mp ho
    exact h.inv.toWf.object_dvd ha (h.objSize.symm ▸ hdvd)
  · intro x hx
    rw [h.live_eq, mem_map] at hx
    obtain ⟨o, ho, rfl⟩ := hx
    obtain ⟨⟨l, ha⟩, huse⟩ := (h.mem_iff o).mp ho
    have hinside := h.inv.toWf.object_inside ha huse.lt
    rw [h.size] at hinside
    have hpad : bmDataOffset ≤ sizeofSlab := by decide
    exact ⟨l, o.1, (hon l o.1).mpr ha, by omega, by omega, hinside.2⟩
  · intro l a ha
    exact (hheader l a ha).1.count
  · intro l a ha
    constructor
    · intro hpart
      exact (hheader _ a hpart).2
    · intro hpos
      cases l with
      | slabsPartial => exact ha
      | slabsFull => exact absurd (hheader _ a ha).2 hpos.ne'
      | slabsFree => exact absurd ha (hnotParked a)
  · intro l a ha
    constructor
    · intro hfull
      exact (hheader _ a hfull).2
    · intro hzero
      cases l with
      | slabsPartial => exact absurd hzero (Nat.pos_iff_ne_zero.mp (hheader _ a ha).2)
      | slabsFull => exact ha
      | slabsFree => exact absurd ha (hnotParked a)
  · refine ⟨lists .slabsPartial ++ lists .slabsFull, ?_, ?_, ?_⟩
    · refine (h.inv.nodup .slabsPartial).append (h.inv.nodup .slabsFull) ?_
      intro a hp hf
      cases h.inv.list_unique hp hf
    · intro a
      rw [mem_append]
      constructor
      · intro hor
        rcases hor with hp | hf
        · exact ⟨.slabsPartial, (hon _ a).mpr hp⟩
        · exact ⟨.slabsFull, (hon _ a).mpr hf⟩
      · intro ⟨l, ha⟩
        cases l with
        | slabsPartial => exact Or.inl ((hon _ a).mp ha)
        | slabsFull => exact Or.inr ((hon _ a).mp ha)
        | slabsFree => exact absurd ha (hnotParked a)
    · have hsum : freeObjects k (lists .slabsPartial ++ lists .slabsFull) =
          freeObjects k (lists .slabsPartial) := by
        rw [freeObjects_append, h.inv.toWf.freeObjects_full, Nat.add_zero]
      rw [h.inv.counted, ← hsum]
      rfl

/-- Every state of every run of a cache is accounted for. An allocation returns an object
that is not live, and none only when the cache is empty and the buddy allocator refused. A
release returns, and changes nothing unless the object is live. -/
theorem slab_accounting {objSize : ℕ} (hpos : 0 < objSize) (hdvd : 8 ∣ objSize)
    (hmax : objSize ≤ slabMaxObjSize) (h : CacheRun c objSize s live) :
    Accounting s.rest c objSize live ∧
      (∀ blob b, (∀ x, blob = some x → FreshBlob s.rest c x) →
        ∃ r s', kmemCacheAlloc (answer blob b) c s = .ok (r, s') ∧
          (∀ x, r = some x → x ∉ live) ∧
          (r = none → (s.rest.cache c).free = 0 ∧ blob = none)) ∧
      (∀ addr, OfCache s.rest c addr →
        ∃ k', kmemCacheFree addr s.rest = .ok k' ∧
          ((∀ x ∈ live, ¬ Covers objSize addr x) → k' = s.rest)) := by
  obtain ⟨lists, objs, htracked⟩ := h.tracked ⟨hpos, hmax⟩ hdvd
  have hon := htracked.inv.toWf.onList_iff
  refine ⟨htracked.accounting hdvd, ?_, ?_⟩
  · intro blob b hblob
    obtain ⟨r, s', lists', hrun, hres, hidle⟩ := htracked.inv.alloc_fresh (b := b)
      htracked.idle hblob
    refine ⟨r, s', hrun, ?_, ?_⟩
    · intro x hx hlive
      obtain ⟨objs', htracked'⟩ := htracked.served hres hidle
      have hapart := (htracked'.accounting hdvd).apart
      rw [hx, Option.toList_some, singleton_append, pairwise_cons] at hapart
      have := hapart.1 x hlive
      omega
    · intro hr
      exact ⟨(hres.refused hr).1, (hres.refused hr).2.1⟩
  · intro addr ⟨l, a, idx, hla, hobj⟩
    obtain ⟨k', lists', objs', hrun, -, hsame⟩ := htracked.release ((hon l a).mp hla) hobj
    exact ⟨k', hrun, hsame⟩

end Runs

/-- A memory manager with zeroed headers. -/
def bareMm : Mm Kmem where
  buddy := ⟨fun _ => ⟨0, 0, none⟩, fun _ => 0, ⟨id, id⟩, 0, .initializer⟩
  rest := ⟨fun _ => emptyCache 8, fun _ => ⟨0, ⟨fun _ => 0, 0⟩, 0, 0, 0, 0⟩, ⟨id, id⟩, 0, true,
    false⟩

theorem cacheRun_bareMm : CacheRun 0 8192 (onKmem (initialised 0 8192) bareMm) [] :=
  .init (fun x (hx : none = some x) => nomatch hx)
    (rfl : kmemCacheInit (answer none bareMm.buddy) 0 8192 false bareMm = .ok (0, _))

theorem freshBlob_bareMm : FreshBlob (onKmem (initialised 0 8192) bareMm).rest 0 0x87800000 := by
  have hinv := inv_initialised (c := 0) (n := 8192) (by constructor <;> decide) bareMm.rest
  refine ⟨⟨by decide, by decide, by decide⟩, ?_⟩
  intro l hon
  rw [onKmem_rest, hinv.toWf.onList_iff] at hon
  cases hon

theorem slab_accounting_bareMm : ∃ s x, CacheRun 0 8192 s [x] ∧ Accounting s.rest 0 8192 [x] := by
  have hfresh : ∀ x, some 0x87800000 = some x →
      FreshBlob (onKmem (initialised 0 8192) bareMm).rest 0 x := by
    intro x hx
    cases hx
    exact freshBlob_bareMm
  obtain ⟨r, s, halloc, -, hnone⟩ :=
    (slab_accounting (by decide) (by decide) (by decide) cacheRun_bareMm).2.1
      (some 0x87800000) bareMm.buddy hfresh
  cases r with
  | none => exact absurd (hnone rfl).2 (by simp)
  | some x =>
    have hrun : CacheRun 0 8192 s [x] := .alloc cacheRun_bareMm hfresh halloc
    exact ⟨s, x, hrun, (slab_accounting (by decide) (by decide) (by decide) hrun).1⟩

/-! ## Parking slabs

`kmem_cache_flush` moves the entirely free slabs of `slabs_partial` to `slabs_free`. It
keeps neither the counter nor, on its early return, the lock in order. -/

open Function Outcome

/-- Where a scan of the rest of `slabs_partial` starts. -/
def frontNode (c : ℕ) : List ℕ → Node
  | [] => .head c .slabsPartial
  | a :: _ => .slab a

section Loop

variable {k k' : Kmem} {lists : Lists} {c a : ℕ} {done rest : List ℕ}

theorem Wf.next_front (h : Wf c k lists) (hl : lists .slabsPartial = done ++ a :: rest) :
    k.links.next (.slab a) = frontNode c rest := by
  have hring := h.rings.ring .slabsPartial (Set.mem_univ _)
  simp only [hl, map_append, map_cons] at hring
  cases rest with
  | nil | cons b rest => exact hring.next_eq rfl

/-- The lists after the loop of `kmem_cache_flush` went over `rest`. -/
structure Flushed (c : ℕ) (k : Kmem) (lists : Lists) (done rest : List ℕ) (k' : Kmem)
    (lists' : Lists) : Prop where
  wf : Wf c k' lists'
  slab : k'.slab = k.slab
  cache : k'.cache = k.cache
  kept : lists' .slabsPartial = done ++ rest.filter (fun a => !slabEmpty (k.slab a))
  full : lists' .slabsFull = lists .slabsFull
  unchanged : (∀ a ∈ rest, slabEmpty (k.slab a) = false) → k' = k

theorem flushLoop_spec (h : Wf c k lists) (hl : lists .slabsPartial = done ++ rest) (fuel : ℕ)
    (hfuel : rest.length < fuel) :
    ∃ k' lists', flushLoop c fuel (frontNode c rest) (k.links.next (frontNode c rest)) k = .ok k' ∧
      Flushed c k lists done rest k' lists' := by
  induction rest generalizing k lists done fuel with
  | nil =>
    obtain ⟨fuel, rfl⟩ := Nat.exists_eq_succ_of_ne_zero (by omega : fuel ≠ 0)
    exact ⟨k, lists, by simp [flushLoop, frontNode], h, rfl, rfl, by simpa using hl, rfl,
      fun _ => rfl⟩
  | cons a rest ih =>
    obtain ⟨fuel, rfl⟩ := Nat.exists_eq_succ_of_ne_zero (by omega : fuel ≠ 0)
    simp only [length_cons] at hfuel
    have hnext := h.next_front hl
    by_cases hempty : slabEmpty (k.slab a) = true
    · set k1 := setLinks (·.move (.slab a) (.head c .slabsFree)) k with hk1
      have ha : a ∈ lists .slabsPartial := by simp [hl]
      have hne : ListName.slabsFree ≠ .slabsPartial := by decide
      have hslab1 : k1.slab = update k.slab a (k.slab a) := (update_eq_self a k.slab).symm
      have hfree : Fits .slabsFree (k.slab a) := by
        simp only [slabEmpty, decide_eq_true_eq] at hempty
        exact hempty.symm
      have hwf := h.move hslab1 (SameSizes.refl _) (h.header .slabsPartial a ha).1 hne hl rfl hfree
      obtain ⟨k', lists', hrun, hres⟩ := ih hwf (movedLists_source hne) fuel (by omega)
      refine ⟨k', lists', ?_, hres.wf, hres.slab, hres.cache, ?_, ?_, ?_⟩
      · simp only [frontNode, flushLoop, reduceCtorEq, if_false, listEntry, ok_bind, hempty,
          if_true]
        rw [hnext]
        exact hrun
      · rw [hres.kept, filter_cons, hempty]
        rfl
      · rw [hres.full]
        exact movedLists_other (by simp) (by simp)
      · intro hnone
        rw [hnone a (by simp)] at hempty
        cases hempty
    · rw [Bool.not_eq_true] at hempty
      have hl1 : lists .slabsPartial = (done ++ [a]) ++ rest := by simp [hl]
      obtain ⟨k', lists', hrun, hres⟩ := ih h hl1 fuel (by omega)
      refine ⟨k', lists', ?_, hres.wf, hres.slab, hres.cache, ?_, hres.full, ?_⟩
      · simp only [frontNode, flushLoop, reduceCtorEq, if_false, listEntry, ok_bind, hempty,
          Bool.false_eq_true]
        rw [hnext]
        exact hrun
      · rw [hres.kept, filter_cons, hempty]
        simp
      · intro hnone
        exact hres.unchanged (fun b hb => hnone b (by simp [hb]))

end Loop

/-! ## What a flush should keep -/

instance (b : ℕ) : Decidable (Blob b) :=
  decidable_of_iff (_ ∧ _ ∧ _) ⟨fun h => Blob.mk h.1 h.2.1 h.2.2, fun h => ⟨h.1, h.2, h.3⟩⟩

inductive CacheOp where
  | alloc (blob : Option ℕ)
  | free (addr : ℕ)

def execOps (c n : ℕ) : List CacheOp → Mm Kmem → List ℕ → Option (Mm Kmem × List ℕ)
  | [], s, live => some (s, live)
  | .alloc blob :: ops, s, live =>
    if ∀ x ∈ blob, Blob x ∧ (s.rest.slab x).magic ≠ slabMagic then
      match kmemCacheAlloc (answer blob s.buddy) c s with
      | .ok (r, s) => execOps c n ops s (r.toList ++ live)
      | .error _ => none
    else none
  | .free addr :: ops, s, live =>
    if addr ∈ live then
      match kmemCacheFree addr s.rest with
      | .ok k => execOps c n ops { s with rest := k } (live.filter (fun x => ¬ Covers n addr x))
      | .error _ => none
    else none

/-- The counter of the cache covers its partial and full slabs, a cache with free
objects has a partial slab, and the lock is free. -/
structure Reserve (k : Kmem) (c : ℕ) : Prop where
  free_sum : ∃ ps fs : List ℕ, Ring k.links (.head c .slabsPartial) (ps.map .slab) ∧
    Ring k.links (.head c .slabsFull) (fs.map .slab) ∧
    (k.cache c).free = freeObjects k ps + freeObjects k fs
  nonempty : 0 < (k.cache c).free → k.links.isEmpty (.head c .slabsPartial) = false
  unlocked : (k.cache c).lock.locked = false

/-- A flush with enough free objects and nothing to park. -/
structure Quiet (c : ℕ) (k : Kmem) : Prop where
  high : (k.cache c).high ≤ (k.cache c).free
  inUse : ∀ a, OnList k c .slabsPartial a → slabEmpty (k.slab a) = false

/-- The runs of a cache with flushes in the states `allowed`. -/
inductive FlushRun (allowed : Kmem → Prop) (c objSize : ℕ) : Mm Kmem → Prop where
  | init {s0 s : Mm Kmem} {withInitialAlloc : Bool} {blob : Option ℕ} {b : Buddy.State} {ret : ℤ}
      (hblob : ∀ x, blob = some x → Blob x)
      (hinit : kmemCacheInit (answer blob b) c objSize withInitialAlloc s0 = .ok (ret, s)) :
      FlushRun allowed c objSize s
  | alloc {s s' : Mm Kmem} {blob r : Option ℕ} {b : Buddy.State} (h : FlushRun allowed c objSize s)
      (hblob : ∀ x, blob = some x → FreshBlob s.rest c x)
      (halloc : kmemCacheAlloc (answer blob b) c s = .ok (r, s')) :
      FlushRun allowed c objSize s'
  | free {s : Mm Kmem} {addr : ℕ} {k' : Kmem} (h : FlushRun allowed c objSize s)
      (hobj : OfCache s.rest c addr) (hfree : kmemCacheFree addr s.rest = .ok k') :
      FlushRun allowed c objSize { s with rest := k' }
  | flush {s : Mm Kmem} {fuel : ℕ} {k' : Kmem} (h : FlushRun allowed c objSize s)
      (hallowed : allowed s.rest) (hfuel : 2049 ≤ fuel)
      (hflush : kmemCacheFlush fuel c s.rest = .ok k') :
      FlushRun allowed c objSize { s with rest := k' }

section Flush

variable {k k' : Kmem} {lists : Lists} {c a n fuel : ℕ} {s : Mm Kmem}

theorem Inv.reserve (h : Inv c k lists) (hlock : (k.cache c).lock = .initializer) :
    Reserve k c := by
  refine ⟨⟨_, _, h.rings.ring .slabsPartial (Set.mem_univ _),
    h.rings.ring .slabsFull (Set.mem_univ _), ?_⟩, ?_, ?_⟩
  · rw [h.toWf.freeObjects_full, Nat.add_zero]
    exact h.counted
  · intro hpos
    rw [Bool.eq_false_iff, Ne, h.toWf.isEmpty_iff .slabsPartial]
    intro hnil
    have hcount := h.counted
    rw [hnil] at hcount
    exact hpos.ne' hcount
  · rw [hlock]
    rfl

theorem freeObjects_filter_add_le {p : ℕ → Bool} {l : List ℕ} (ha : a ∈ l) (hp : p a = false) :
    freeObjects k (l.filter p) + (k.slab a).free ≤ freeObjects k l := by
  have hle : ∀ m : List ℕ, freeObjects k (m.filter p) ≤ freeObjects k m := by
    intro m
    exact (filter_sublist.map _).sum_le_sum (fun _ _ => Nat.zero_le _)
  obtain ⟨xs, ys, rfl⟩ := append_of_mem ha
  rw [filter_append, filter_cons, hp]
  simp only [Bool.false_eq_true, if_false, freeObjects_append, freeObjects_cons]
  have hxs := hle xs
  have hys := hle ys
  omega

theorem kmemCacheFlush_low (hidle : Idle (k.cache c)) (hlow : (k.cache c).free < (k.cache c).high) :
    kmemCacheFlush fuel c k = .ok (setLock c .held k) := by
  have hlow' : ((setLock c .held k).cache c).free < ((setLock c .held k).cache c).high := by
    simpa [setLock] using hlow
  unfold kmemCacheFlush
  rw [hidle.lock, Spinlock.acquire_initializer, ok_bind]
  rw [if_pos hlow']

theorem kmemCacheFlush_high (h : Inv c k lists) (hidle : Idle (k.cache c))
    (hhigh : ¬ (k.cache c).free < (k.cache c).high) (hfuel : 2049 ≤ fuel) :
    ∃ k1 lists', kmemCacheFlush fuel c k = .ok (setLock c .initializer k1) ∧
      Flushed c (setLock c .held k) lists [] (lists .slabsPartial) k1 lists' := by
  have hwf : Wf c (setLock c .held k) lists := (h.setLock .held).toWf
  have hlen := hwf.length_le .slabsPartial
  have hring := hwf.rings.ring .slabsPartial (Set.mem_univ _)
  have hfront : (setLock c .held k).links.next (.head c .slabsPartial) =
      frontNode c (lists .slabsPartial) := by
    cases hl : lists .slabsPartial with
    | nil =>
      simp only [hl, map_nil] at hring
      exact hring.next_head rfl
    | cons a ys =>
      simp only [hl, map_cons] at hring
      exact hring.next_head rfl
  obtain ⟨k1, lists', hrun, hres⟩ := flushLoop_spec hwf (nil_append _).symm fuel (by omega)
  have hhigh' : ¬ ((setLock c .held k).cache c).free < ((setLock c .held k).cache c).high := by
    simpa [setLock] using hhigh
  have hlock : (k1.cache c).lock = .held := by
    rw [hres.cache]
    simp [setLock]
  refine ⟨k1, lists', ?_, hres⟩
  unfold kmemCacheFlush
  rw [hidle.lock, Spinlock.acquire_initializer, ok_bind]
  simp only
  rw [if_neg hhigh', hfront, hrun, ok_bind, hlock, Spinlock.release_held, ok_bind]

theorem setLock_setLock (l l' : Spinlock) (k : Kmem) :
    setLock c l' (setLock c l k) = setLock c l' k := by
  simp [setLock, setCache]

theorem kmemCacheFlush_quiet (h : Inv c k lists) (hidle : Idle (k.cache c))
    (hq : Quiet c k) (hfuel : 2049 ≤ fuel) : kmemCacheFlush fuel c k = .ok k := by
  obtain ⟨k1, lists', hrun, hres⟩ := kmemCacheFlush_high h hidle (Nat.not_lt.mpr hq.high) hfuel
  have hsame : k1 = setLock c .held k := by
    apply hres.unchanged
    intro a ha
    exact hq.inUse a ((h.toWf.onList_iff .slabsPartial a).mpr ha)
  rw [hrun, hsame, setLock_setLock, setLock_of_eq hidle.lock]

/-- After a flush of an accounted cache the books are right exactly when it was quiet. -/
theorem flush_reserve_iff (h : Inv c k lists) (hidle : Idle (k.cache c))
    (hfuel : 2049 ≤ fuel) :
    (∃ k', kmemCacheFlush fuel c k = .ok k' ∧ Reserve k' c) ↔ Quiet c k := by
  constructor
  · intro ⟨k', hrun, hreserve⟩
    by_cases hlow : (k.cache c).free < (k.cache c).high
    · rw [kmemCacheFlush_low hidle hlow] at hrun
      cases hrun
      have hlocked := hreserve.unlocked
      simp [setLock, Spinlock.held] at hlocked
    · obtain ⟨k1, lists', hrun', hres⟩ := kmemCacheFlush_high h hidle hlow hfuel
      rw [hrun'] at hrun
      cases hrun
      refine ⟨Nat.not_lt.mp hlow, ?_⟩
      intro a ha
      rw [h.toWf.onList_iff .slabsPartial] at ha
      by_contra hempty
      rw [Bool.not_eq_false] at hempty
      obtain ⟨ps, fs, hps, hfs, hsum⟩ := hreserve.free_sum
      have hinj : Injective (List.map Node.slab) :=
        map_injective_iff.mpr (fun _ _ he => Node.slab.inj he)
      have hps' : ps = lists' .slabsPartial :=
        hinj (hps.eq_of_ring (hres.wf.rings.ring .slabsPartial (Set.mem_univ _)))
      have hfs' : fs = lists' .slabsFull :=
        hinj (hfs.eq_of_ring (hres.wf.rings.ring .slabsFull (Set.mem_univ _)))
      have hslab : (setLock c .initializer k1).slab = k.slab := hres.slab
      have hcongr : ∀ l, freeObjects (setLock c .initializer k1) l = freeObjects k l := by
        intro l
        exact freeObjects_congr (fun b _ => by rw [hslab])
      have hfree : ((setLock c .initializer k1).cache c).free = (k.cache c).free := by
        simp [setLock, hres.cache]
      rw [hfree, hcongr, hcongr, hfs', hres.full, h.toWf.freeObjects_full, hps',
        hres.kept, nil_append, h.counted] at hsum
      have hle := freeObjects_filter_add_le (k := k)
        (p := fun a => !slabEmpty ((setLock c .held k).slab a)) ha (by
          have hempty' : slabEmpty ((setLock c .held k).slab a) = true := hempty
          simp [hempty'])
      have hhead := (h.header .slabsPartial a ha).2
      simp only [Fits] at hhead
      omega
  · intro hq
    exact ⟨k, kmemCacheFlush_quiet h hidle hq hfuel, h.reserve hidle.lock⟩

theorem FlushRun.inv (hn : ObjSize n) (h : FlushRun (Quiet c) c n s) :
    ∃ lists, Inv c s.rest lists ∧ Idle (s.rest.cache c) := by
  induction h with
  | init hblob hinit =>
    obtain ⟨lists, h⟩ := kmemCacheInit_spec hn hblob hinit
    exact ⟨lists, h.inv, h.idle⟩
  | alloc _ hblob halloc ih =>
    obtain ⟨lists, h, hidle⟩ := ih
    obtain ⟨r, s', lists', hrun, hres, hidle'⟩ := h.alloc_fresh hidle hblob
    rw [hrun] at halloc
    cases halloc
    exact ⟨lists', hres.evolves.inv, hidle'⟩
  | @free s addr k' _ hobj hfree ih =>
    obtain ⟨lists, h, hidle⟩ := ih
    obtain ⟨l, a, idx, hon, hin⟩ := hobj
    have ha := (h.toWf.onList_iff l a).mp hon
    rw [kmemCacheFree_spec h ha hidle hin] at hfree
    by_cases hclear : bitmapGet (s.rest.slab a).bm idx = 0
    · rw [if_pos hclear] at hfree
      cases hfree
      exact ⟨lists, h, hidle⟩
    rw [if_neg hclear] at hfree
    cases hfree
    obtain ⟨lists', hinv, -⟩ := h.put ha hin.lt hclear
    refine ⟨lists', hinv, ?_⟩
    rw [putBack_cache]
    exact ⟨hidle.lock, hidle.expanding⟩
  | flush _ hallowed hfuel hflush ih =>
    obtain ⟨lists, h, hidle⟩ := ih
    rw [kmemCacheFlush_quiet h hidle hallowed hfuel] at hflush
    cases hflush
    exact ⟨lists, h, hidle⟩

/-- In every run whose flushes are quiet the books are right in every state, and the next
flush keeps them right exactly when it is quiet as well. -/
theorem flush_accounting {objSize : ℕ} (hpos : 0 < objSize) (hmax : objSize ≤ slabMaxObjSize)
    (h : FlushRun (Quiet c) c objSize s) :
    Reserve s.rest c ∧ ∀ fuel, 2049 ≤ fuel →
      ((∃ k', kmemCacheFlush fuel c s.rest = .ok k' ∧ Reserve k' c) ↔ Quiet c s.rest) := by
  obtain ⟨lists, hinv, hidle⟩ := h.inv ⟨hpos, hmax⟩
  exact ⟨hinv.reserve hidle.lock, fun fuel hfuel => flush_reserve_iff hinv hidle hfuel⟩

end Flush

section Calls

variable {c n : ℕ} {s s' : Mm Kmem} {live live' : List ℕ} {allowed : Kmem → Prop} {b : ℕ}
  {ops : List CacheOp}

theorem CacheRun.flushRun (h : CacheRun c n s live) : FlushRun allowed c n s := by
  induction h with
  | init hblob hinit => exact .init hblob hinit
  | alloc _ hblob halloc ih => exact .alloc ih hblob halloc
  | free _ hobj hfree ih => exact .free ih hobj hfree

section

variable (hn : ObjSize n) (hdvd : 8 ∣ n) (h : CacheRun c n s live)

include hn hdvd h

theorem CacheRun.ofCache {x : ℕ} (hx : x ∈ live) : OfCache s.rest c x := by
  obtain ⟨lists, objs, htracked⟩ := h.tracked hn hdvd
  rw [htracked.live_eq, mem_map] at hx
  obtain ⟨o, ho, rfl⟩ := hx
  obtain ⟨⟨l, ha⟩, huse⟩ := (htracked.mem_iff o).mp ho
  refine ⟨l, o.1, o.2, (htracked.inv.toWf.onList_iff l o.1).mpr ha, huse.lt, le_rfl, ?_⟩
  rw [htracked.inv.toWf.size_eq ha]
  exact Nat.lt_add_of_pos_right htracked.inv.toWf.allocSize.pos

theorem CacheRun.freshBlob (hb : Blob b) (hmagic : (s.rest.slab b).magic ≠ slabMagic) :
    FreshBlob s.rest c b := by
  obtain ⟨lists, objs, htracked⟩ := h.tracked hn hdvd
  refine ⟨hb, ?_⟩
  intro l hon
  rw [htracked.inv.toWf.onList_iff] at hon
  exact hmagic (htracked.inv.header l b hon).1.magic

theorem CacheRun.exec (hexec : execOps c n ops s live = some (s', live')) :
    CacheRun c n s' live' := by
  induction ops generalizing s live with
  | nil =>
    cases hexec
    exact h
  | cons op ops ih =>
    cases op with
    | alloc blob =>
      simp only [execOps] at hexec
      split at hexec
      next hblob =>
        split at hexec
        next r s1 halloc =>
          refine ih (.alloc h (fun x hx => ?_) halloc) hexec
          exact h.freshBlob hn hdvd (hblob x hx).1 (hblob x hx).2
        next => cases hexec
      next => cases hexec
    | free addr =>
      simp only [execOps] at hexec
      split at hexec
      next hlive =>
        split at hexec
        next k hfree => exact ih (.free h (h.ofCache hn hdvd hlive) hfree) hexec
        next => cases hexec
      next => cases hexec

end

end Calls

theorem blob_first : ∀ x, some 0x87800000 = some x → Blob x := by
  rintro x ⟨⟩
  decide

/-- The slabs of the cache, in the order of `slabs_partial` after `threeSlabs`. -/
def partialSlabs : List ℕ := [0x87810000, 0x87800000, 0x87820000]

/-- Three slabs with objects in use: fifteen allocations, and eight objects given back. -/
def threeSlabs : List CacheOp :=
  replicate 7 (.alloc none) ++ .alloc (some 0x87810000) :: replicate 6 (.alloc none) ++
    .alloc (some 0x87820000) :: [0x87802000, 0x87804000, 0x87806000, 0x87808000, 0x8780a000,
      0x8780c000, 0x87812000, 0x87814000].map .free

theorem flush_accounting_bareMm : ∃ s, FlushRun (Quiet 0) 0 8192 s ∧ (s.rest.cache 0).free = 14 ∧
    Quiet 0 s.rest ∧ Reserve s.rest 0 := by
  have heval : (kmemCacheInit (answer (some 0x87800000) bareMm.buddy) 0 8192 true bareMm >>= fun r0 =>
      Except.ok ((execOps 0 8192 threeSlabs r0.2 []).any fun r =>
        (r.1.rest.cache 0).free = 14 ∧ (r.1.rest.cache 0).high = 14 ∧
        Ring r.1.rest.links (.head 0 .slabsPartial) (partialSlabs.map .slab) ∧
        ∀ a ∈ partialSlabs, slabEmpty (r.1.rest.slab a) = false)) = Except.ok true := by
    decide +kernel
  obtain ⟨⟨ret, s0⟩, hinit, heval⟩ := bind_eq_ok.mp heval
  obtain ⟨⟨s, live⟩, hexec, heval⟩ := (Option.any_eq_true _ _).mp (Except.ok.inj heval)
  obtain ⟨hfree, hhigh, hring, hused⟩ := of_decide_eq_true heval
  have hquiet : Quiet 0 s.rest := by
    refine ⟨by rw [hfree, hhigh], fun a ⟨nodes, hnodes, hmem⟩ => hused a ?_⟩
    rw [hnodes.eq_of_ring hring, mem_map] at hmem
    obtain ⟨b, hb, heq⟩ := hmem
    cases heq
    exact hb
  have hrun : FlushRun (Quiet 0) 0 8192 s :=
    ((CacheRun.init blob_first hinit).exec ⟨by decide, by decide⟩ (by decide) hexec).flushRun
  obtain ⟨lists, hinv, hidle⟩ := hrun.inv ⟨by decide, by decide⟩
  have hflushed : FlushRun (Quiet 0) 0 8192 s :=
    .flush hrun hquiet le_rfl (kmemCacheFlush_quiet hinv hidle hquiet le_rfl)
  exact ⟨s, hflushed, hfree, hquiet, (flush_accounting (by decide) (by decide) hflushed).1⟩

/-! ## Flushes that are not quiet -/

/-- A flush of a cache with one free slab keeps the lock. A flush of a cache with two
free slabs parks both and goes on counting them, and the next allocation takes the head
of the empty list for a slab. -/
theorem flush_breaks :
    (∃ s, FlushRun (fun _ => True) 0 8192 s ∧ (s.rest.cache 0).lock.locked = true) ∧
    (∃ s, FlushRun (fun _ => True) 0 8192 s ∧ (s.rest.cache 0).lock.locked = false ∧
      (s.rest.cache 0).free = 14 ∧ s.rest.links.isEmpty (.head 0 .slabsPartial) = true ∧
      kmemCacheAlloc (answer none bareMm.buddy) 0 s = .error .wild) := by
  have hn : ObjSize 8192 := by constructor <;> decide
  have hdvd : 8 ∣ 8192 := by decide
  have hlock : (kmemCacheInit (answer (some 0x87800000) bareMm.buddy) 0 8192 true bareMm >>= fun r =>
      kmemCacheFlush 2049 0 r.2.rest >>= fun k => Except.ok (k.cache 0).lock.locked) =
        Except.ok true := by
    decide +kernel
  have hpark :
    (kmemCacheInit (answer (some 0x87800000) bareMm.buddy) 0 8192 true bareMm >>= fun r0 =>
      Except.ok ((execOps 0 8192 [.alloc none, .alloc (some 0x87810000), .free 0x87802000,
        .free 0x87804000] r0.2 []).any fun r =>
          (kmemCacheFlush 2049 0 r.1.rest >>= fun k => Except.ok ((k.cache 0).lock.locked,
            (k.cache 0).free, k.links.isEmpty (.head 0 .slabsPartial),
            (kmemCacheAlloc (answer none bareMm.buddy) 0 { r.1 with rest := k }).map Prod.fst)) =
          Except.ok (false, 14, true, .error .wild))) = Except.ok true := by
    decide +kernel
  constructor
  · obtain ⟨⟨ret, s0⟩, h0, hlock⟩ := bind_eq_ok.mp hlock
    obtain ⟨k, hk, hlocked⟩ := bind_eq_ok.mp hlock
    exact ⟨_, .flush (.init blob_first h0) True.intro le_rfl hk, Except.ok.inj hlocked⟩
  · obtain ⟨⟨ret, s0⟩, h0, hpark⟩ := bind_eq_ok.mp hpark
    obtain ⟨⟨s, live⟩, hexec, hpark⟩ := (Option.any_eq_true _ _).mp (Except.ok.inj hpark)
    obtain ⟨k, hflush, hpark⟩ := bind_eq_ok.mp (of_decide_eq_true hpark)
    simp only [Except.ok.injEq, Prod.mk.injEq] at hpark
    obtain ⟨hlocked, hfree, hempty, hwild⟩ := hpark
    have hrun := (CacheRun.init blob_first h0).exec hn hdvd hexec
    refine ⟨_, .flush hrun.flushRun True.intro le_rfl hflush, hlocked, hfree, hempty, ?_⟩
    cases hlast : kmemCacheAlloc (answer none bareMm.buddy) 0 { s with rest := k } with
    | ok r =>
      rw [hlast] at hwild
      cases hwild
    | error e =>
      rw [hlast] at hwild
      cases hwild
      rfl

end NoobKernel.Slab
