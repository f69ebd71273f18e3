import NoobKernel.Verification.Buddy.Invariant
import NoobKernel.Verification.Slab.Invariant

/-! # Adding a slab to a cache -/

namespace NoobKernel.Slab

open Library Buddy Function Outcome

theorem markPages_ok {κ : Type} (n : ℕ) {a : ℕ} (s : Mm κ) (hdvd : pageSize ∣ a)
    (hlow : pmStart ≤ a) (hhigh : a + n * pageSize ≤ pmEnd) :
    ∃ buddy, markPages n a s = .ok { s with buddy } := by
  induction n generalizing a s with
  | zero => exact ⟨s.buddy, rfl⟩
  | succ n ih =>
    rw [Nat.add_mul, Nat.one_mul] at hhigh
    obtain ⟨m, hm⟩ := hdvd
    have hi : pageAddr (m - pmStart / pageSize) = a := by
      norm_num [pageAddr] at hlow hm ⊢
      omega
    have hlt : pageAddr (m - pmStart / pageSize) < pmEnd := by
      rw [hi]
      norm_num at hhigh ⊢
      omega
    have hpage : addr2page a = .ok (m - pmStart / pageSize) := by
      unfold addr2page
      rw [← hi, addr2index_pageAddr hlt]
    unfold markPages
    rw [hpage, ok_bind]
    exact ih _ (Nat.dvd_add ⟨m, hm⟩ (Nat.dvd_refl _)) (hlow.trans (Nat.le_add_right _ _)) (by omega)

/-! ## A new slab -/

/-- A blob that a cache can make a slab of. -/
structure Blob (b : ℕ) : Prop where
  aligned : slabBlobSize ∣ b
  low : pmStart ≤ b
  high : b + slabBlobSize ≤ pmEnd

theorem markPages_blob {κ : Type} {b : ℕ} (s : Mm κ) (hb : Blob b) :
    ∃ buddy, markPages (slabBlobSize / pageSize) b s = .ok { s with buddy } := by
  exact markPages_ok 16 s (Nat.dvd_trans (by decide) hb.aligned) hb.low hb.high

theorem Header.fresh {n m c b total : ℕ} (hn : ObjSize n) (hm : AllocSize m) (hb : Blob b)
    (hpos : 0 < total) (hle : total ≤ objectNum m)
    (hfit : objectOffset n total + total * m ≤ slabBlobSize) (old : Slab) :
    Header n m c b (header c total (objectOffset n total) old) := by
  have htotal := hle.trans hm.objectNum_le
  refine ⟨rfl, rfl, hb.aligned, hb.low, hb.high, hpos, (objectOffset_spec hn htotal).1, hfit,
    rfl, ?_⟩
  refine (clearBits_eq_self ?_).symm
  intro i hi
  apply bitmapGet_of_zero
  have hbyte : i / 8 < bitmapSize total := by
    have hbm := (le_bitmapSize htotal).1
    simp only [header] at hi
    omega
  simp [header, hbyte]

/-- The lists after a slab at `b` was added. -/
def grownLists (lists : Lists) (b : ℕ) : Lists :=
  update lists .slabsPartial (lists .slabsPartial ++ [b])

/-- The caches after a slab of `total` objects at `b` was added to cache `c`. -/
def grown (c b total : ℕ) (k : Kmem) : Kmem :=
  { k with
    slab := update k.slab b (header c total (objectOffset (k.cache c).objSize total) (k.slab b))
    links := k.links.addTail (.slab b) (.head c .slabsPartial)
    cache := update k.cache c
      { k.cache c with
        total := ((k.cache c).total + total) % wordSize
        free := (k.cache c).free + total } }

section Grow

variable {k : Kmem} {lists : Lists} {a b c total : ℕ} {l : ListName} {s : Mm Kmem}

theorem mem_grownLists :
    a ∈ grownLists lists b l ↔ a ∈ lists l ∨ (l = .slabsPartial ∧ a = b) := by
  unfold grownLists
  by_cases hl : l = .slabsPartial
  · subst hl
    simp
  · simp [hl]

theorem slabsOf_grownLists : slabsOf (grownLists lists b) = insert b (slabsOf lists) := by
  ext a
  simp only [slabsOf, mem_grownLists, Set.mem_ofPred_eq, Set.mem_insert_iff]
  constructor
  · rintro ⟨l, hold | ⟨-, rfl⟩⟩
    · exact Or.inr ⟨l, hold⟩
    · exact Or.inl rfl
  · rintro (rfl | ⟨l, hold⟩)
    · exact ⟨.slabsPartial, Or.inr ⟨rfl, rfl⟩⟩
    · exact ⟨l, Or.inl hold⟩

theorem grown_slab : (grown c b total k).slab = update k.slab b
    (header c total (objectOffset (k.cache c).objSize total) (k.slab b)) := rfl

theorem grown_cache : (grown c b total k).cache c =
    { k.cache c with
      total := ((k.cache c).total + total) % wordSize
      free := (k.cache c).free + total } := update_self ..

theorem grown_sameSizes : SameSizes (k.cache c) ((grown c b total k).cache c) := by
  rw [grown_cache]
  exact ⟨rfl, rfl, rfl⟩

theorem Inv.grow (h : Inv c k lists) (hb : Blob b) (hnew : b ∉ slabsOf lists)
    (hpos : 0 < total) (hle : total ≤ objectNum (k.cache c).allocSize)
    (hfit : objectOffset (k.cache c).objSize total + total * (k.cache c).allocSize ≤ slabBlobSize) :
    Inv c (grown c b total k) (grownLists lists b) := by
  have hnot : ∀ l, b ∉ lists l := fun l hm => hnew ⟨l, hm⟩
  refine ⟨⟨?_, ?_, h.sized.congr grown_sameSizes⟩, ?_⟩
  · have hfresh : ∀ l ∈ Set.univ, Node.slab b ∉ Node.head c l :: (lists l).map Node.slab := by
      intro l _
      simp [hnot l]
    have hadd := h.rings.addTail (Set.mem_univ .slabsPartial) hfresh
    unfold grownLists
    rw [map_slab_update]
    simpa [grown] using hadd
  · intro l a ha
    rw [grown_sameSizes.objSize, grown_sameSizes.allocSize, grown_slab]
    rcases mem_grownLists.mp ha with hold | ⟨rfl, rfl⟩
    · have hne : a ≠ b := fun he => hnot l (he ▸ hold)
      rw [update_of_ne hne]
      exact h.header l a hold
    · rw [update_self]
      exact ⟨Header.fresh h.sized.objSize h.allocSize hb hpos hle hfit _, hpos⟩
  · have hself : ((grown c b total k).slab b).free = total := by
      rw [grown_slab, update_self]
      rfl
    unfold grownLists
    rw [update_self, freeObjects_append, freeObjects_cons,
      freeObjects_update_notMem grown_slab (hnot _), hself, grown_cache, ← h.counted]
    simp [freeObjects]

theorem slabInit_spec (h : Inv c s.rest lists) (hb : Blob b) (hnew : b ∉ slabsOf lists) :
    ∃ total s', 0 < total ∧ slabInit c b s = .ok s' ∧
      (onKmem (addCounters c b) s').rest = grown c b total s.rest ∧
      Inv c (grown c b total s.rest) (grownLists lists b) := by
  obtain ⟨total, hfit, hpos, hle, hroom⟩ :=
    fitTotal_spec h.sized.objSize h.allocSize h.allocSize.objectNum_pos le_rfl
  have hinv := h.grow hb hnew hpos hle hroom
  obtain ⟨buddy, hmark⟩ := markPages_blob s hb
  refine ⟨total, onKmem (setLinks (·.addTail (.slab b) (.head c .slabsPartial))) (onKmem
    (setSlab b (header c total (objectOffset (s.rest.cache c).objSize total)))
    { s with buddy }), hpos, ?_, ?_, hinv⟩
  · unfold slabInit
    rw [hmark, ok_bind]
    dsimp only
    rw [hfit, ok_bind]
  · have hbound := hinv.toWf.freeObjects_le .slabsPartial
    rw [← hinv.counted, grown_cache] at hbound
    have hword : 2048 * 8192 < wordSize := by decide
    have hfree : ((s.rest.cache c).free + total) % wordSize = (s.rest.cache c).free + total :=
      Nat.mod_eq_of_lt (hbound.trans_lt hword)
    simp [onKmem, addCounters, setCache, setSlab, setLinks, grown, header, hfree]

end Grow

/-! ## The operations of a cache -/

open Set

/-! ## What one operation does to the objects in use -/

/-- The objects in use, by slab and index. -/
def used (k : Kmem) (lists : Lists) : Set (ℕ × ℕ) :=
  { o | o.1 ∈ slabsOf lists ∧ InUse (k.slab o.1) o.2 }

/-- The slabs stay where they are and keep their layout. -/
structure Evolves (c : ℕ) (k : Kmem) (lists : Lists) (k' : Kmem) (lists' : Lists) : Prop where
  inv : Inv c k' lists'
  sizes : SameSizes (k.cache c) (k'.cache c)
  slabs : slabsOf lists ⊆ slabsOf lists'
  offset : ∀ a ∈ slabsOf lists, (k'.slab a).offset = (k.slab a).offset

section Evolves

variable {k k' k'' : Kmem} {lists lists' lists'' : Lists} {a b c idx j total : ℕ} {s : Slab}
  {f : KmemCache → KmemCache}

theorem SameSizes.refl (kmem : KmemCache) : SameSizes kmem kmem := ⟨rfl, rfl, rfl⟩

theorem SameSizes.trans {x y z : KmemCache} (h : SameSizes x y) (h' : SameSizes y z) :
    SameSizes x z :=
  ⟨h'.objSize.trans h.objSize, h'.allocSize.trans h.allocSize, h'.low.trans h.low⟩

theorem Evolves.trans (h : Evolves c k lists k' lists') (h' : Evolves c k' lists' k'' lists'') :
    Evolves c k lists k'' lists'' := by
  refine ⟨h'.inv, h.sizes.trans h'.sizes, h.slabs.trans h'.slabs, ?_⟩
  intro a ha
  exact (h'.offset a (h.slabs ha)).trans (h.offset a ha)

theorem Evolves.objectAddr_eq (h : Evolves c k lists k' lists') (hwf : Wf c k lists)
    (ha : a ∈ slabsOf lists) (idx : ℕ) : objectAddr k' a idx = objectAddr k a idx := by
  obtain ⟨l, hl⟩ := ha
  obtain ⟨m, hm⟩ := h.slabs ⟨l, hl⟩
  rw [h.inv.toWf.objectAddr_eq hm, hwf.objectAddr_eq hl, h.offset a ⟨l, hl⟩, h.sizes.allocSize]

theorem Inv.setCache (h : Inv c k lists) (hs : SameSizes (k.cache c) (f (k.cache c)))
    (hfree : (f (k.cache c)).free = (k.cache c).free) : Inv c (setCache c f k) lists := by
  have hself : (Slab.setCache c f k).cache c = f (k.cache c) := update_self ..
  refine ⟨h.toWf.congr rfl rfl (hself ▸ hs), ?_⟩
  rw [hself, hfree]
  exact h.counted

theorem Inv.setExpanding (h : Inv c k lists) (expanding : Bool) :
    Inv c (Slab.setCache c (fun kmem => { kmem with expanding }) k) lists :=
  h.setCache ⟨rfl, rfl, rfl⟩ rfl

theorem Inv.setLock (h : Inv c k lists) (lock : Spinlock) : Inv c (setLock c lock k) lists :=
  h.setCache ⟨rfl, rfl, rfl⟩ rfl

theorem used_congr (hslab : k'.slab = k.slab) (hslabs : slabsOf lists' = slabsOf lists) :
    used k' lists' = used k lists := by
  unfold used
  rw [hslab, hslabs]

theorem used_update (hslabs : slabsOf lists' = slabsOf lists) (hslab : k'.slab = update k.slab a s)
    (ha : a ∈ slabsOf lists) :
    (b, j) ∈ used k' lists' ↔ if b = a then InUse s j else (b, j) ∈ used k lists := by
  unfold used
  by_cases hb : b = a
  · simp [hslabs, hslab, hb, ha]
  · simp [hslabs, hslab, hb]

theorem inUse_taken (hlen : s.bm.len = s.total) (hidx : idx < s.total) :
    InUse (s.taken idx) j ↔ j = idx ∨ InUse s j := by
  constructor
  · rintro ⟨hlt, hset⟩
    rw [taken, Ne, bitmapGet_bitmapSet (hlen ▸ hidx) (hlen ▸ hlt)] at hset
    by_cases hj : j = idx
    · exact Or.inl hj
    · exact Or.inr ⟨hlt, fun h0 => hset ⟨h0, hj⟩⟩
  · intro hor
    have hlt : j < s.total := by
      rcases hor with hj | hin
      · exact hj ▸ hidx
      · exact hin.lt
    refine ⟨hlt, ?_⟩
    rw [taken, Ne, bitmapGet_bitmapSet (hlen ▸ hidx) (hlen ▸ hlt)]
    rintro ⟨h0, hj⟩
    exact (hor.resolve_left hj).set h0

theorem inUse_returned (hlen : s.bm.len = s.total) (hidx : idx < s.total) :
    InUse (s.returned idx) j ↔ InUse s j ∧ j ≠ idx := by
  constructor
  · rintro ⟨hlt, hset⟩
    rw [returned, Ne, bitmapGet_bitmapClear (hlen ▸ hidx) (hlen ▸ hlt), not_or] at hset
    exact ⟨⟨hlt, hset.1⟩, hset.2⟩
  · rintro ⟨hin, hj⟩
    refine ⟨hin.lt, ?_⟩
    rw [returned, Ne, bitmapGet_bitmapClear (hlen ▸ hidx) (hlen ▸ hin.lt), not_or]
    exact ⟨hin.set, hj⟩

theorem evolves_update (hinv : Inv c k' lists') (hslabs : slabsOf lists' = slabsOf lists)
    (hsizes : SameSizes (k.cache c) (k'.cache c)) (hslab : k'.slab = update k.slab a s)
    (hoff : s.offset = (k.slab a).offset) : Evolves c k lists k' lists' := by
  refine ⟨hinv, hsizes, hslabs.ge, ?_⟩
  intro b _
  rw [hslab]
  by_cases hb : b = a
  · subst hb
    rwa [update_self]
  · rw [update_of_ne hb]

theorem Took.evolves (h : Took c k lists a idx lists') :
    Evolves c k lists (tookObject c a idx k) lists' :=
  evolves_update h.inv h.slabs.slabs tookObject_sameSizes tookObject_slab rfl

theorem Took.used_eq (h : Took c k lists a idx lists')
    (hlen : (k.slab a).bm.len = (k.slab a).total) :
    used (tookObject c a idx k) lists' = insert (a, idx) (used k lists) := by
  have hmem : a ∈ slabsOf lists := ⟨.slabsPartial, h.mem⟩
  ext ⟨b, j⟩
  rw [used_update h.slabs.slabs tookObject_slab hmem, inUse_taken hlen h.lt, mem_insert_iff,
    Prod.mk.injEq]
  by_cases hb : b = a
  · subst hb
    simp [used, hmem]
  · simp [hb]

theorem put_used_eq (hslabs : SameSlabs lists lists') (ha : a ∈ slabsOf lists)
    (hidx : idx < (k.slab a).total) (hlen : (k.slab a).bm.len = (k.slab a).total) :
    used (putBack c a idx k) lists' = used k lists \ {(a, idx)} := by
  ext ⟨b, j⟩
  rw [used_update hslabs.slabs putBack_slab ha, inUse_returned hlen hidx, mem_sdiff,
    mem_singleton_iff, Prod.mk.injEq]
  by_cases hb : b = a
  · subst hb
    simp [used, ha]
  · simp [hb]

theorem grow_evolves (hinv : Inv c (grown c b total k) (grownLists lists b))
    (hnew : b ∉ slabsOf lists) : Evolves c k lists (grown c b total k) (grownLists lists b) := by
  refine ⟨hinv, grown_sameSizes, ?_, ?_⟩
  · rw [slabsOf_grownLists]
    exact subset_insert _ _
  · intro a ha
    have hne : a ≠ b := fun he => hnew (he ▸ ha)
    rw [grown_slab, update_of_ne hne]

theorem grow_used_eq (hinv : Inv c (grown c b total k) (grownLists lists b))
    (hnew : b ∉ slabsOf lists) :
    used (grown c b total k) (grownLists lists b) = used k lists := by
  ext ⟨a, j⟩
  simp only [used, mem_ofPred_eq, slabsOf_grownLists, mem_insert_iff]
  by_cases ha : a = b
  · subst ha
    have hmem : a ∈ grownLists lists a .slabsPartial := mem_grownLists.mpr (Or.inr ⟨rfl, rfl⟩)
    have hhead := (hinv.header .slabsPartial a hmem).1
    constructor
    · rintro ⟨-, huse⟩
      have hfree := hhead.free_lt huse.lt huse.set
      rw [grown_slab, update_self] at hfree
      exact absurd hfree (lt_irrefl _)
    · rintro ⟨hs, -⟩
      exact absurd hs hnew
  · simp [grown_slab, ha]

end Evolves

/-! ## Taking back a parked slab -/

section Unpark

variable {k : Kmem} {lists : Lists} {a c : ℕ} {ys : List ℕ}

/-- The caches after the slab at `a` was taken back from `slabs_free`. -/
def unparked (c a : ℕ) (k : Kmem) : Kmem :=
  addCounters c a (setLinks (·.move (.slab a) (.head c .slabsPartial)) k)

theorem unparked_cache : (unparked c a k).cache c =
    { k.cache c with
      total := ((k.cache c).total + (k.slab a).total) % wordSize
      free := ((k.cache c).free + (k.slab a).free) % wordSize } := update_self ..

theorem Inv.unpark (h : Inv c k lists) (ha : a ∈ lists .slabsFree) :
    ∃ lists', Inv c (unparked c a k) lists' ∧ slabsOf lists' = slabsOf lists ∧
      SameSizes (k.cache c) ((unparked c a k).cache c) ∧ ((unparked c a k).cache c).free ≠ 0 := by
  obtain ⟨hhead, hfits⟩ := h.header .slabsFree a ha
  have hpos : 0 < (k.slab a).free := by
    have hfree : (k.slab a).free = (k.slab a).total := hfits
    have htotal := hhead.total_pos
    omega
  have hbound := h.toWf.freeObjects_le .slabsPartial
  have htotal := hhead.total_le h.allocSize
  have hle := hhead.free_le
  rw [← h.counted] at hbound
  have hword : 2048 * 8192 + 8192 < wordSize := by decide
  have hmod : ((k.cache c).free + (k.slab a).free) % wordSize =
      (k.cache c).free + (k.slab a).free := Nat.mod_eq_of_lt (by omega)
  have hsizes : SameSizes (k.cache c) ((unparked c a k).cache c) := by
    rw [unparked_cache]
    exact ⟨rfl, rfl, rfl⟩
  obtain ⟨lists', hinv, -, hslabs, -⟩ := h.relist (m := .slabsPartial) ha (Or.inr rfl)
    (rfl : (unparked c a k).links = _) (update_eq_self a k.slab).symm hsizes hhead hpos
    (by simpa [counts, unparked_cache] using hmod)
  refine ⟨lists', hinv, hslabs, hsizes, ?_⟩
  rw [unparked_cache]
  dsimp only
  omega

end Unpark

/-! ## The calls of a cache with a buddy allocator that leaves the caches alone -/

open List

variable {buddyAlloc : Mm Kmem → Outcome (Option ℕ × Mm Kmem)} {k k' : Kmem} {lists lists' : Lists}
  {c n : ℕ} {blob : Option ℕ} {b : Buddy.State}

/-- A buddy allocator that answers with `blob` and is then in the state `b`. -/
def answer (blob : Option ℕ) (b : Buddy.State) (s : Mm Kmem) : Outcome (Option ℕ × Mm Kmem) :=
  .ok (blob, { s with buddy := b })

/-- A cache outside its calls. -/
structure Idle (kmem : KmemCache) : Prop where
  lock : kmem.lock = .initializer
  expanding : kmem.expanding = false

/-! ## Initialisation -/

section Init

/-- The state after `kmem_cache_init` up to the initial allocation. -/
def initialised (c n : ℕ) (k : Kmem) : Kmem :=
  setLinks (initHeads c) (setCache c (fun _ => emptyCache n) k)

theorem initialised_cache : (initialised c n k).cache c = emptyCache n := by simp [initialised]

theorem initHeads_self (L : Links Node) (c : ℕ) (l : ListName) :
    (initHeads c L).next (.head c l) = .head c l ∧ (initHeads c L).prev (.head c l) = .head c l := by
  cases l <;> simp [initHeads, Links.init, update]

theorem emptyCache_sized (hn : ObjSize n) : Sized (emptyCache n) := by
  have hle := hn.le
  have hmod : n % u32Size = n := Nat.mod_eq_of_lt (by norm_num at hle ⊢; omega)
  refine ⟨?_, ?_, rfl⟩
  · simpa [emptyCache, hmod] using hn
  · have hmax := hn.alignUp_eight.le
    have halloc : alignUp n 8 % u32Size = alignUp n 8 :=
      Nat.mod_eq_of_lt (by norm_num at hmax ⊢; omega)
    simp [emptyCache, hmod, halloc]

theorem inv_initialised (hn : ObjSize n) (k : Kmem) : Inv c (initialised c n k) (fun _ => []) := by
  refine ⟨⟨⟨?_, ?_⟩, by simp, ?_⟩, ?_⟩
  · intro l _
    obtain ⟨hnext, hprev⟩ := initHeads_self k.links c l
    exact Ring.of_self hnext hprev
  · intro l _ m _ hne x hx
    obtain rfl : x = .head c l := by simpa using hx
    simp [hne]
  · rw [initialised_cache]
    exact emptyCache_sized hn
  · rw [initialised_cache]
    rfl

structure Fresh (c n : ℕ) (k : Kmem) (lists : Lists) : Prop where
  inv : Inv c k lists
  idle : Idle (k.cache c)
  objSize : (k.cache c).objSize = n
  parked : lists .slabsFree = []
  used : used k lists = ∅

theorem fresh_initialised (hn : ObjSize n) (k : Kmem) :
    Fresh c n (initialised c n k) (fun _ => []) := by
  refine ⟨inv_initialised hn k, ?_, ?_, rfl, ?_⟩
  · rw [initialised_cache]
    exact ⟨rfl, rfl⟩
  · have hle := hn.le
    rw [initialised_cache]
    exact Nat.mod_eq_of_lt (by norm_num at hle ⊢; omega)
  · ext o
    simp [used, slabsOf]

theorem Fresh.grow {total x : ℕ} (h : Fresh c n k lists) (hnew : x ∉ slabsOf lists)
    (hinv : Inv c (grown c x total k) (grownLists lists x)) :
    Fresh c n (grown c x total k) (grownLists lists x) := by
  refine ⟨hinv, ?_, ?_, ?_, ?_⟩
  · rw [grown_cache]
    exact ⟨h.idle.lock, h.idle.expanding⟩
  · rw [grown_cache]
    exact h.objSize
  · simp [grownLists, h.parked]
  · rw [grow_used_eq hinv hnew, h.used]

theorem kmemCacheInit_spec {s s0 : Mm Kmem} {ret : ℤ} {withInitialAlloc : Bool} (hn : ObjSize n)
    (hblob : ∀ x, blob = some x → Blob x)
    (hinit : kmemCacheInit (answer blob b) c n withInitialAlloc s0 = .ok (ret, s)) :
    ∃ lists, Fresh c n s.rest lists := by
  have h0 : Fresh c n (initialised c n s0.rest) _ := fresh_initialised hn s0.rest
  unfold kmemCacheInit at hinit
  cases withInitialAlloc with
  | false =>
    cases hinit
    exact ⟨_, h0⟩
  | true =>
    simp only [Bool.not_true, Bool.false_eq_true, if_false] at hinit
    split at hinit
    · cases hinit
    simp only [answer, ok_bind] at hinit
    cases blob with
    | none =>
      cases hinit
      exact ⟨_, h0⟩
    | some x =>
      have hnew : x ∉ slabsOf (fun _ => []) := by simp [slabsOf]
      obtain ⟨total, s1, -, hslab, hrest, hinv⟩ := slabInit_spec
        (s := ⟨b, initialised c n s0.rest⟩) h0.inv (hblob x rfl) hnew
      have hrun : slabInit c x ⟨b, initialised c n s0.rest⟩ = .ok s1 := hslab
      simp only [initialised, setLinks, setCache, onKmem] at hinit hrun
      simp only [hrun, ok_bind, Except.ok.injEq, Prod.mk.injEq] at hinit
      obtain ⟨-, rfl⟩ := hinit
      simp only [onKmem] at hrest
      rw [hrest]
      exact ⟨_, h0.grow hnew hinv⟩

end Init

/-! ## Allocation -/

section Alloc

variable {a idx addr : ℕ} {l : ListName} {s : Mm Kmem} {more : Bool}

theorem Wf.isEmpty_iff (h : Wf c k lists) (l : ListName) :
    k.links.isEmpty (.head c l) = true ↔ lists l = [] := by
  rw [(h.rings.ring l (Set.mem_univ l)).isEmpty_iff, map_eq_nil_iff]

/-- What the first part of an allocation leaves to take an object from. -/
structure Refilled (c : ℕ) (blob : Option ℕ) (k : Kmem) (lists : Lists) (more : Bool)
    (k' : Kmem) (lists' : Lists) : Prop where
  evolves : Evolves c k lists k' lists'
  used : used k' lists' = used k lists
  lock : (k'.cache c).lock = (k.cache c).lock
  expanding : (k'.cache c).expanding = false
  parked : lists .slabsFree = [] → lists' .slabsFree = []
  refused : (k'.cache c).free = 0 → (k.cache c).free = 0 ∧ blob = none
  more : more = false → (k'.cache c).free = 0

theorem expandWith_spec (h : Inv c s.rest lists)
    (hblob : ∀ x, blob = some x → Blob x ∧ x ∉ slabsOf lists) :
    ∃ more s' lists', expandWith c blob s = .ok (more, s') ∧
      Refilled c blob s.rest lists more s'.rest lists' := by
  set s1 := onKmem (setCache c (fun kmem => { kmem with expanding := false })) s with hs1
  have hcache : s1.rest.cache c = { s.rest.cache c with expanding := false } := update_self ..
  have h1 : Inv c s1.rest lists := h.setExpanding false
  have hev1 : Evolves c s.rest lists s1.rest lists := by
    refine ⟨h1, ?_, subset_rfl, fun _ _ => rfl⟩
    rw [hcache]
    exact ⟨rfl, rfl, rfl⟩
  cases blob with
  | none =>
    refine ⟨_, s1, lists, rfl, hev1, rfl, by rw [hcache], by rw [hcache], id, ?_, ?_⟩
    · rw [hcache]
      exact fun hzero => ⟨hzero, rfl⟩
    · intro hmore
      simpa [hs1] using hmore
  | some x =>
    obtain ⟨hx, hnew⟩ := hblob x rfl
    obtain ⟨total, s2, hpos, hinit, hs2, hinv⟩ := slabInit_spec h1 hx hnew
    refine ⟨true, onKmem (addCounters c x) s2, grownLists lists x, ?_, ?_⟩
    · unfold expandWith
      simp only
      rw [hinit, ok_bind]
    · rw [hs2]
      refine ⟨hev1.trans (grow_evolves hinv hnew), grow_used_eq hinv hnew, ?_, ?_, ?_, ?_, nofun⟩
      · rw [grown_cache, hcache]
      · rw [grown_cache, hcache]
      · exact (update_of_ne (by simp) _ _).trans
      · rw [grown_cache]
        dsimp only
        omega

theorem Refilled.of_expanding (h : Refilled c blob
      (setCache c (fun kmem => { kmem with expanding := true }) k) lists more k' lists') :
    Refilled c blob k lists more k' lists' := by
  obtain ⟨⟨hinv, hsizes, hslabs, hoffset⟩, hused, hlock, hexp, hparked, hrefused, hmore⟩ := h
  simp only [setCache_cache, update_self] at hsizes hlock hrefused
  exact ⟨⟨hinv, ⟨hsizes.objSize, hsizes.allocSize, hsizes.low⟩, hslabs, hoffset⟩, hused, hlock,
    hexp, hparked, hrefused, hmore⟩

section

variable (h : Inv c s.rest lists) (hexp : (s.rest.cache c).expanding = false)

include h hexp

theorem expand_unpark {ys : List ℕ} (hfew : (s.rest.cache c).free < (s.rest.cache c).low)
    (hparked : lists .slabsFree = a :: ys) :
    ∃ lists', expand buddyAlloc c s = .ok (true, onKmem (unparked c a) s) ∧
      Refilled c blob s.rest lists true (unparked c a s.rest) lists' := by
  have hempty : s.rest.links.isEmpty (.head c .slabsFree) = false := by
    rw [Bool.eq_false_iff, Ne, h.toWf.isEmpty_iff .slabsFree, hparked]
    simp
  have hring := h.rings.ring .slabsFree (Set.mem_univ _)
  simp only [hparked, map_cons] at hring
  obtain ⟨lists', hinv, hslabs, hsizes, hpos⟩ := h.unpark (by simp [hparked] : a ∈ _)
  refine ⟨lists', ?_, ⟨hinv, hsizes, hslabs.ge, fun _ _ => rfl⟩, used_congr rfl hslabs,
    by rw [unparked_cache], by rw [unparked_cache, hexp], ?_, fun hzero => absurd hzero hpos, nofun⟩
  · unfold expand listFirstEntry
    rw [if_pos ⟨hexp, hfew⟩, hempty, hring.next_head rfl]
    rfl
  · intro hnil
    rw [hnil] at hparked
    cases hparked

theorem expand_enough (hfew : ¬ (s.rest.cache c).free < (s.rest.cache c).low) :
    expand buddyAlloc c s = .ok (true, s) ∧ Refilled c blob s.rest lists true s.rest lists := by
  have hlow : 0 < (s.rest.cache c).low := by
    rw [h.sized.low]
    exact h.allocSize.objectNum_pos
  refine ⟨?_, ⟨h, SameSizes.refl _, subset_rfl, fun _ _ => rfl⟩, rfl, rfl, hexp, id, ?_, nofun⟩
  · unfold expand
    rw [if_neg (fun hcond => hfew hcond.2)]
  · intro hzero
    omega

theorem expand_answer_spec (hblob : ∀ x, blob = some x → Blob x ∧ x ∉ slabsOf lists) :
    ∃ more s' lists', expand (answer blob b) c s = .ok (more, s') ∧
      Refilled c blob s.rest lists more s'.rest lists' := by
  by_cases hfew : (s.rest.cache c).free < (s.rest.cache c).low
  · cases hparked : lists .slabsFree with
    | nil =>
      obtain ⟨more, s', lists', hrun, hres⟩ := expandWith_spec
        (s := { onKmem (setCache c (fun kmem => { kmem with expanding := true })) s with
          buddy := b }) (h.setExpanding true) hblob
      refine ⟨more, s', lists', ?_, hres.of_expanding⟩
      unfold expand
      rw [if_pos ⟨hexp, hfew⟩, (h.toWf.isEmpty_iff .slabsFree).mpr hparked]
      exact hrun
    | cons a ys =>
      obtain ⟨lists', hrun, hres⟩ := expand_unpark h hexp hfew hparked
      exact ⟨true, _, lists', hrun, hres⟩
  · obtain ⟨hrun, hres⟩ := expand_enough h hexp hfew
    exact ⟨true, s, lists, hrun, hres⟩

end

/-- The result of an allocation that may have added a slab. -/
structure Served (c : ℕ) (blob : Option ℕ) (k : Kmem) (lists : Lists) (r : Option ℕ)
    (k' : Kmem) (lists' : Lists) : Prop where
  evolves : Evolves c k lists k' lists'
  lock : (k'.cache c).lock = (k.cache c).lock
  expanding : (k'.cache c).expanding = false
  parked : lists .slabsFree = [] → lists' .slabsFree = []
  refused : r = none → (k.cache c).free = 0 ∧ blob = none ∧ used k' lists' = used k lists
  granted : ∀ x, r = some x → ∃ a idx, x = objectAddr k' a idx ∧ (a, idx) ∉ used k lists ∧
    used k' lists' = insert (a, idx) (used k lists)

theorem kmemCacheAllocNolock_of_expand {s' : Mm Kmem}
    (hrun : expand buddyAlloc c s = .ok (more, s'))
    (hres : Refilled c blob s.rest lists more s'.rest lists') :
    ∃ r k' lists'', kmemCacheAllocNolock buddyAlloc c s = .ok (r, { s' with rest := k' }) ∧
      Served c blob s.rest lists r k' lists'' := by
  have hinv := hres.evolves.inv
  unfold kmemCacheAllocNolock
  rw [hrun, ok_bind]
  by_cases hfree : (s'.rest.cache c).free = 0
  · refine ⟨none, s'.rest, lists', ?_, hres.evolves, hres.lock, hres.expanding, hres.parked,
      fun _ => ⟨(hres.refused hfree).1, (hres.refused hfree).2, hres.used⟩, nofun⟩
    cases more with
    | false => rfl
    | true => simp [takeObject, hfree]
  · have hmore : more = true := Bool.eq_true_of_not_eq_false fun hno => hfree (hres.more hno)
    obtain ⟨a, idx, lists'', htake, htook⟩ := takeObject_spec hinv hfree
    have hmem : a ∈ slabsOf lists' := ⟨.slabsPartial, htook.mem⟩
    have hev := htook.evolves
    refine ⟨some (objectAddr s'.rest a idx), _, lists'', ?_, hres.evolves.trans hev, ?_, ?_, ?_,
      nofun, ?_⟩
    · simp only [hmore, Bool.not_true, Bool.false_eq_true, if_false]
      rw [htake, ok_bind]
    · rw [tookObject_cache]
      exact hres.lock
    · rw [tookObject_cache]
      exact hres.expanding
    · intro hnil
      rw [htook.slabs.parked, hres.parked hnil]
    · rintro x ⟨⟩
      rw [← hres.used]
      exact ⟨a, idx, (hev.objectAddr_eq hinv.toWf hmem idx).symm, fun hin => hin.2.set htook.clear,
        htook.used_eq (hinv.header .slabsPartial a htook.mem).1.len⟩

theorem objectAddr_setLock {lock : Spinlock} :
    objectAddr (setLock c lock k) a idx = objectAddr k a idx := by
  by_cases hkmem : (k.slab a).kmem = c <;> simp [objectAddr, setLock, hkmem]

theorem kmemCacheAlloc_spec (h : Inv c s.rest lists) (hidle : Idle (s.rest.cache c))
    (hblob : ∀ x, blob = some x → Blob x ∧ x ∉ slabsOf lists) :
    ∃ r s' lists', kmemCacheAlloc (answer blob b) c s = .ok (r, s') ∧
      Served c blob s.rest lists r s'.rest lists' ∧ Idle (s'.rest.cache c) := by
  have hcache : ∀ lock k, (setLock c lock k).cache c = { k.cache c with lock } :=
    fun _ _ => update_self ..
  obtain ⟨more, s1, lists1, hexpand, hrefill⟩ := expand_answer_spec (b := b)
    (s := onKmem (setLock c .held) s) (h.setLock _) (by simp [hcache, hidle.expanding]) hblob
  obtain ⟨r, k2, lists2, hrun, hev, hlock, hexp, hparked, hrefused, hgranted⟩ :=
    kmemCacheAllocNolock_of_expand hexpand hrefill
  simp only [onKmem_rest, hcache] at hlock hrefused
  refine ⟨r, onKmem (setLock c .initializer) { s1 with rest := k2 }, lists2, ?_,
    ⟨⟨hev.inv.setLock _, ?_, hev.slabs, hev.offset⟩, ?_, ?_, hparked, hrefused, ?_⟩, ?_⟩
  · unfold kmemCacheAlloc
    rw [hidle.lock]
    simp only [Spinlock.holding_initializer, Bool.false_eq_true, if_false,
      Spinlock.acquire_initializer, ok_bind]
    rw [hrun, ok_bind]
    simp only [hlock, Spinlock.release_held, ok_bind]
  · have hsizes := hev.sizes
    simp only [onKmem_rest, hcache] at hsizes ⊢
    exact ⟨hsizes.objSize, hsizes.allocSize, hsizes.low⟩
  · simp only [onKmem_rest, hcache, hidle.lock]
  · simpa only [onKmem_rest, hcache] using hexp
  · intro x hx
    obtain ⟨a, idx, haddr, hfresh⟩ := hgranted x hx
    exact ⟨a, idx, haddr.trans objectAddr_setLock.symm, hfresh⟩
  · simp only [onKmem_rest, hcache]
    exact ⟨rfl, hexp⟩

/-! ## Release -/

theorem setLock_of_eq {lock : Spinlock} (h : (k.cache c).lock = lock) : setLock c lock k = k := by
  subst h
  have hcache : update k.cache c { k.cache c with lock := (k.cache c).lock } = k.cache :=
    update_eq_self c k.cache
  unfold setLock setCache
  rw [hcache]

theorem kmemCacheFree_spec (h : Inv c k lists) (ha : a ∈ lists l) (hidle : Idle (k.cache c))
    (hobj : InObject k a idx addr) :
    kmemCacheFree addr k = if bitmapGet (k.slab a).bm idx = 0 then .ok k
      else .ok (putBack c a idx k) := by
  have hkmem : (k.slab a).kmem = c := (h.header l a ha).1.kmem
  have hobj' : InObject (setLock c .held k) a idx addr := by
    refine ⟨hobj.lt, objectAddr_setLock.trans_le hobj.low, ?_⟩
    rw [objectAddr_setLock]
    simpa [setLock, hkmem] using hobj.high
  unfold kmemCacheFree
  rw [h.toWf.alignDown_object ha hobj, hkmem]
  simp only [hidle.lock, Spinlock.holding_initializer, Bool.false_eq_true, if_false,
    Spinlock.acquire_initializer, ok_bind]
  rw [putObject_spec (h.setLock .held) ha hobj']
  by_cases hclear : bitmapGet (k.slab a).bm idx = 0
  · have hclear' : bitmapGet ((setLock c .held k).slab a).bm idx = 0 := hclear
    have hback : setLock c .initializer (setLock c .held k) = k := by
      simpa [setLock, setCache] using setLock_of_eq hidle.lock
    have hlock : ((setLock c .held k).cache c).lock = .held := by simp [setLock]
    rw [if_pos hclear, if_pos hclear', ok_bind, hlock, Spinlock.release_held, ok_bind, hback]
  · have hclear' : ¬ bitmapGet ((setLock c .held k).slab a).bm idx = 0 := hclear
    have hlock : ((putBack c a idx (setLock c .held k)).cache c).lock = .held := by
      simp [setLock, putBack]
    have hback : setLock c .initializer (putBack c a idx (setLock c .held k)) =
        putBack c a idx k := by
      have hlock0 : ((putBack c a idx k).cache c).lock = .initializer := by
        simp [putBack, hidle.lock]
      have hsame : setLock c .initializer (putBack c a idx (setLock c .held k)) =
          setLock c .initializer (putBack c a idx k) := by
        simp only [setLock, setCache, putBack, update_self, update_idem]
        rfl
      rw [hsame, setLock_of_eq hlock0]
    rw [if_neg hclear, if_neg hclear', ok_bind, hlock, Spinlock.release_held, ok_bind, hback]

end Alloc

end NoobKernel.Slab
