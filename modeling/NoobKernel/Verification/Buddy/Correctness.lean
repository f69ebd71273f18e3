import NoobKernel.Model.Metadata
import NoobKernel.Verification.Buddy.Alloc

/-! # Runs of the buddy allocator

Metadata comes from a pool outside the buddy allocator. A run starts with `buddy_init`
and continues with allocations and with releases of what is live. -/

namespace NoobKernel.Buddy

open Library Function List Blocks

variable {κ : Type} {R : Region} {lists : ℕ → List ℕ} {blocks : Blocks} {l : ℕ → Option ℕ}
  {fuel : ℕ}

/-! ## Metadata from a pool -/

/-- Metadata allocation succeeds, hands out `mem_block`s that are not in use, and does
not touch the buddy allocator. -/
structure Metadata.Plain (md : Metadata κ) (allocated : κ → Set ℕ) : Prop where
  alloc : ∀ s : Mm κ, ∃ p r, md.alloc s = .ok (some p, { s with rest := r }) ∧
    p ∉ allocated s.rest ∧ allocated r = insert p (allocated s.rest)
  free : ∀ (s : Mm κ) p, p ∈ allocated s.rest →
    ∃ r, md.free p s = .ok { s with rest := r } ∧ allocated r = allocated s.rest \ {p}

/-! ## Live blocks as a list -/

/-- The live blocks are those of a list without repetition. -/
structure Lives (l : ℕ → Option ℕ) (live : List (ℕ × ℕ)) : Prop where
  iff : ∀ a k, l a = some k ↔ (a, k) ∈ live
  nodup : (live.map Prod.fst).Nodup

theorem Lives.perm {live live' : List (ℕ × ℕ)} (h : Lives l live) (hp : live.Perm live') :
    Lives l live' :=
  ⟨fun a k => (h.iff a k).trans hp.mem_iff, (hp.map Prod.fst).nodup_iff.mp h.nodup⟩

theorem Lives.cons {live : List (ℕ × ℕ)} {a k : ℕ} (h : Lives l live) (ha : l a = none) :
    Lives (update l a (some k)) ((a, k) :: live) := by
  have hno : ∀ j, (a, j) ∉ live := by
    intro j hj
    rw [← h.iff, ha] at hj
    cases hj
  refine ⟨?_, ?_⟩
  · intro c j
    by_cases hc : c = a
    · subst hc
      simp only [update_self, Option.some.injEq, mem_cons, Prod.mk.injEq, true_and, hno j, or_false]
      exact eq_comm
    · rw [update_of_ne hc, h.iff]
      simp [hc]
  · rw [map_cons, nodup_cons]
    refine ⟨?_, h.nodup⟩
    intro hmem
    obtain ⟨⟨c, j⟩, hcj, rfl⟩ := mem_map.mp hmem
    exact hno j hcj

theorem Lives.erase {live : List (ℕ × ℕ)} (h : Lives l live) (a : ℕ) :
    Lives (update l a none) (live.filter (fun e => e.1 ≠ a)) := by
  refine ⟨?_, h.nodup.sublist (filter_sublist.map _)⟩
  intro c j
  by_cases hc : c = a
  · subst hc
    simp
  · rw [update_of_ne hc, h.iff]
    simp [hc]

theorem live_of_free {a k p : ℕ} (ha : blocks a = some (k, .free p)) : blocks.live a = none := by
  simp [live, ha]

/-- The `mem_block`s in use are allocated, and the live blocks are those of a list that depends
on the state of the metadata allocator. -/
def ledger (allocated : κ → Set ℕ) (live : κ → List (ℕ × ℕ)) : Keeps κ :=
  fun l r A => A ⊆ allocated r ∧ Lives l (live r)

/-- The metadata allocator does not change the list. -/
structure Metadata.Ignores (md : Metadata κ) (live : κ → List (ℕ × ℕ)) : Prop where
  alloc : ∀ s p s', md.alloc s = .ok (p, s') → live s'.rest = live s.rest
  free : ∀ s p s', md.free p s = .ok s' → live s'.rest = live s.rest

theorem Metadata.ignores_const (md : Metadata κ) (live : List (ℕ × ℕ)) :
    md.Ignores (fun _ => live) := ⟨fun _ _ _ _ => rfl, fun _ _ _ _ => rfl⟩

section Plain

variable {md : Metadata κ} {allocated : κ → Set ℕ} {live : κ → List (ℕ × ℕ)}

section

variable (h : md.Plain allocated) (hlive : md.Ignores live)

include h hlive

theorem Metadata.Plain.frees : md.Frees (ledger allocated live) := by
  refine ⟨fun l r A B hJ hB => ⟨hB.trans hJ.1, hJ.2⟩, ?_⟩
  intro s l A p hJ hp
  obtain ⟨r, hrun, hr⟩ := h.free s p (hJ.1 hp)
  refine ⟨r, hrun, ?_, hlive.free _ _ _ hrun ▸ hJ.2⟩
  rw [hr]
  exact Set.sdiff_subset_sdiff_left hJ.1

theorem Metadata.Plain.allocs (R : Region) :
    md.Allocs R (ledger allocated live) (fun _ _ => True) := by
  intro s lists blocks w hinv _ hJ _
  obtain ⟨p, r, hrun, hp, hr⟩ := h.alloc s
  refine ⟨p, _, lists, blocks, hrun, hinv, Extends.refl _, rfl, fun hmem => hp (hJ.1 hmem), ?_,
    hlive.alloc _ _ _ hrun ▸ hJ.2⟩
  rw [hr]
  exact Set.insert_subset_insert hJ.1

theorem Metadata.Plain.supplies (L : List (ℕ × ℕ)) :
    md.Supplies (fun r A => A ⊆ allocated r ∧ live r = L) := by
  refine ⟨fun r A B hA hB => ⟨hB.trans hA.1, hA.2⟩, ?_⟩
  intro s A hA
  obtain ⟨p, r, hrun, hp, hr⟩ := h.alloc s
  refine ⟨p, r, hrun, fun hmem => hp (hA.1 hmem), ?_, (hlive.alloc _ _ _ hrun).trans hA.2⟩
  rw [hr]
  exact Set.insert_subset_insert hA.1

end

end Plain

/-- A pool hands out what it has not handed out yet. -/
structure Pool.Lawful (pool : Pool κ) (allocated : κ → Set ℕ) : Prop where
  take_notMem : ∀ r, (pool.take r).1 ∉ allocated r
  allocated_take : ∀ r, allocated (pool.take r).2 = insert (pool.take r).1 (allocated r)
  allocated_put : ∀ p r, p ∈ allocated r → allocated (pool.put p r) = allocated r \ {p}

theorem Pool.Lawful.plain {pool : Pool κ} {allocated : κ → Set ℕ} (h : pool.Lawful allocated) :
    pool.metadata.Plain (fun r => allocated r.1) :=
  ⟨fun s => ⟨_, _, rfl, h.take_notMem s.rest.1, h.allocated_take s.rest.1⟩,
    fun s p hp => ⟨_, rfl, h.allocated_put p s.rest.1 hp⟩⟩

theorem Pool.counter_lawful : Pool.counter.Lawful (fun r => { p | p ∈ r.2 ∧ p < r.1 }) := by
  refine ⟨?_, ?_, ?_⟩
  · intro r hp
    exact lt_irrefl _ hp.2
  · intro r
    ext p
    simp only [counter, Set.mem_ofPred_eq, mem_cons, Set.mem_insert_iff, Nat.lt_succ_iff_lt_or_eq]
    tauto
  · intro p r _
    ext q
    simp only [counter, Set.mem_ofPred_eq, mem_filter, decide_eq_true_eq, Set.mem_sdiff,
      Set.mem_singleton_iff]
    tauto

/-! ## Runs -/

/-- The states of a run, with the start and the order of each live block. -/
inductive Reachable (md : Metadata κ) (R : Region) (fuel : ℕ) : Mm κ → List (ℕ × ℕ) → Prop where
  | init {s0 s : Mm κ} : Boot R s0 → buddyInit md R s0 = .ok (0, s) → Reachable md R fuel s []
  | alloc {s s' : Mm κ} {live : List (ℕ × ℕ)} {size : ℕ} {addr : Option ℕ} :
      Reachable md R fuel s live → buddyAlloc md fuel size s = .ok (addr, s') →
      Reachable md R fuel s' ((addr.map (fun a => (a, size2order size))).toList ++ live)
  | free {s s' : Mm κ} {live : List (ℕ × ℕ)} {a k : ℕ} :
      Reachable md R fuel s live → (a, k) ∈ live → buddyFree md a s = .ok s' →
      Reachable md R fuel s' (live.filter (fun e => e.1 ≠ a))

/-- What holds between two calls. -/
structure Settled (R : Region) (allocated : κ → Set ℕ) (s : Mm κ) (live : List (ℕ × ℕ))
    (lists : ℕ → List ℕ) (blocks : Blocks) : Prop where
  inv : Inv R s.buddy lists blocks 0
  lock : s.buddy.lock = .initializer
  noHeld : HeldBy (fun _ _ _ => False) blocks
  ptrs : blocks.ptrs ⊆ allocated s.rest
  lives : Lives blocks.live live

section Steps

variable {md : Metadata κ} {allocated : κ → Set ℕ} {live : κ → List (ℕ × ℕ)} {s s' : Mm κ}
  {lists' : ℕ → List ℕ} {blocks1 : Blocks} {a k : ℕ}

theorem HeldBy.heldSafe (h : HeldBy (fun _ _ _ => False) blocks) (t : ℕ) : HeldSafe blocks t :=
  fun a k q ha _ => ((h a k q).mp ha).elim

theorem SplitSafe.trivial (md : Metadata κ) (t n : ℕ) (s : Mm κ) :
    SplitSafe md (fun _ _ _ => True) t n s := by
  induction n generalizing s with
  | zero => exact True.intro
  | succ n ih => exact ⟨fun _ _ _ _ => True.intro, fun s' _ => ih s'⟩

theorem Extends.take {p : ℕ} (h : Extends blocks blocks1) (ha : blocks1 a = some (k, .free p)) :
    Extends blocks (update blocks1 a (some (k, .live))) := by
  refine ⟨?_, ?_⟩
  · intro c j q
    rw [← h.held]
    by_cases hca : c = a
    · subst hca
      simp [ha]
    · rw [update_of_ne hca]
  · intro c j hc
    have hca : c ≠ a := by
      rintro rfl
      rw [h.live c j hc] at ha
      simp at ha
    rw [update_of_ne hca]
    exact h.live c j hc

section

variable (h : Settled R allocated s (live s.rest) lists blocks)

include h

theorem Settled.taken (htaken : Taken R (ledger allocated live) s blocks 0 k a s' lists' blocks1) :
    Settled R allocated s' ((a, k) :: live s'.rest) lists'
      (update blocks1 a (some (k, .live))) := by
  obtain ⟨p, hp⟩ := htaken.free
  refine ⟨htaken.inv, htaken.lock.trans h.lock, h.noHeld.of_extends (htaken.use.take hp),
    htaken.keeps.1, ?_⟩
  rw [live_update]
  exact htaken.keeps.2.cons (live_of_free hp)

theorem Settled.exhausted
    (hnone : Exhausted R (ledger allocated live) s blocks 0 k s' lists' blocks1) :
    Settled R allocated s' (live s'.rest) lists' blocks1 :=
  have hdiv := hnone.redivided
  ⟨hdiv.inv, hdiv.lock.trans h.lock, h.noHeld.of_extends hdiv.use.extends, hdiv.keeps.1,
    hdiv.keeps.2⟩

theorem Settled.free {Safe : Mm κ → Blocks → Prop} {live' : κ → List (ℕ × ℕ)}
    (halloc : md.Allocs R (ledger allocated live) Safe) (hsafe : Safe s blocks)
    (ha : (a, k) ∈ live s.rest)
    (herase : ∀ l r, Lives l (live r) → Lives (update l a none) (live' r)) :
    ∃ s' lists' blocks', buddyFree md a s = .ok s' ∧
      Settled R allocated s' (live' s'.rest) lists' blocks' := by
  have hlive : blocks a = some (k, .live) := live_eq_some.mp ((h.lives.iff a k).mpr ha)
  obtain ⟨p, s', lists', blocks1, hrun, hret⟩ := buddyFree_spec (ledger allocated live') halloc
    (fun l r A B hJ hB => ⟨hB.trans hJ.1, hJ.2⟩) h.inv hlive h.lock ⟨h.ptrs, h.lives⟩ hsafe
    (fun l r A hJ => ⟨hJ.1, herase l r hJ.2⟩)
  refine ⟨s', lists', _, hrun, hret.inv, hret.lock.trans h.lock, ?_, hret.keeps.1, ?_⟩
  · intro c j q
    by_cases hc : c = a
    · subst hc
      simp
    · rw [update_of_ne hc]
      exact h.noHeld.of_extends hret.use c j q
  · rw [live_update]
    exact hret.keeps.2

end

theorem Boot.settled (hmd : md.Plain allocated) (hlive : md.Ignores live)
    (hbase : buddyBlobSize ∣ R.base) (hlimit : buddyBlobSize ∣ R.limit) (hboot : Boot R s)
    (hnil : live s.rest = []) (hrun : buddyInit md R s = .ok (0, s')) :
    ∃ lists blocks, Settled R allocated s' (live s'.rest) lists blocks := by
  rcases buddyInit_spec (hmd.supplies hlive []) hbase hlimit hboot
      ⟨Set.empty_subset _, hnil⟩ with ⟨s1, lists1, blocks1, hrun1, hfilled⟩ | ⟨s1, hrun1⟩
  · cases hrun.symm.trans hrun1
    refine ⟨lists1, blocks1, hfilled.inv, hfilled.lock.trans hboot.lock, fun a k p => ?_,
      hfilled.keeps.1, ?_⟩
    · refine ⟨fun ha => ?_, False.elim⟩
      obtain ⟨q, hq⟩ := hfilled.allFree a k _ ha
      cases hq
    · rw [hfilled.keeps.2]
      refine ⟨fun a k => ⟨fun ha => ?_, nofun⟩, nodup_nil⟩
      obtain ⟨q, hq⟩ := hfilled.allFree a k _ (live_eq_some.mp ha)
      cases hq
  · cases hrun.symm.trans hrun1

variable {live : List (ℕ × ℕ)}

theorem Settled.alloc (hmd : md.Plain allocated) (h : Settled R allocated s live lists blocks)
    {size : ℕ} (hfuel : pageNum + 2 ≤ fuel) (hlow : pageSize ≤ size)
    (hhigh : size ≤ buddyBlobSize) :
    Allocates R (ledger allocated fun _ => live) s blocks 0 (size2order size)
      (buddyAlloc md fuel size s) := by
  have hsafe : SafeBy R (fun (_ : Mm κ) (_ : Blocks) => True) (fun _ _ _ => True)
      (fun _ _ _ => False) := fun _ _ _ _ _ _ _ _ _ _ => True.intro
  have hlive := md.ignores_const live
  exact buddyAlloc_spec (hmd.frees hlive) (hmd.allocs hlive R) hsafe hfuel h.inv h.noHeld
    (Or.inl h.lock) ⟨h.ptrs, h.lives⟩ (fun _ => h.noHeld.heldSafe _) hlow hhigh
    (fun _ s1 _ _ _ => SplitSafe.trivial md _ _ s1)

theorem Settled.plain_free (hmd : md.Plain allocated)
    (h : Settled R allocated s live lists blocks) (ha : (a, k) ∈ live) :
    ∃ s' lists' blocks', buddyFree md a s = .ok s' ∧
      Settled R allocated s' (live.filter (fun e => e.1 ≠ a)) lists' blocks' :=
  h.free (hmd.allocs (md.ignores_const live) R) True.intro ha (fun _ _ hl => hl.erase a)

theorem Reachable.settled (hmd : md.Plain allocated) (hbase : buddyBlobSize ∣ R.base)
    (hlimit : buddyBlobSize ∣ R.limit) (hfuel : pageNum + 2 ≤ fuel)
    (h : Reachable md R fuel s live) : ∃ lists blocks, Settled R allocated s live lists blocks := by
  induction h with
  | init hboot hrun => exact hboot.settled hmd (md.ignores_const []) hbase hlimit rfl hrun
  | @alloc s s' live size addr _ hrun ih =>
    obtain ⟨lists, blocks, hset⟩ := ih
    by_cases hsize : size < pageSize ∨ size > buddyBlobSize
    · rw [buddyAlloc, if_pos hsize] at hrun
      cases hrun
      exact ⟨lists, blocks, hset⟩
    have hlow : pageSize ≤ size := by omega
    have hhigh : size ≤ buddyBlobSize := by omega
    rcases hset.alloc hmd hfuel hlow hhigh with
      ⟨a, s1, lists1, blocks1, hrun1, htaken⟩ | ⟨s1, lists1, blocks1, hrun1, hnone⟩
    · cases hrun.symm.trans hrun1
      exact ⟨lists1, _, hset.taken htaken⟩
    · cases hrun.symm.trans hrun1
      exact ⟨lists1, blocks1, hset.exhausted hnone⟩
  | free _ ha hrun ih =>
    obtain ⟨lists, blocks, hset⟩ := ih
    obtain ⟨s1, lists1, blocks1, hrun1, hset1⟩ := hset.plain_free hmd ha
    cases hrun.symm.trans hrun1
    exact ⟨lists1, blocks1, hset1⟩

end Steps

/-! ## The partition of the region -/

/-- Two blocks, given by start and order, share no address. -/
def Apart (e f : ℕ × ℕ) : Prop := ∀ x, InBlock e.1 (exponent e.2) x → ¬ InBlock f.1 (exponent f.2) x

def freeBlocks (s : Mm κ) (lists : ℕ → List ℕ) : List (ℕ × ℕ) :=
  (List.range (buddyMaxOrder + 1)).flatMap (fun k => (lists k).map (fun p => (s.buddy.start p, k)))

/-- The free lists are rings, and their blocks together with the live blocks partition
the region into aligned blocks. The pages and the counter agree with the lists. -/
structure Partition (R : Region) (s : Mm κ) (live : List (ℕ × ℕ)) (lists : ℕ → List ℕ) :
    Prop where
  rings : ∀ k ≤ buddyMaxOrder, Ring s.buddy.links (.head k) ((lists k).map .block)
  disjoint : (freeBlocks s lists ++ live).Pairwise Apart
  cover : ∀ x, (R.base ≤ x ∧ x < R.limit) ↔
    ∃ e ∈ freeBlocks s lists ++ live, InBlock e.1 (exponent e.2) x
  aligned : ∀ e ∈ freeBlocks s lists ++ live, pageSize <<< e.2 ∣ e.1
  listed : ∀ k ≤ buddyMaxOrder, ∀ p ∈ lists k, ∃ i, addr2index (s.buddy.start p) = some i ∧
    (s.buddy.pages i).order = k ∧ (s.buddy.pages i).priv = some p
  unlisted : ∀ i, (∀ k ≤ buddyMaxOrder, ∀ p ∈ lists k, addr2index (s.buddy.start p) ≠ some i) →
    (s.buddy.pages i).priv = none
  count : s.buddy.freePages = ((freeBlocks s lists).map (fun e => 2 ^ e.2)).sum

section Partition

variable {md : Metadata κ} {allocated : κ → Set ℕ} {s : Mm κ} {live : List (ℕ × ℕ)} {w : ℕ}

theorem Inv.mem_freeBlocks (h : Inv R s.buddy lists blocks w) (e : ℕ × ℕ) :
    e ∈ freeBlocks s lists ↔ ∃ p, blocks e.1 = some (e.2, .free p) := by
  obtain ⟨a, k⟩ := e
  simp only [freeBlocks, mem_flatMap, mem_range, mem_map, Prod.mk.injEq]
  constructor
  · rintro ⟨j, hj, p, hp, rfl, rfl⟩
    exact ⟨p, h.free_of_mem (Nat.lt_succ_iff.mp hj) hp⟩
  · rintro ⟨p, hp⟩
    obtain ⟨hk, hmem, hs⟩ := (h.free_iff a k p).mp hp
    exact ⟨k, Nat.lt_succ_of_le hk, p, hmem, hs, rfl⟩

theorem Inv.nodup_freeBlocks (h : Inv R s.buddy lists blocks w) : (freeBlocks s lists).Nodup := by
  unfold freeBlocks
  rw [nodup_flatMap]
  refine ⟨?_, ?_⟩
  · intro k hk
    have hk' : k ≤ buddyMaxOrder := Nat.lt_succ_iff.mp (mem_range.mp hk)
    refine (h.nodup hk').map_on ?_
    intro p hp q hq heq
    simp only [Prod.mk.injEq, and_true] at heq
    have hfree := h.free_of_mem hk' hp
    rw [heq, h.free_of_mem hk' hq] at hfree
    simpa using hfree.symm
  · refine nodup_range.imp ?_
    intro j k hjk e hj hk
    obtain ⟨p, -, rfl⟩ := mem_map.mp hj
    obtain ⟨q, -, hq⟩ := mem_map.mp hk
    simp only [Prod.mk.injEq] at hq
    exact hjk hq.2.symm

theorem sum_freeBlocks (s : Mm κ) (lists : ℕ → List ℕ) :
    ((freeBlocks s lists).map (fun e => 2 ^ e.2)).sum = listedPages lists := by
  have hsum : ∀ n, (((List.range n).flatMap
      (fun k => (lists k).map (fun p => (s.buddy.start p, k)))).map (fun e => 2 ^ e.2)).sum =
        ∑ k ∈ Finset.range n, (lists k).length * 2 ^ k := by
    intro n
    induction n with
    | zero => simp
    | succ n ih =>
      rw [range_succ, flatMap_append, map_append, sum_append, ih, Finset.sum_range_succ]
      simp [comp_def]
  exact hsum _

theorem Inv.apart {b : State} {e f : ℕ × ℕ} {st st' : Status} (h : Inv R b lists blocks w)
    (he : blocks e.1 = some (e.2, st)) (hf : blocks f.1 = some (f.2, st')) (hne : e ≠ f) :
    Apart e f := by
  intro x hex hfx
  have hstart := h.tiling.apart _ _ _ _ x (size_eq he) (size_eq hf) hex hfx
  rw [hstart, hf] at he
  simp only [Option.some.injEq, Prod.mk.injEq] at he
  exact hne (Prod.ext hstart he.1.symm)

section

variable (h : Settled R allocated s live lists blocks)

include h

theorem Settled.mem_blocks (e : ℕ × ℕ) :
    e ∈ freeBlocks s lists ++ live ↔ ∃ st, blocks e.1 = some (e.2, st) := by
  rw [mem_append, h.inv.mem_freeBlocks, ← Prod.mk.eta (p := e), ← h.lives.iff, live_eq_some]
  constructor
  · rintro (⟨p, hp⟩ | hl)
    · exact ⟨_, hp⟩
    · exact ⟨_, hl⟩
  · rintro ⟨st, hst⟩
    cases st with
    | free p => exact Or.inl ⟨p, hst⟩
    | held p => exact ((h.noHeld _ _ p).mp hst).elim
    | live => exact Or.inr hst

theorem Settled.pairwise : (freeBlocks s lists ++ live).Pairwise Apart := by
  have hnodup : (freeBlocks s lists ++ live).Nodup := by
    refine List.Nodup.append h.inv.nodup_freeBlocks (h.lives.nodup.of_map _) ?_
    rintro ⟨a, k⟩ hfree hlive
    obtain ⟨p, hp⟩ := (h.inv.mem_freeBlocks _).mp hfree
    rw [live_eq_some.mp ((h.lives.iff a k).mpr hlive)] at hp
    simp at hp
  refine hnodup.pairwise_of_forall_ne ?_
  intro e he f hf hne
  obtain ⟨st, hst⟩ := (h.mem_blocks e).mp he
  obtain ⟨st', hst'⟩ := (h.mem_blocks f).mp hf
  exact h.inv.apart hst hst' hne

theorem Settled.partition : Partition R s live lists := by
  refine ⟨h.inv.rings.ring, h.pairwise, ?_, ?_, ?_, ?_, ?_⟩
  · intro x
    rw [h.inv.tiling.cover x]
    constructor
    · rintro ⟨a, e, ha, hx⟩
      obtain ⟨k, st, hst, rfl⟩ := exists_of_size ha
      exact ⟨(a, k), (h.mem_blocks (a, k)).mpr ⟨st, hst⟩, hx⟩
    · rintro ⟨⟨a, k⟩, he, hx⟩
      obtain ⟨st, hst⟩ := (h.mem_blocks (a, k)).mp he
      exact ⟨a, _, size_eq hst, hx⟩
  · rintro ⟨a, k⟩ he
    obtain ⟨st, hst⟩ := (h.mem_blocks (a, k)).mp he
    rw [Nat.shiftLeft_eq, ← pow_add]
    exact h.inv.dvd hst
  · intro k hk p hp
    have hfree := h.inv.free_of_mem hk hp
    obtain ⟨i, hi, hindex⟩ := h.inv.index hfree
    rw [← hi] at hfree
    refine ⟨i, hindex, h.inv.page_order i k _ hfree, ?_⟩
    rw [h.inv.page_priv i, hfree]
    rfl
  · intro i hi
    rw [h.inv.page_priv i]
    cases hb : blocks (pageAddr i) with
    | none => rfl
    | some v =>
      obtain ⟨k, st⟩ := v
      cases st with
      | free p =>
        obtain ⟨hk, hp, hs⟩ := (h.inv.free_iff _ k p).mp hb
        obtain ⟨j, hj, hindex⟩ := h.inv.index hb
        rw [pageAddr_injective hj] at hindex
        exact absurd (hs ▸ hindex) (hi k hk p hp)
      | held p => exact ((h.noHeld _ k p).mp hb).elim
      | live => rfl
  · rw [sum_freeBlocks, h.inv.count, Nat.add_zero]
    exact Nat.mod_eq_of_lt (h.inv.listedPages_le.trans_lt (by norm_num))

end

/-- In every run of `buddy_alloc` and `buddy_free` on a region with aligned ends, the
free and the live blocks partition the region, every call returns, and an allocated
block holds the requested size apart from all live blocks. -/
theorem buddy_partition (hmd : md.Plain allocated) (hbase : buddyBlobSize ∣ R.base)
    (hlimit : buddyBlobSize ∣ R.limit) {fuel : ℕ} (hfuel : pageNum + 2 ≤ fuel)
    (h : Reachable md R fuel s live) :
    (∃ lists, Partition R s live lists) ∧
    (∀ size, ∃ addr s', buddyAlloc md fuel size s = .ok (addr, s') ∧
      ∀ a, addr = some a → size ≤ pageSize <<< size2order size ∧
        ∀ e ∈ live, Apart (a, size2order size) e) ∧
    ∀ a k, (a, k) ∈ live → ∃ s', buddyFree md a s = .ok s' := by
  obtain ⟨lists, blocks, hset⟩ := h.settled hmd hbase hlimit hfuel
  refine ⟨⟨lists, hset.partition⟩, ?_, ?_⟩
  · intro size
    by_cases hsize : size < pageSize ∨ size > buddyBlobSize
    · exact ⟨none, s, by rw [buddyAlloc, if_pos hsize], by simp⟩
    have hlow : pageSize ≤ size := by omega
    have hhigh : size ≤ buddyBlobSize := by omega
    rcases hset.alloc hmd hfuel hlow hhigh with
      ⟨a, s', lists', blocks1, hrun, htaken⟩ | ⟨s', lists', blocks', hrun, -⟩
    · refine ⟨some a, s', hrun, ?_⟩
      intro c hc
      simp only [Option.some.injEq] at hc
      subst hc
      refine ⟨?_, ?_⟩
      · rw [Nat.shiftLeft_eq, ← pow_add]
        exact size_le_size2order hlow hhigh
      · have hpart := (hset.taken htaken).pairwise
        rw [pairwise_append] at hpart
        exact (pairwise_cons.mp hpart.2.1).1
    · exact ⟨none, s', hrun, by simp⟩
  · intro a k ha
    obtain ⟨s', -, -, hrun, -⟩ := hset.plain_free hmd ha
    exact ⟨s', hrun⟩

def lastBlob : Region := ⟨0x87800000, 0x88000000⟩

/-- The state before `buddy_init` with the counting pool. -/
def bootCounter : Mm ((ℕ × List ℕ) × List ℕ) :=
  ⟨⟨fun _ => buddyPage, fun _ => 0, ⟨id, id⟩, 0, .initializer⟩, ((1, []), [])⟩

theorem bootCounter_boot (R : Region) : Boot R bootCounter :=
  ⟨fun _ _ _ => rfl, fun _ => rfl, rfl, rfl⟩

/-- Two allocations, and a free of the first block. -/
theorem reachable_lastBlob :
    ∃ s, Reachable Pool.counter.metadata lastBlob 40000 s [(0x87808000, 0)] :=
  ⟨_, .free (.alloc (.alloc (.init (bootCounter_boot lastBlob) rfl)
    (rfl : buddyAlloc _ _ 20000 _ = .ok (some 0x87800000, _)))
    (rfl : buddyAlloc _ _ 4096 _ = .ok (some 0x87808000, _))) (.tail _ (.head _)) rfl⟩

theorem buddy_partition_lastBlob : ∃ s,
    Reachable Pool.counter.metadata lastBlob 40000 s [(0x87808000, 0)] ∧
      ∃ lists, Partition lastBlob s [(0x87808000, 0)] lists := by
  obtain ⟨s, hreach⟩ := reachable_lastBlob
  exact ⟨s, hreach, (buddy_partition Pool.counter_lawful.plain (by decide) (by decide)
    (by decide) hreach).1⟩

end Partition

/-! ## Completeness of allocation

An allocation gives up only when no aligned run of the requested order is free, however
the free memory is divided. -/

variable {κ : Type} {R : Region} {lists : ℕ → List ℕ} {blocks : Blocks} {w : ℕ}

/-! ## Free memory of a state -/

/-- The `mem_block` is on the free list of the order. -/
def OnList (s : Mm κ) (k p : ℕ) : Prop :=
  ∃ l : List ℕ, Ring s.buddy.links (.head k) (l.map .block) ∧ p ∈ l

/-- The address lies in a block on a free list. -/
def IsFree (s : Mm κ) (x : ℕ) : Prop :=
  ∃ k p, k ≤ buddyMaxOrder ∧ OnList s k p ∧ InBlock (s.buddy.start p) (exponent k) x

/-- A naturally aligned run of `2 ^ k` pages from `r` on that is free. -/
def FreeRun (s : Mm κ) (k r : ℕ) : Prop :=
  2 ^ exponent k ∣ r ∧ ∀ x, InBlock r (exponent k) x → IsFree s x

theorem Inv.onList_iff {s : Mm κ} {k p : ℕ} (h : Inv R s.buddy lists blocks w)
    (hk : k ≤ buddyMaxOrder) : OnList s k p ↔ p ∈ lists k := by
  constructor
  · rintro ⟨l, hring, hp⟩
    have hmap := hring.eq_of_ring (h.rings.ring k hk)
    have hinj : Function.Injective Node.block := fun a c hac => by simpa using hac
    rwa [List.map_injective_iff.mpr hinj hmap] at hp
  · intro hp
    exact ⟨lists k, h.rings.ring k hk, hp⟩

theorem Inv.isFree_iff {s : Mm κ} (h : Inv R s.buddy lists blocks w) (x : ℕ) :
    IsFree s x ↔ FreeAt blocks x := by
  constructor
  · rintro ⟨k, p, hk, hp, hx⟩
    exact ⟨_, k, p, h.free_of_mem hk ((h.onList_iff hk).mp hp), hx⟩
  · rintro ⟨a, k, p, ha, hx⟩
    obtain ⟨hk, hp, hs⟩ := (h.free_iff a k p).mp ha
    exact ⟨k, p, hk, (h.onList_iff hk).mpr hp, hs ▸ hx⟩

/-! ## No run is missed -/

/-- With no pair of free buddies below the order and no larger free block, there is no
free run. -/
theorem Exhausted.no_run {J : Keeps κ} {s s' : Mm κ} {k r : ℕ} {lists' : ℕ → List ℕ}
    {blocks' : Blocks} (h : Exhausted R J s blocks w k s' lists' blocks')
    (hdvd : 2 ^ exponent k ∣ r) :
    ¬ ∀ x, InBlock r (exponent k) x → FreeAt blocks x := by
  intro hrun
  have hinv := h.redivided.inv
  obtain ⟨b, f, hb, ⟨j, p, hfree⟩, hkf, -⟩ := hinv.tiling.exists_of_run
    (fun b => ∃ j p, blocks' b = some (j, .free p)) pageShift
    (fun b f hb => by
      obtain ⟨j, st, -, rfl⟩ := exists_of_size hb
      exact Nat.le_add_right _ _)
    (exponent k) r (Nat.le_add_right _ _) hdvd
    (by
      rintro b f hf hb ⟨j, p, hp⟩ ⟨hb', j', p', hp'⟩
      obtain ⟨m, st, hm, rfl⟩ := exists_of_size hb
      obtain ⟨m', st', hm', hmm⟩ := exists_of_size hb'
      have hm' : m' = m := by
        unfold exponent at hmm
        omega
      subst hm'
      rw [hp] at hm
      rw [hp'] at hm'
      simp only [Option.some.injEq, Prod.mk.injEq] at hm hm'
      obtain ⟨rfl, -⟩ := hm
      obtain ⟨rfl, -⟩ := hm'
      exact h.noPair j' (by unfold exponent at hf; omega) b p p' hp hp')
    (by
      intro y hy
      obtain ⟨a, j, p, ha, hay⟩ := (h.redivided.use.free y).mpr (hrun y hy)
      exact ⟨a, exponent j, size_eq ha, ⟨j, p, ha⟩, hay⟩)
  obtain ⟨m, st, hm, rfl⟩ := exists_of_size hb
  rw [hfree] at hm
  obtain ⟨rfl, -⟩ := hm
  have hmem := hinv.mem_of_free hfree
  rw [h.empty j (by unfold exponent at hkf; omega) (hinv.order_le _ _ _ hfree)] at hmem
  cases hmem

/-- In every reachable state `merge_blocks` ends for every order, and `buddy_alloc`
returns `NULL` for a size in range only when no aligned run of its order is free. -/
theorem buddy_complete {md : Metadata κ} {allocated : κ → Set ℕ} (hmd : md.Plain allocated)
    (hbase : buddyBlobSize ∣ R.base) (hlimit : buddyBlobSize ∣ R.limit) {fuel : ℕ}
    (hfuel : pageNum + 2 ≤ fuel) {s : Mm κ} {live : List (ℕ × ℕ)} (h : Reachable md R fuel s live) :
    (∀ order ≤ buddyMaxOrder, ∃ s', mergeBlocks md fuel order s = .ok s') ∧
    ∀ size, pageSize ≤ size → size ≤ buddyBlobSize →
      ∃ addr s', buddyAlloc md fuel size s = .ok (addr, s') ∧
        (addr = none → ∀ r, ¬ FreeRun s (size2order size) r) := by
  obtain ⟨lists, blocks, hset⟩ := h.settled hmd hbase hlimit hfuel
  refine ⟨?_, ?_⟩
  · intro order horder
    obtain ⟨s', -, -, hrun, -⟩ := mergeBlocks_spec (hmd.frees (md.ignores_const live)) hfuel
      horder hset.inv (hset.noHeld.heldSafe order) ⟨hset.ptrs, hset.lives⟩
    exact ⟨s', hrun⟩
  · intro size hlow hhigh
    rcases hset.alloc hmd hfuel hlow hhigh with
      ⟨a, s', lists', blocks1, hrun, -⟩ | ⟨s', lists', blocks', hrun, hnone⟩
    · exact ⟨some a, s', hrun, fun he => by cases he⟩
    · refine ⟨none, s', hrun, ?_⟩
      rintro - r ⟨hdvd, hfree⟩
      exact hnone.no_run hdvd (fun x hx => (hset.inv.isFree_iff x).mp (hfree x hx))

theorem buddy_complete_lastBlob : ∃ s,
    Reachable Pool.counter.metadata lastBlob 40000 s [(0x87808000, 0)] ∧
      ∃ s', mergeBlocks Pool.counter.metadata 40000 4 s = .ok s' := by
  obtain ⟨s, hreach⟩ := reachable_lastBlob
  exact ⟨s, hreach, (buddy_complete Pool.counter_lawful.plain (by decide) (by decide)
    (by decide) hreach).1 4 (by decide)⟩

/-! ## Re-entrant metadata allocation

A metadata allocation inside `split_blocks` may allocate a blob from the buddy allocator
that is waiting for it. The block that the split has taken off its list still looks free
to the nested `merge_blocks`. The two calls do not interfere as long as the nested call
does not merge, or merges only below the order of that block, or cannot complete the
buddy of that block. -/

open Outcome

abbrev slabOrder : ℕ := 4

theorem size2order_slabBlobSize : size2order slabBlobSize = slabOrder := by decide

/-- The blobs that the metadata cache has been given. -/
def given (r : κ × List ℕ) : List (ℕ × ℕ) := r.2.map (fun a => (a, slabOrder))

/-! ## The nested call -/

/-- The pool keeps the `mem_block`s in use, and the live blocks are those of the outer
callers and the blobs of the cache. -/
abbrev nestedLedger (allocated : κ → Set ℕ) (live : List (ℕ × ℕ)) : Keeps (κ × List ℕ) :=
  ledger (fun r => allocated r.1) (fun r => live ++ given r)

section Nested

variable {pool : Pool κ} {allocated : κ → Set ℕ} {again : Mm (κ × List ℕ) → Bool} {fuel : ℕ}
  {live : List (ℕ × ℕ)}

theorem Pool.ignores (pool : Pool κ) (live : List (ℕ × ℕ)) :
    pool.metadata.Ignores (fun r => live ++ given r) := by
  constructor
  · intro s p s' h
    cases h
    rfl
  · intro s p s' h
    cases h
    rfl

/-- A nested call does not merge blocks that an outer split holds. -/
def NestedSafe (again : Mm (κ × List ℕ) → Bool) (s : Mm (κ × List ℕ)) (blocks : Blocks) : Prop :=
  again s = true → listEmpty s slabOrder = true → HeldSafe blocks slabOrder

variable (hpool : pool.Lawful allocated)

include hpool

/-- The nested call for a blob, from inside a split or not. -/
theorem nested_spec (hfuel : pageNum + 2 ≤ fuel) {s : Mm (κ × List ℕ)}
    (h : Inv R s.buddy lists blocks w)
    (hJ : nestedLedger allocated live blocks.live s.rest blocks.ptrs) (hlock : Usable s.buddy.lock)
    (hsafe : listEmpty s slabOrder = true → HeldSafe blocks slabOrder) :
    ∃ blob s' lists' blocks', buddyAlloc pool.metadata fuel slabBlobSize s = .ok (blob, s') ∧
      Inv R s'.buddy lists' blocks' w ∧ Extends blocks blocks' ∧
      s'.buddy.lock = s.buddy.lock ∧ blocks'.ptrs ⊆ allocated s'.rest.1 ∧
      Lives blocks'.live (live ++ given (s'.rest.1, blob.toList ++ s'.rest.2)) := by
  have hP : SafeBy R (fun (_ : Mm (κ × List ℕ)) (_ : Blocks) => True) (fun _ _ _ => True)
      (fun a k p => blocks a = some (k, .held p)) := fun _ _ _ _ _ _ _ _ _ _ => True.intro
  have hlive := pool.ignores live
  rcases buddyAlloc_spec (hpool.plain.frees hlive) (hpool.plain.allocs hlive R) hP hfuel h
      (fun _ _ _ => Iff.rfl) hlock hJ (by rw [size2order_slabBlobSize]; exact hsafe)
      (show pageSize ≤ slabBlobSize by decide) (show slabBlobSize ≤ buddyBlobSize by decide)
      (fun _ s1 _ _ _ => SplitSafe.trivial _ _ _ s1) with
    ⟨a, s', lists', blocks1, hrun, htaken⟩ | ⟨s', lists', blocks', hrun, hnone⟩
  · rw [size2order_slabBlobSize] at htaken
    obtain ⟨p, hp⟩ := htaken.free
    refine ⟨some a, s', lists', _, hrun, htaken.inv, htaken.use.take hp, htaken.lock,
      htaken.keeps.1, ?_⟩
    rw [Blocks.live_update]
    refine (htaken.keeps.2.cons (live_of_free hp)).perm ?_
    exact perm_middle.symm
  · have hdiv := hnone.redivided
    exact ⟨none, s', lists', blocks', hrun, hdiv.inv, hdiv.use.extends, hdiv.lock,
      hdiv.keeps.1, hdiv.keeps.2⟩

theorem Pool.Lawful.reentrant_allocs (hfuel : pageNum + 2 ≤ fuel) (R : Region)
    (live : List (ℕ × ℕ)) :
    (pool.reentrant again fuel).Allocs R (nestedLedger allocated live) (NestedSafe again) := by
  intro s lists blocks w h hlock hJ hsafe
  by_cases hagain : again s = true
  · obtain ⟨blob, s1, lists1, blocks1, hrun, hinv, huse, hlock1, hptrs, hlives⟩ :=
      nested_spec hpool hfuel h hJ hlock (hsafe hagain)
    refine ⟨(pool.take s1.rest.1).1,
      { s1 with rest := ((pool.take s1.rest.1).2, blob.toList ++ s1.rest.2) }, lists1, blocks1,
      ?_, hinv, huse, hlock1, fun hmem => hpool.take_notMem s1.rest.1 (hptrs hmem), ?_, hlives⟩
    · simp only [Pool.reentrant, hagain, if_true, hrun, ok_bind]
      rfl
    · dsimp only
      rw [hpool.allocated_take]
      exact Set.insert_subset_insert hptrs
  · obtain ⟨p, s1, lists1, blocks1, hrun, hgot⟩ :=
      hpool.plain.allocs (pool.ignores live) R s lists blocks w h hlock hJ True.intro
    refine ⟨p, s1, lists1, blocks1, ?_, hgot⟩
    simp only [Pool.reentrant, hagain, Bool.false_eq_true, if_false, hrun]

theorem Pool.Lawful.reentrant_frees (live : List (ℕ × ℕ)) :
    (pool.reentrant again fuel).Frees (nestedLedger allocated live) :=
  have h := hpool.plain.frees (pool.ignores live)
  ⟨h.mono, h.free⟩

end Nested

/-! ## Runs -/

/-- The state of a re-entry, with the order and the `mem_block` of the block that the
split has taken off its list: the block is no smaller than a blob, or a blob is listed,
or the buddy of the block is not free altogether. -/
def ReentrySafe (s : Mm κ) (order block : ℕ) : Prop :=
  slabOrder ≤ order ∨ listEmpty s slabOrder = false ∨
    ∃ x, InBlock (getBuddyAddr (s.buddy.start block) order) (exponent order) x ∧ ¬ IsFree s x

/-- Every re-entry during a call of `buddy_alloc` happens in a safe state. -/
def CallSafe (pool : Pool κ) (again : Mm (κ × List ℕ) → Bool) (fuel size : ℕ)
    (s : Mm (κ × List ℕ)) : Prop :=
  AllocSafe (pool.reentrant again fuel)
    (fun s order block => again s = true → ReentrySafe s order block) fuel (size2order size)
    (setLock .held s)

/-- The states of a run with re-entrant metadata, whose calls of `buddy_alloc` satisfy
`Ok`, with the live blocks of the callers. -/
inductive ReentrantRun (pool : Pool κ) (again : Mm (κ × List ℕ) → Bool) (R : Region) (fuel : ℕ)
    (Ok : ℕ → Mm (κ × List ℕ) → Prop) : Mm (κ × List ℕ) → List (ℕ × ℕ) → Prop where
  | init {s0 s : Mm (κ × List ℕ)} : Boot R s0 → s0.rest.2 = [] →
      buddyInit pool.metadata R s0 = .ok (0, s) → ReentrantRun pool again R fuel Ok s []
  | alloc {s s' : Mm (κ × List ℕ)} {live : List (ℕ × ℕ)} {size : ℕ} {addr : Option ℕ} :
      ReentrantRun pool again R fuel Ok s live → Ok size s →
      buddyAlloc (pool.reentrant again fuel) fuel size s = .ok (addr, s') →
      ReentrantRun pool again R fuel Ok s'
        ((addr.map (fun a => (a, size2order size))).toList ++ live)
  | free {s s' : Mm (κ × List ℕ)} {live : List (ℕ × ℕ)} {a k : ℕ} :
      ReentrantRun pool again R fuel Ok s live → (a, k) ∈ live →
      buddyFree (pool.reentrant again fuel) a s = .ok s' →
      ReentrantRun pool again R fuel Ok s' (live.filter (fun e => e.1 ≠ a))

section Runs

variable {pool : Pool κ} {allocated : κ → Set ℕ} {again : Mm (κ × List ℕ) → Bool} {fuel : ℕ}
  {s : Mm (κ × List ℕ)} {live : List (ℕ × ℕ)}

/-- In a safe state the nested call leaves the one held block alone. -/
theorem safeBy_reentry (R : Region) (again : Mm (κ × List ℕ) → Bool) :
    SafeBy R (NestedSafe again) (fun s order block => again s = true → ReentrySafe s order block)
      (fun _ _ _ => False) := by
  intro s lists blocks w a k p h hheld hP hagain hempty c j r hc hj
  rcases (hheld c j r).mp hc with ⟨rfl, rfl, rfl⟩ | hfalse
  · rcases hP hagain with hle | hne | ⟨x, hx, hfree⟩
    · omega
    · rw [hempty] at hne
      cases hne
    · rw [h.held_start c j r hc, getBuddyAddr_eq] at hx
      exact ⟨x, hx, fun hf => hfree ((h.isFree_iff x).mpr hf)⟩
  · exact hfalse.elim

theorem Settled.reentrant_alloc (hpool : pool.Lawful allocated) (hfuel : pageNum + 2 ≤ fuel)
    (h : Settled R (fun r => allocated r.1) s (live ++ given s.rest) lists blocks) (size : ℕ)
    (hsafe : CallSafe pool again fuel size s) :
    ∃ addr s' lists' blocks',
      buddyAlloc (pool.reentrant again fuel) fuel size s = .ok (addr, s') ∧
      Settled R (fun r => allocated r.1) s'
        ((addr.map (fun a => (a, size2order size))).toList ++ live ++ given s'.rest) lists'
        blocks' := by
  by_cases hsize : size < pageSize ∨ size > buddyBlobSize
  · exact ⟨none, s, lists, blocks, by rw [buddyAlloc, if_pos hsize], h⟩
  have hlow : pageSize ≤ size := by omega
  have hhigh : size ≤ buddyBlobSize := by omega
  rcases buddyAlloc_spec (hpool.reentrant_frees live) (hpool.reentrant_allocs hfuel R live)
      (safeBy_reentry R again) hfuel h.inv h.noHeld (Or.inl h.lock) ⟨h.ptrs, h.lives⟩
      (fun _ => h.noHeld.heldSafe _) hlow hhigh hsafe with
    ⟨a, s', lists', blocks1, hrun, htaken⟩ | ⟨s', lists', blocks', hrun, hnone⟩
  · exact ⟨some a, s', lists', _, hrun, h.taken htaken⟩
  · exact ⟨none, s', lists', blocks', hrun, h.exhausted hnone⟩

theorem Lives.erase_left {l : ℕ → Option ℕ} {others : List (ℕ × ℕ)} {a k : ℕ}
    (h : Lives l (live ++ others)) (ha : (a, k) ∈ live) :
    Lives (update l a none) (live.filter (fun e => e.1 ≠ a) ++ others) := by
  have hothers : others.filter (fun e => e.1 ≠ a) = others := by
    rw [filter_eq_self]
    intro e he
    have hnodup := h.nodup
    rw [map_append, nodup_append] at hnodup
    have hne := hnodup.2.2 a (mem_map.mpr ⟨(a, k), ha, rfl⟩) e.1 (mem_map.mpr ⟨e, he, rfl⟩)
    simp [hne.symm]
  have herase := h.erase a
  rwa [filter_append, hothers] at herase

theorem ReentrantRun.settled (hpool : pool.Lawful allocated) (hbase : buddyBlobSize ∣ R.base)
    (hlimit : buddyBlobSize ∣ R.limit) (hfuel : pageNum + 2 ≤ fuel)
    (h : ReentrantRun pool again R fuel (CallSafe pool again fuel) s live) :
    ∃ lists blocks, Settled R (fun r => allocated r.1) s (live ++ given s.rest) lists blocks := by
  induction h with
  | init hboot hgiven hrun =>
    exact hboot.settled hpool.plain (pool.ignores []) hbase hlimit (by simp [given, hgiven]) hrun
  | alloc _ hsafe hrun ih =>
    obtain ⟨lists, blocks, hset⟩ := ih
    obtain ⟨addr, s1, lists1, blocks1, hrun1, hset1⟩ := hset.reentrant_alloc hpool hfuel _ hsafe
    cases hrun.symm.trans hrun1
    exact ⟨lists1, blocks1, hset1⟩
  | free _ ha hrun ih =>
    obtain ⟨lists, blocks, hset⟩ := ih
    obtain ⟨s1, lists1, blocks1, hrun1, hset1⟩ := hset.free
      (hpool.reentrant_allocs hfuel R _) (fun _ _ => hset.noHeld.heldSafe _)
      (mem_append_left _ ha) (fun _ _ hl => hl.erase_left ha)
    cases hrun.symm.trans hrun1
    exact ⟨lists1, blocks1, hset1⟩

/-- In every run whose re-entries happen in safe states, the free blocks, the blocks of
the outer callers and the blobs of the nested callers partition the region, and the next
call returns if its re-entries are safe. -/
theorem reentry_partition (hpool : pool.Lawful allocated) (hbase : buddyBlobSize ∣ R.base)
    (hlimit : buddyBlobSize ∣ R.limit) (hfuel : pageNum + 2 ≤ fuel)
    (h : ReentrantRun pool again R fuel (CallSafe pool again fuel) s live) :
    (∃ lists, Partition R s (live ++ given s.rest) lists) ∧
      ∀ size, CallSafe pool again fuel size s →
        ∃ addr s', buddyAlloc (pool.reentrant again fuel) fuel size s = .ok (addr, s') := by
  obtain ⟨lists, blocks, hset⟩ := h.settled hpool hbase hlimit hfuel
  refine ⟨⟨lists, hset.partition⟩, ?_⟩
  intro size hsafe
  obtain ⟨addr, s', -, -, hrun, -⟩ := hset.reentrant_alloc hpool hfuel size hsafe
  exact ⟨addr, s', hrun⟩

/-- A request of at least half a blob splits no block smaller than a blob, so all its
re-entries are safe. -/
theorem callSafe_of_order {size : ℕ} (hsize : slabOrder ≤ size2order size + 1) :
    CallSafe pool again fuel size s := by
  have hsplit : ∀ n s, SplitSafe (pool.reentrant again fuel)
      (fun s order block => again s = true → ReentrySafe s order block) (size2order size) n s := by
    intro n
    induction n with
    | zero => exact fun _ => True.intro
    | succ n ih => exact fun s => ⟨fun _ _ _ _ _ => Or.inl (by omega), fun s' _ => ih s'⟩
  exact fun _ s1 _ _ _ => hsplit _ s1

theorem reentry_partition_lastBlob : ∃ s live,
    ReentrantRun Pool.counter (fun _ => true) lastBlob 40000
      (CallSafe Pool.counter (fun _ => true) 40000) s live ∧
    ∃ lists, Partition lastBlob s (live ++ given s.rest) lists := by
  obtain ⟨s, hinit⟩ : ∃ s, ReentrantRun Pool.counter (fun _ => true) lastBlob 40000
      (CallSafe Pool.counter (fun _ => true) 40000) s [] :=
    ⟨_, .init (bootCounter_boot lastBlob) rfl rfl⟩
  have hsafe : CallSafe Pool.counter (fun _ => true) 40000 slabBlobSize s :=
    callSafe_of_order (by decide)
  obtain ⟨addr, s', hrun⟩ := (reentry_partition Pool.counter_lawful (by decide) (by decide)
    (by decide) hinit).2 slabBlobSize hsafe
  have hrun' := ReentrantRun.alloc hinit hsafe hrun
  exact ⟨s', _, hrun', (reentry_partition Pool.counter_lawful (by decide) (by decide)
    (by decide) hrun').1⟩

/-- A re-entry at the metadata allocation that takes the `n`-th `mem_block`. -/
def againAt (n : ℕ) (s : Mm ((ℕ × List ℕ) × List ℕ)) : Bool := s.rest.1.1 == n

/-- A blob is live and the next one is being split, with a re-entry at order `3`. The
nested call merges the block that the split holds with its buddy, and both callers get
the same memory. -/
theorem reentry_overlap : ∃ s live b s',
    ReentrantRun Pool.counter (againAt 10) lastBlob 40000 (fun _ _ => True) s live ∧
    buddyAlloc (Pool.counter.reentrant (againAt 10) 40000) 40000 pageSize s = .ok (some b, s') ∧
    (b, slabOrder) ∈ given s'.rest := by
  have hrun : (buddyInit Pool.counter.metadata lastBlob bootCounter >>= fun r0 =>
      buddyAlloc (Pool.counter.reentrant (againAt 10) 40000) 40000 slabBlobSize r0.2 >>= fun r1 =>
      buddyAlloc (Pool.counter.reentrant (againAt 10) 40000) 40000 pageSize r1.2 >>= fun r2 =>
      Except.ok (r0.1, r2.1, r2.2.rest.2)) = Except.ok (0, some 0x87810000, [0x87810000]) := by
    decide +kernel
  obtain ⟨⟨ret, s0⟩, h0, hrun⟩ := bind_eq_ok.mp hrun
  obtain ⟨⟨addr, s1⟩, h1, hrun⟩ := bind_eq_ok.mp hrun
  obtain ⟨⟨addr', s2⟩, h2, hrun⟩ := bind_eq_ok.mp hrun
  simp only [Except.ok.injEq, Prod.mk.injEq] at hrun
  obtain ⟨rfl, rfl, hgiven⟩ := hrun
  refine ⟨s1, _, _, s2, .alloc (.init (bootCounter_boot lastBlob) rfl h0) True.intro h1, h2, ?_⟩
  simp [given, hgiven]

end Runs

end NoobKernel.Buddy
