import NoobKernel.Verification.Buddy.Merge
import NoobKernel.Verification.Math

/-! # Initialisation

`buddy_init` adds the blobs of the region one at a time. Between two turns of its loop
the invariant holds of the region up to the blob that comes next. -/

namespace NoobKernel.Buddy

open Library Function Outcome

variable {κ : Type} {R : Region} {lists : ℕ → List ℕ} {blocks : Blocks} {w base p i : ℕ} {b : State}
  {md : Metadata κ} {K : κ → Set ℕ → Prop} {s : Mm κ}

/-! ## Empty lists -/

theorem initLists_frame (s : Mm κ) (n : ℕ) :
    (initLists s n).buddy.pages = s.buddy.pages ∧
      (initLists s n).buddy.freePages = s.buddy.freePages ∧
      (initLists s n).buddy.lock = s.buddy.lock ∧ (initLists s n).rest = s.rest := by
  induction n with
  | zero => exact ⟨rfl, rfl, rfl, rfl⟩
  | succ n ih => exact ih

theorem initLists_links (s : Mm κ) (n : ℕ) :
    ∀ k < n, (initLists s n).buddy.links.next (.head k) = .head k ∧
      (initLists s n).buddy.links.prev (.head k) = .head k := by
  induction n with
  | zero =>
    omega
  | succ n ih =>
    intro k hk
    by_cases hkn : k = n
    · subst hkn
      simp [initLists, Links.init]
    · have hne : Node.head k ≠ Node.head n := by simp [hkn]
      have hlt : k < n := by omega
      simpa [initLists, Links.init, hne] using ih k hlt

theorem initLists_rings (s : Mm κ) :
    FreeLists (initLists s (buddyMaxOrder + 1)).buddy.links (fun _ => []) := by
  refine ⟨?_, ?_⟩
  · intro k hk
    obtain ⟨hnext, hprev⟩ := initLists_links s (buddyMaxOrder + 1) k (Nat.lt_succ_of_le hk)
    exact Ring.of_self hnext hprev
  · intro i _ j _ hij n hn
    simp only [List.map_nil, List.mem_singleton] at hn ⊢
    rw [hn]
    simp [hij]

theorem Inv.empty (hbase : buddyBlobSize ∣ base) (hrings : FreeLists b.links (fun _ => []))
    (hpages : ∀ i, (b.pages i).priv = none) (hcount : b.freePages = 0) :
    Inv ⟨base, base⟩ b (fun _ => []) (fun _ => none) 0 := by
  refine ⟨⟨by simp, nofun, nofun, by simp [hpages], nofun⟩, ⟨hbase, hbase, ?_⟩, hrings,
    ⟨nofun, nofun, ?_⟩, ?_⟩
  · intro a hlow hhigh
    exact absurd hhigh (not_lt.mpr hlow)
  · intro x
    simp only [Blocks.size, Option.map_none, reduceCtorEq, false_and, exists_false, iff_false,
      not_and, not_lt]
    exact fun h => h
  · simp [hcount, listedPages]

/-! ## One more blob -/

theorem blob_in_memory (hdvd : buddyBlobSize ∣ p) (hindex : addr2index p = some i) :
    pageAddr i = p ∧ ∀ a, p ≤ a → a < p + buddyBlobSize → pmStart ≤ a ∧ a < pmEnd := by
  unfold addr2index at hindex
  split at hindex
  next hp =>
    obtain ⟨m, rfl⟩ := hdvd
    simp only [Option.some.injEq] at hindex
    subst hindex
    norm_num [pageAddr] at hp ⊢
    refine ⟨by omega, ?_⟩
    omega
  · cases hindex

theorem Region.Valid.grow (h : Region.Valid ⟨base, p⟩) (hindex : addr2index p = some i) :
    Region.Valid ⟨base, p + buddyBlobSize⟩ := by
  refine ⟨h.base_dvd, Nat.dvd_add h.limit_dvd dvd_rfl, ?_⟩
  intro a hlow hhigh
  by_cases hap : a < p
  · exact h.in_memory a hlow hap
  · exact (blob_in_memory h.limit_dvd hindex).2 a (not_lt.mp hap) hhigh

theorem Inv.lt_limit {a k x : ℕ} {st : Status} (h : Inv R b lists blocks w)
    (ha : blocks a = some (k, st)) (hx : InBlock a (exponent k) x) : x < R.limit :=
  ((h.tiling.cover x).mpr ⟨a, _, Blocks.size_eq ha, hx⟩).2

theorem Inv.grow {b' : State} {t : ℕ} (h : Inv ⟨base, p⟩ b lists blocks w) (hle : base ≤ p)
    (hindex : addr2index p = some i) (ht : t ∉ blocks.ptrs)
    (hother : ∀ j, j ≠ i → b'.pages j = b.pages j) (horder : (b'.pages i).order = buddyMaxOrder)
    (hpriv : (b'.pages i).priv = some t) (hstart : b'.start = update b.start t p)
    (hlinks : b'.links = b.links.addTail (.block t) (.head buddyMaxOrder))
    (hcount : b'.freePages = (b.freePages + 2 ^ buddyMaxOrder) % wordSize) :
    Inv ⟨base, p + buddyBlobSize⟩ b'
      (update lists buddyMaxOrder (lists buddyMaxOrder ++ [t]))
      (update blocks p (some (buddyMaxOrder, .free t))) w := by
  have hblob : buddyBlobSize = 2 ^ exponent buddyMaxOrder := by norm_num [exponent]
  obtain ⟨hi, -⟩ := blob_in_memory h.region.limit_dvd hindex
  have hnone : blocks p = none := by
    cases hb : blocks p with
    | none => rfl
    | some v =>
      exact absurd (h.lt_limit hb (inBlock_self _ _)) (lt_irrefl p)
  have hnew : ∀ k ∈ orders, Node.block t ∉ Node.head k :: (lists k).map Node.block := by
    intro k hk hmem
    simp only [List.mem_cons, reduceCtorEq, List.mem_map, Node.block.injEq, exists_eq_right,
      false_or] at hmem
    exact ht (h.mem_ptrs_of_listed hk hmem)
  have hentries : Inv.Entries b' (update lists buddyMaxOrder (lists buddyMaxOrder ++ [t]))
      (update blocks p (some (buddyMaxOrder, .free t))) := by
    subst hi
    refine h.toEntries.set hother hpriv ?_ (Inv.start_update ht hstart) (fun m q _ => ?_)
    · rintro _ _ ⟨⟩
      refine ⟨le_rfl, horder, ?_⟩
      rintro q ⟨⟩
      rw [hstart, update_self]
    · by_cases hm : m = buddyMaxOrder
      · subst hm
        simp [hnone, eq_comm]
      · simp [hm, hnone, Ne.symm hm]
  refine ⟨hentries, h.region.grow hindex, ?_, ?_, ?_⟩
  · unfold FreeLists
    rw [hlinks, map_block_update, List.map_append]
    exact h.rings.addTail (Nat.le_refl buddyMaxOrder) hnew
  · rw [Blocks.size_update, hblob]
    exact h.tiling.grow hle (hblob ▸ h.region.limit_dvd)
  · have hpages := listedPages_update lists (le_refl buddyMaxOrder) (lists buddyMaxOrder ++ [t])
    rw [hcount, h.count]
    norm_num at hpages ⊢
    omega

/-! ## The loop -/

/-- The metadata allocator has `mem_block`s outside those in use, and leaves the buddy
allocator alone. -/
structure Metadata.Supplies (md : Metadata κ) (K : κ → Set ℕ → Prop) : Prop where
  mono : ∀ r A B, K r A → B ⊆ A → K r B
  alloc : ∀ (s : Mm κ) A, K s.rest A →
    ∃ p r, md.alloc s = .ok (some p, { s with rest := r }) ∧ p ∉ A ∧ K r (insert p A)

def AllFree (blocks : Blocks) : Prop := ∀ a k st, blocks a = some (k, st) → ∃ p, st = .free p

/-- The state after the region has been filled with free blobs. -/
structure Filled (K : κ → Set ℕ → Prop) (s : Mm κ) (R : Region) (s' : Mm κ)
    (lists' : ℕ → List ℕ) (blocks' : Blocks) : Prop where
  inv : Inv R s'.buddy lists' blocks' 0
  allFree : AllFree blocks'
  lock : s'.buddy.lock = s.buddy.lock
  keeps : K s'.rest blocks'.ptrs

theorem ptrs_update_new {a k : ℕ} :
    Blocks.ptrs (update blocks a (some (k, .free p))) ⊆ insert p blocks.ptrs := by
  intro r hr
  rcases Blocks.ptrs_update hr with hr | ⟨x, j, st, -, hx, hr⟩
  · exact Or.inl (Option.some.inj hr).symm
  · exact Or.inr ⟨x, j, st, hx, hr⟩

theorem initBlob_spec (hmd : md.Supplies K) (h : Inv ⟨base, p⟩ s.buddy lists blocks 0)
    (hfree : AllFree blocks) (hK : K s.rest blocks.ptrs) (hle : base ≤ p)
    (hindex : addr2index p = some i) :
    ∃ s' lists' blocks', initBlob md p s = .ok (0, s') ∧
      Filled K s ⟨base, p + buddyBlobSize⟩ s' lists' blocks' := by
  obtain ⟨t, r, hrun, ht, hK'⟩ := hmd.alloc s _ hK
  let s' : Mm κ := setLinks (·.addTail (.block t) (.head buddyMaxOrder))
    (setFreePages (· + 1 <<< buddyMaxOrder)
      (setPage i (fun page => { page with order := buddyMaxOrder })
        (setPage i (fun page => { page with priv := some t }) (setStart t p { s with rest := r }))))
  have hinv : Inv ⟨base, p + buddyBlobSize⟩ s'.buddy
      (update lists buddyMaxOrder (lists buddyMaxOrder ++ [t]))
      (update blocks p (some (buddyMaxOrder, .free t))) 0 := by
    refine h.grow hle hindex ht ?_ ?_ ?_ rfl rfl rfl
    · intro j hj
      simp [s', hj]
    · simp [s']
    · simp [s']
  refine ⟨s', _, _, ?_, hinv, ?_, rfl, hmd.mono _ _ _ hK' ptrs_update_new⟩
  · unfold initBlob
    rw [hindex]
    simp only [hrun, ok_bind]
    rfl
  · intro a k st ha
    by_cases hap : a = p
    · subst hap
      simp only [update_self, Option.some.injEq, Prod.mk.injEq] at ha
      exact ⟨t, ha.2.symm⟩
    · rw [update_of_ne hap] at ha
      exact hfree a k st ha

/-- The loop fills the region, or stops at a blob outside physical memory. -/
theorem initBlobs_spec (hmd : md.Supplies K) (n : ℕ) :
    ∀ (p : ℕ) (s : Mm κ) (lists : ℕ → List ℕ) (blocks : Blocks),
      Inv ⟨base, p⟩ s.buddy lists blocks 0 → AllFree blocks → K s.rest blocks.ptrs →
      base ≤ p →
      (∃ s' lists' blocks', initBlobs md n p s = .ok (0, s') ∧
        Filled K s ⟨base, p + n * buddyBlobSize⟩ s' lists' blocks') ∨
      ∃ s', initBlobs md n p s = .ok (-einval, s') := by
  induction n with
  | zero =>
    intro p s lists blocks h hfree hK _
    left
    refine ⟨s, lists, blocks, rfl, ?_, hfree, rfl, hK⟩
    simpa using h
  | succ n ih =>
    intro p s lists blocks h hfree hK hle
    cases hindex : addr2index p with
    | none =>
      right
      simp [initBlobs, initBlob, hindex]
    | some i =>
      obtain ⟨s1, lists1, blocks1, hrun, hfilled⟩ := initBlob_spec hmd h hfree hK hle hindex
      have hlimit : p + buddyBlobSize + n * buddyBlobSize = p + (n + 1) * buddyBlobSize := by
        ring
      rw [initBlobs, hrun]
      rcases ih (p + buddyBlobSize) s1 lists1 blocks1 hfilled.inv hfilled.allFree
          hfilled.keeps (by omega) with ⟨s', lists', blocks', hrun', hfilled'⟩ | hres
      · left
        refine ⟨s', lists', blocks', hrun', hlimit ▸ hfilled'.inv, hfilled'.allFree,
          hfilled'.lock.trans hfilled.lock, hfilled'.keeps⟩
      · exact Or.inr hres

theorem blobs_eq {limit : ℕ} (hbase : buddyBlobSize ∣ base) (hlimit : buddyBlobSize ∣ limit)
    (hle : base ≤ limit) :
    base + (limit - base + (buddyBlobSize - 1)) / buddyBlobSize * buddyBlobSize = limit := by
  obtain ⟨m, rfl⟩ := hbase
  obtain ⟨n, rfl⟩ := hlimit
  norm_num at hle ⊢
  omega

/-- The state in which `buddy_init` is called. -/
structure Boot (R : Region) (s : Mm κ) : Prop where
  pages : ∀ i, R.base ≤ pageAddr i → pageAddr i < R.limit → s.buddy.pages i = buddyPage
  priv : ∀ i, (s.buddy.pages i).priv = none
  freePages : s.buddy.freePages = 0
  lock : s.buddy.lock = .initializer

/-- `buddy_init` fills a region with aligned ends, or returns `-EINVAL`. -/
theorem buddyInit_spec (hmd : md.Supplies K) (hbase : buddyBlobSize ∣ R.base)
    (hlimit : buddyBlobSize ∣ R.limit) (hboot : Boot R s) (hK : K s.rest ∅) :
    (∃ s' lists' blocks', buddyInit md R s = .ok (0, s') ∧ Filled K s R s' lists' blocks') ∨
      ∃ s', buddyInit md R s = .ok (-einval, s') := by
  obtain ⟨hpages, hcount, hlock, hrest⟩ := initLists_frame s (buddyMaxOrder + 1)
  have hempty : Inv ⟨R.base, R.base⟩ (initLists s (buddyMaxOrder + 1)).buddy (fun _ => [])
      (fun _ => none) 0 := by
    refine Inv.empty hbase (initLists_rings s) ?_ (hcount.trans hboot.freePages)
    intro i
    rw [hpages, hboot.priv]
  have hptrs : Blocks.ptrs (fun _ => none) = ∅ := by
    apply Set.eq_empty_of_forall_notMem
    rintro p ⟨a, k, st, ha, -⟩
    cases ha
  have hrun := initBlobs_spec hmd ((R.limit - R.base + (buddyBlobSize - 1)) / buddyBlobSize)
    R.base (initLists s (buddyMaxOrder + 1)) _ _ hempty (fun a k st ha => by cases ha)
    (by rw [hptrs, hrest]; exact hK) le_rfl
  rcases hrun with ⟨s', lists', blocks', hrun, hfilled⟩ | ⟨s', hrun⟩
  · left
    refine ⟨s', lists', blocks', hrun, ?_, hfilled.allFree, hfilled.lock.trans hlock, hfilled.keeps⟩
    have hinv := hfilled.inv
    by_cases hle : R.base ≤ R.limit
    · rw [blobs_eq hbase hlimit hle] at hinv
      exact hinv
    have hzero : (R.limit - R.base + (buddyBlobSize - 1)) / buddyBlobSize = 0 := by
      norm_num
      omega
    rw [hzero, Nat.zero_mul, Nat.add_zero] at hinv
    have hcover : ∀ x, (R.base ≤ x ∧ x < R.limit) ↔ (R.base ≤ x ∧ x < R.base) := fun x => by omega
    refine ⟨hinv.toEntries, ⟨hbase, hlimit, ?_⟩, hinv.rings,
      ⟨hinv.tiling.aligned, hinv.tiling.apart, ?_⟩, hinv.count⟩
    · intro a hlow hhigh
      omega
    · intro x
      rw [hcover x]
      exact hinv.tiling.cover x
  · exact Or.inr ⟨s', hrun⟩

/-! ## Allocation and release

The specifications of `buddy_alloc` and `buddy_free` from any state that satisfies the
invariant, with the blocks of interrupted outer calls held. -/

open Nat Blocks

variable {k size a : ℕ}

/-! ## Orders of sizes -/

theorem size2order_eq (hlow : pageSize ≤ size) (hhigh : size ≤ buddyBlobSize) :
    size2order size + pageShift = clog 2 size ∧ size2order size ≤ buddyMaxOrder := by
  have hpos : 0 < size := lt_of_lt_of_le (by decide) hlow
  have hblob : buddyBlobSize = 2 ^ (pageShift + buddyMaxOrder) := by norm_num
  have hle : clog 2 size ≤ pageShift + buddyMaxOrder :=
    (clog_le_iff_le_pow (by decide)).mpr (hhigh.trans_eq hblob)
  have hge : pageShift ≤ clog 2 size := by
    have := clog_mono_right 2 hlow
    rwa [clog_pow 2 pageShift (by decide)] at this
  have hlt : size < 2 ^ 64 := hhigh.trans_lt (by norm_num)
  unfold size2order
  rw [log2Ceil_eq_clog hpos hlt]
  norm_num at hle hge ⊢
  omega

theorem size_le_size2order (hlow : pageSize ≤ size) (hhigh : size ≤ buddyBlobSize) :
    size ≤ 2 ^ exponent (size2order size) := by
  unfold exponent
  rw [add_comm, (size2order_eq hlow hhigh).1]
  exact le_pow_clog (by decide) size

/-! ## Taking a listed block -/

theorem Inv.setLock (h : Inv R s.buddy lists blocks w) (l : Spinlock) :
    Inv R (Buddy.setLock l s).buddy lists blocks w :=
  ⟨⟨h.free_iff, h.held_start, h.order_le, h.page_priv, h.page_order⟩, h.region, h.rings, h.tiling,
    h.count⟩

/-- The state after the block at `a` has been taken, where `blocks1` are the blocks just
before. -/
structure Taken (R : Region) (J : Keeps κ) (s : Mm κ) (blocks : Blocks) (w k a : ℕ)
    (s' : Mm κ) (lists' : ℕ → List ℕ) (blocks1 : Blocks) : Prop where
  inv : Inv R s'.buddy lists' (update blocks1 a (some (k, .live))) w
  use : Extends blocks blocks1
  free : ∃ p, blocks1 a = some (k, .free p)
  lock : s'.buddy.lock = s.buddy.lock
  keeps : J blocks1.live s'.rest (ptrs (update blocks1 a (some (k, .live))))

theorem buddyAllocInner_spec {md : Metadata κ} {J : Keeps κ} (hmd : md.Frees J)
    (h : Inv R s.buddy lists blocks w) (hk : k ≤ buddyMaxOrder) (hne : lists k ≠ [])
    (hJ : J.At s blocks) :
    ∃ a s' lists', buddyAllocInner md k s = .ok (some a, s') ∧
      Taken R J s blocks w k a s' lists' blocks := by
  obtain ⟨p, ps, hl⟩ := List.exists_cons_of_ne_nil hne
  obtain ⟨i, hi, -, hheld⟩ := splitUnlink_spec h hk hl
  have hfree : blocks (pageAddr i) = some (k, .free p) := by
    rw [hi]
    exact h.free_of_mem hk (by simp [hl])
  have hindex : addr2index (s.buddy.start p) = some i := by
    obtain ⟨j, hj, hindex⟩ := h.index (hi ▸ hfree)
    rw [hindex, pageAddr_injective (hi.trans hj.symm)]
  have horder : (s.buddy.pages i).order = k := h.page_order i k _ hfree
  let s1 : Mm κ := setLinks (·.del (.block p))
    (setPage i (fun page => { page with flags := page.flags &&& ~~~pmSlab })
      (setPage i (fun page => { page with priv := none }) s))
  obtain ⟨r, hrun, hJ2⟩ := hmd.free s1 _ _ p hJ ⟨_, k, _, hfree, rfl⟩
  have hpow : 1 <<< k = 2 ^ k := by rw [shiftLeft_eq, one_mul]
  have hlive : Inv R (setFreePages (· + wordSize - 1 <<< k) { s1 with rest := r }).buddy
      (update lists k ps) (update (unlinked blocks (pageAddr i) k p) (pageAddr i)
        (some (k, .live))) w := by
    refine hheld.release (update_self _ _ _) ?_ ?_ ?_ rfl rfl ?_
    · intro m hm
      simp [s1, hm]
    · simp [s1, horder]
    · simp [s1]
    · simp [s1, hpow]
  rw [unlinked, update_idem] at hlive
  refine ⟨s.buddy.start p, setFreePages (· + wordSize - 1 <<< k) { s1 with rest := r }, _, ?_,
    ⟨hi ▸ hlive, Extends.refl _, ⟨p, hi ▸ hfree⟩, rfl,
      hmd.mono _ _ _ _ hJ2 (h.ptrs_drop (hi ▸ hfree) rfl rfl)⟩⟩
  unfold buddyAllocInner
  rw [h.listFirstEntry_eq hk hl]
  simp only [ok_bind, addr2page_eq hindex, horder, ne_eq, not_true_eq_false, if_false]
  rw [hrun]
  rfl

theorem Taken.of_kept {J : Keeps κ} {s1 s' : Mm κ} {lists1 lists' : ℕ → List ℕ}
    {blocks1 blocks2 : Blocks} (hkept : Kept R J s blocks w s1 lists1 blocks1)
    (htaken : Taken R J s1 blocks1 w k a s' lists' blocks2) :
    Taken R J s blocks w k a s' lists' blocks2 :=
  ⟨htaken.inv, hkept.use.trans htaken.use, htaken.free, htaken.lock.trans hkept.lock, htaken.keeps⟩

/-! ## The search for a block -/

/-- The state in which an allocation gives up: the merge has left no pair of free
buddies below the order, and no block of the order or a larger one is listed. -/
structure Exhausted (R : Region) (J : Keeps κ) (s : Mm κ) (blocks : Blocks) (w k : ℕ)
    (s' : Mm κ) (lists' : ℕ → List ℕ) (blocks' : Blocks) : Prop where
  redivided : Redivided R J s blocks w s' lists' blocks'
  noPair : ∀ j < k, NoPair blocks' j
  empty : ∀ j, k ≤ j → j ≤ buddyMaxOrder → lists' j = []

/-- An allocation takes a block of the order or finds none. -/
abbrev Allocates (R : Region) (J : Keeps κ) (s : Mm κ) (blocks : Blocks) (w k : ℕ)
    (run : Outcome (Option ℕ × Mm κ)) : Prop :=
  (∃ a s' lists' blocks1, run = .ok (some a, s') ∧ Taken R J s blocks w k a s' lists' blocks1) ∨
    ∃ s' lists' blocks', run = .ok (none, s') ∧ Exhausted R J s blocks w k s' lists' blocks'

/-- The metadata allocations of an allocation that reaches `split_blocks`. -/
def AllocSafe (md : Metadata κ) (P : Mm κ → ℕ → ℕ → Prop) (fuel order : ℕ) (s : Mm κ) : Prop :=
  listEmpty s order = true → ∀ s1, mergeBlocks md fuel order s = .ok s1 →
    listEmpty s1 order = true → SplitBlocksSafe md P order s1

section Alloc

variable {md : Metadata κ} {J : Keeps κ} {Safe : Mm κ → Blocks → Prop}
  {P : Mm κ → ℕ → ℕ → Prop} {held : ℕ → ℕ → ℕ → Prop}

theorem setLock_self {l : Spinlock} (h : s.buddy.lock = l) : setLock l s = s := by
  subst h
  rfl

section

variable (hfree : md.Frees J) (halloc : md.Allocs R J Safe) (hP : SafeBy R Safe P held)
  (hfuel : pageNum + 2 ≤ fuel) (h : Inv R s.buddy lists blocks w) (hheld : HeldBy held blocks)
  (hlock : Usable s.buddy.lock) (hJ : J.At s blocks)
  (hsafe : listEmpty s (size2order size) = true → HeldSafe blocks (size2order size))

include hfree halloc hP hfuel h hheld hlock hJ hsafe

theorem buddyAllocNolock_spec (hk : size2order size ≤ buddyMaxOrder)
    (hsplit : AllocSafe md P fuel (size2order size) s) :
    Allocates R J s blocks w (size2order size) (buddyAllocNolock md fuel size s) := by
  unfold buddyAllocNolock
  by_cases hempty : listEmpty s (size2order size) = true
  · obtain ⟨s1, lists1, blocks1, hmerge, hdiv, hpairs⟩ :=
      mergeBlocks_spec hfree hfuel hk h (hsafe hempty) hJ
    simp only [hempty, Bool.not_true, Bool.false_eq_true, if_false, hmerge, ok_bind]
    by_cases hempty1 : listEmpty s1 (size2order size) = true
    · obtain ⟨s2, lists2, blocks2, hsplit2, hkept, hcases⟩ :=
        splitBlocks_spec hfree halloc hP hk hdiv.inv (hheld.of_extends hdiv.use.extends)
          (hdiv.lock ▸ hlock) hdiv.keeps (hsplit hempty s1 hmerge hempty1)
      simp only [hempty1, Bool.not_true, Bool.false_eq_true, if_false, hsplit2, ok_bind]
      rcases hcases with hne | ⟨rfl, rfl, rfl, hnone⟩
      · left
        have hempty2 : listEmpty s2 (size2order size) = false := by
          rw [Bool.eq_false_iff, ne_eq, hkept.inv.listEmpty_iff hk]
          exact hne
        obtain ⟨a, s', lists', hrun, htaken⟩ :=
          buddyAllocInner_spec hfree hkept.inv hk hne hkept.keeps
        refine ⟨a, s', lists', blocks2, ?_, (htaken.of_kept hkept).of_kept hdiv.kept⟩
        simp only [hempty2, Bool.not_false, if_true, hrun]
      · right
        refine ⟨s2, lists2, blocks2, by simp [hempty1], hdiv, hpairs, ?_⟩
        intro j hj hjm
        rcases eq_or_lt_of_le hj with rfl | hj
        · exact (hdiv.inv.listEmpty_iff hk).mp hempty1
        · exact hnone j hj hjm
    · left
      obtain ⟨a, s', lists', hrun, htaken⟩ := buddyAllocInner_spec hfree hdiv.inv hk
        (fun he => hempty1 ((hdiv.inv.listEmpty_iff hk).mpr he)) hdiv.keeps
      refine ⟨a, s', lists', blocks1, ?_, htaken.of_kept hdiv.kept⟩
      simp only [hempty1, Bool.not_false, if_true, hrun]
  · left
    obtain ⟨a, s', lists', hrun, htaken⟩ := buddyAllocInner_spec hfree h hk
      (fun he => hempty ((h.listEmpty_iff hk).mpr he)) hJ
    refine ⟨a, s', lists', blocks, ?_, htaken⟩
    simp only [hempty, Bool.not_false, if_true, hrun]

theorem buddyAlloc_spec (hlow : pageSize ≤ size) (hhigh : size ≤ buddyBlobSize)
    (hsplit : AllocSafe md P fuel (size2order size) (setLock .held s)) :
    Allocates R J s blocks w (size2order size) (buddyAlloc md fuel size s) := by
  have hsize : ¬ (size < pageSize ∨ size > buddyBlobSize) := by omega
  have hspec := buddyAllocNolock_spec hfree halloc hP hfuel (h.setLock .held) hheld
    (Or.inr rfl) hJ hsafe (size2order_eq hlow hhigh).2 hsplit
  rcases hlock with hlock | hlock
  · have hunlock : ∀ {r : Option ℕ} {s1 : Mm κ},
        buddyAllocNolock md fuel size (setLock .held s) = .ok (r, s1) →
        s1.buddy.lock = .held →
        buddyAlloc md fuel size s = .ok (r, setLock .initializer s1) := by
      intro r s1 hrun hlock1
      unfold buddyAlloc
      rw [if_neg hsize, hlock]
      simp only [Spinlock.holding_initializer, Bool.false_eq_true, if_false,
        Spinlock.acquire_initializer, ok_bind, hrun, hlock1, Spinlock.release_held]
    rcases hspec with ⟨a, s1, lists1, blocks1, hrun, htaken⟩ | ⟨s1, lists1, blocks1, hrun, hnone⟩
    · left
      exact ⟨a, setLock .initializer s1, lists1, blocks1, hunlock hrun htaken.lock,
        htaken.inv.setLock _, htaken.use, htaken.free, hlock.symm, htaken.keeps⟩
    right
    have hdiv := hnone.redivided
    exact ⟨setLock .initializer s1, lists1, blocks1, hunlock hrun hdiv.lock,
      ⟨hdiv.inv.setLock _, hdiv.use, hlock.symm, hdiv.keeps⟩, hnone.noPair, hnone.empty⟩
  · rw [setLock_self hlock] at hspec
    have heq : buddyAlloc md fuel size s = buddyAllocNolock md fuel size s := by
      unfold buddyAlloc
      rw [if_neg hsize, hlock]
      simp only [Spinlock.holding_held, if_true]
    rw [heq]
    exact hspec

end

/-! ## Release -/

/-- The state after the live block at `a` has been listed again. -/
structure Returned (R : Region) (J : Keeps κ) (s : Mm κ) (blocks : Blocks) (w k a : ℕ)
    (s' : Mm κ) (lists' : ℕ → List ℕ) (blocks1 : Blocks) (p : ℕ) : Prop where
  inv : Inv R s'.buddy lists' (update blocks1 a (some (k, .free p))) w
  use : Extends blocks blocks1
  lock : s'.buddy.lock = s.buddy.lock
  keeps : J (update blocks1.live a none) s'.rest
    (ptrs (update blocks1 a (some (k, .free p))))

/-- Releasing the start of a live block. What the metadata allocator keeps may change
from `J` to `J'` with the loss of the block. -/
theorem buddyFree_spec (J' : Keeps κ) (halloc : md.Allocs R J Safe)
    (hmono : ∀ l r A B, J' l r A → B ⊆ A → J' l r B) (h : Inv R s.buddy lists blocks w)
    (ha : blocks a = some (k, .live)) (hlock : s.buddy.lock = .initializer)
    (hJ : J.At s blocks) (hsafe : Safe s blocks)
    (hrelease : ∀ l r A, J l r A → J' (update l a none) r A) :
    ∃ p s' lists' blocks1, buddyFree md a s = .ok s' ∧
      Returned R J' s blocks w k a s' lists' blocks1 p := by
  obtain ⟨p, s1, lists1, blocks1, hrun, hgot⟩ := halloc s lists blocks w h (Or.inl hlock) hJ hsafe
  have ha1 : blocks1 a = some (k, .live) := hgot.use.live a k ha
  obtain ⟨i, rfl, hindex⟩ := hgot.inv.index ha1
  have hk := hgot.inv.order_le _ k _ ha1
  have horder : (s1.buddy.pages i).order = k := hgot.inv.page_order i k _ ha1
  let s2 : Mm κ := setPage i (fun page => { page with flags := page.flags &&& ~~~pmSlab })
    (setPage i (fun page => { page with priv := some p }) (setStart p (pageAddr i) s1))
  have hpow : 1 <<< k = 2 ^ k := by rw [shiftLeft_eq, one_mul]
  let s3 : Mm κ := setFreePages (· + 1 <<< k) (setLock .held s2)
  have hclaim : Inv R s3.buddy lists1
      (update blocks1 (pageAddr i) (some (k, .held p))) (w + 2 ^ k) := by
    refine hgot.inv.claim ha1 hgot.fresh ?_ ?_ ?_ rfl rfl ?_
    · intro m hm
      simp [s3, s2, hm]
    · simp [s3, s2, horder]
    · simp [s3, s2]
    · simp only [s3, setFreePages_buddy, hpow]
      rfl
  let s4 : Mm κ := setLinks (·.add (.block p) (.head k)) s3
  have hlinked : Inv R s4.buddy (update lists1 k (p :: lists1 k))
      (update (update blocks1 (pageAddr i) (some (k, .held p))) (pageAddr i)
        (some (k, .free p))) w :=
    hclaim.relink_add (update_self _ _ _)
  rw [update_idem] at hlinked
  refine ⟨p, setLock .initializer s4, _, blocks1, ?_, hlinked.setLock _, hgot.use, hlock.symm,
    hmono _ _ _ _ (hrelease _ _ _ hgot.keeps) ptrs_update_new⟩
  unfold buddyFree
  simp only [hrun, ok_bind, addr2page_eq hindex]
  have hlock2 : s2.buddy.lock = .initializer := hgot.lock.trans hlock
  rw [hlock2, Spinlock.acquire_initializer, ok_bind]
  simp only [setLock_buddy, setPage_buddy, setStart_buddy, setFreePages_buddy, setLinks_buddy,
    update_self, horder, freeList, if_pos hk, ok_bind, Spinlock.release_held]
  rfl

end Alloc

end NoobKernel.Buddy
