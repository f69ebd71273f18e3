import NoobKernel.Library.Dyadic
import NoobKernel.Model.Buddy
import Mathlib.Algebra.Order.BigOperators.Group.Finset
import Mathlib.Algebra.Group.Action.Defs
import Mathlib.Order.Interval.Finset.Nat

/-! # The invariant of the buddy allocator

A ghost map gives the blocks of the region by their start address. A block is free
and listed, or live, or held: taken off its list by a call that has not finished,
while its first page still names its `mem_block`. Every operation is a sequence of
moves between these three states and of the joining and halving of held blocks. -/

namespace NoobKernel.Buddy

open Library Function

/-- What the allocator is doing with a block. A free or held block has a `mem_block`. -/
inductive Status where
  | free (p : ℕ)
  | held (p : ℕ)
  | live
deriving DecidableEq

/-- The `private` pointer of the first page of the block. -/
def Status.priv : Status → Option ℕ
  | free p => some p
  | held p => some p
  | live => none

@[simp] theorem Status.priv_free (p : ℕ) : (Status.free p).priv = some p := rfl
@[simp] theorem Status.priv_held (p : ℕ) : (Status.held p).priv = some p := rfl

/-- The blocks of a region by start address, with their order. -/
abbrev Blocks := ℕ → Option (ℕ × Status)

/-- The exponent of the length of a block of the given order. -/
abbrev exponent (order : ℕ) : ℕ := pageShift + order

def Blocks.size (blocks : Blocks) (a : ℕ) : Option ℕ := (blocks a).map (fun e => exponent e.1)

/-- The `mem_block`s in use. -/
def Blocks.ptrs (blocks : Blocks) : Set ℕ :=
  { p | ∃ a k st, blocks a = some (k, st) ∧ st.priv = some p }

def pageAddr (i : ℕ) : ℕ := pmStart + i * pageSize

def listedPages (lists : ℕ → List ℕ) : ℕ :=
  ∑ k ∈ Finset.range (buddyMaxOrder + 1), (lists k).length * 2 ^ k

abbrev orders : Set ℕ := { k | k ≤ buddyMaxOrder }

/-- The rings through the list heads of a state. -/
abbrev FreeLists (L : Links Node) (lists : ℕ → List ℕ) : Prop :=
  Rings L Node.head orders (fun k => (lists k).map Node.block)

/-- The ends of the region are those of blobs in physical memory. -/
structure Region.Valid (R : Region) : Prop where
  base_dvd : buddyBlobSize ∣ R.base
  limit_dvd : buddyBlobSize ∣ R.limit
  in_memory : ∀ a, R.base ≤ a → a < R.limit → pmStart ≤ a ∧ a < pmEnd

/-- The entries of the map agree with the lists and pages. -/
structure Inv.Entries (b : State) (lists : ℕ → List ℕ) (blocks : Blocks) : Prop where
  free_iff : ∀ a k p, blocks a = some (k, .free p) ↔ k ≤ buddyMaxOrder ∧ p ∈ lists k ∧ b.start p = a
  held_start : ∀ a k p, blocks a = some (k, .held p) → b.start p = a
  order_le : ∀ a k st, blocks a = some (k, st) → k ≤ buddyMaxOrder
  page_priv : ∀ i, (b.pages i).priv = (blocks (pageAddr i)).bind (fun e => e.2.priv)
  page_order : ∀ i k st, blocks (pageAddr i) = some (k, st) → (b.pages i).order = k

/-- Lists, pages and blocks agree. The parameter `w` counts the pages of the held
blocks. -/
structure Inv (R : Region) (b : State) (lists : ℕ → List ℕ) (blocks : Blocks) (w : ℕ) :
    Prop extends Inv.Entries b lists blocks where
  region : R.Valid
  rings : FreeLists b.links lists
  tiling : Tiling R.base R.limit blocks.size
  count : b.freePages = (listedPages lists + w) % wordSize

/-! ## Addresses and pages -/

theorem pageAddr_injective : Injective pageAddr := by
  intro i j h
  simpa [pageAddr] using h

theorem addr2index_pageAddr {i : ℕ} (h : pageAddr i < pmEnd) :
    addr2index (pageAddr i) = some i := by
  unfold addr2index
  have hlow : pmStart ≤ pageAddr i := by simp [pageAddr]
  rw [if_pos ⟨hlow, h⟩]
  simp [pageAddr]

theorem getBuddyAddr_eq (a k : ℕ) : getBuddyAddr a k = buddy a (exponent k) := by
  unfold getBuddyAddr buddy exponent
  rw [Nat.shiftLeft_eq, pow_add]

theorem Blocks.size_eq {blocks : Blocks} {a k : ℕ} {st : Status}
    (h : blocks a = some (k, st)) : blocks.size a = some (exponent k) := by
  simp [Blocks.size, h]

theorem Blocks.size_update (blocks : Blocks) (a : ℕ) (v : Option (ℕ × Status)) :
    Blocks.size (update blocks a v) = update blocks.size a (v.map (fun e => exponent e.1)) := by
  funext x
  by_cases h : x = a
  · subst h
    simp [Blocks.size]
  · simp [Blocks.size, h]

theorem Blocks.exists_of_size {blocks : Blocks} {a e : ℕ} (h : blocks.size a = some e) :
    ∃ k st, blocks a = some (k, st) ∧ e = exponent k := by
  unfold Blocks.size at h
  cases hb : blocks a with
  | none => simp [hb] at h
  | some v =>
    obtain ⟨k, st⟩ := v
    simpa [hb] using h.symm

theorem listedPages_update (lists : ℕ → List ℕ) {k : ℕ} (hk : k ≤ buddyMaxOrder)
    (l : List ℕ) :
    listedPages (update lists k l) + (lists k).length * 2 ^ k =
      listedPages lists + l.length * 2 ^ k := by
  have hmem : k ∈ Finset.range (buddyMaxOrder + 1) := Finset.mem_range.mpr (by omega)
  unfold listedPages
  rw [← Finset.add_sum_erase _ _ hmem, ← Finset.add_sum_erase _ (fun k => _ * _) hmem]
  have hsame : ∑ j ∈ (Finset.range (buddyMaxOrder + 1)).erase k,
      (update lists k l j).length * 2 ^ j =
        ∑ j ∈ (Finset.range (buddyMaxOrder + 1)).erase k, (lists j).length * 2 ^ j := by
    apply Finset.sum_congr rfl
    intro j hj
    rw [update_of_ne (Finset.ne_of_mem_erase hj)]
  rw [hsame, update_self]
  omega

theorem map_block_update (lists : ℕ → List ℕ) (k : ℕ) (l : List ℕ) :
    (fun j => (update lists k l j).map Node.block) =
      update (fun j => (lists j).map Node.block) k (l.map Node.block) := by
  funext j
  by_cases h : j = k
  · subst h
    simp
  · simp [h]

/-! ## Moves between the states of a block

Each lemma moves one or two blocks and says how the pages, the links and the counter
of a state must change with them. -/

open List Blocks

theorem Region.Valid.index {R : Region} {a : ℕ} (h : R.Valid) (hlow : R.base ≤ a)
    (hhigh : a < R.limit) (hdvd : pageSize ∣ a) :
    ∃ i, pageAddr i = a ∧ addr2index a = some i := by
  obtain ⟨h1, h2⟩ := h.in_memory a hlow hhigh
  obtain ⟨m, rfl⟩ := hdvd
  have heq : pageAddr (m - pmStart / pageSize) = pageSize * m := by
    norm_num [pageAddr] at h1 ⊢
    omega
  refine ⟨m - pmStart / pageSize, heq, ?_⟩
  rw [← heq]
  exact addr2index_pageAddr (by rwa [heq])

theorem Region.Valid.buddy_mem {R : Region} {a k : ℕ} (h : R.Valid) (hlow : R.base ≤ a)
    (hhigh : a < R.limit) (hk : k < buddyMaxOrder) (hdvd : 2 ^ exponent k ∣ a) :
    R.base ≤ buddy a (exponent k) ∧ buddy a (exponent k) < R.limit := by
  obtain ⟨m, hm⟩ := h.base_dvd
  obtain ⟨n, hn⟩ := h.limit_dvd
  have hblock : ∃ d, 2 ^ (exponent k + 1) ∣ d ∧ InBlock d (exponent k + 1) a ∧
      InBlock d (exponent k + 1) (buddy a (exponent k)) := by
    rcases lower_or_upper hdvd with ⟨hd, hb⟩ | ⟨hd, hb⟩
    · refine ⟨a, hd, inBlock_self _ _, ?_⟩
      rw [hb]
      exact inBlock_halves.mpr (Or.inr (inBlock_self _ _))
    · refine ⟨buddy a (exponent k), hd, ?_, inBlock_self _ _⟩
      rw [inBlock_halves, hb]
      exact Or.inr (inBlock_self _ _)
  obtain ⟨d, hd, hda, hdb⟩ := hblock
  have hc : InBlock (2 ^ exponent buddyMaxOrder * (a / 2 ^ exponent buddyMaxOrder))
      (exponent buddyMaxOrder) a :=
    ⟨Nat.mul_div_le _ _, by
      have := Nat.lt_mul_div_succ a (Nat.two_pow_pos (exponent buddyMaxOrder))
      rwa [Nat.mul_add, Nat.mul_one] at this⟩
  obtain ⟨hb1, hb2⟩ := InBlock.mono hd (dvd_mul_right _ _)
    (show exponent k + 1 ≤ exponent buddyMaxOrder by unfold exponent; omega) hda hc hdb
  norm_num at hm hn hb1 hb2
  omega

theorem Blocks.size_restatus {blocks : Blocks} {a k : ℕ} {st : Status}
    (ha : blocks a = some (k, st)) (st' : Status) :
    Blocks.size (update blocks a (some (k, st'))) = blocks.size := by
  rw [size_update]
  simp [Blocks.size, ha]

theorem Blocks.ptrs_update {blocks : Blocks} {a r : ℕ} {v : Option (ℕ × Status)}
    (h : r ∈ ptrs (update blocks a v)) : v.bind (fun e => e.2.priv) = some r ∨
      ∃ x k st, x ≠ a ∧ blocks x = some (k, st) ∧ st.priv = some r := by
  obtain ⟨x, k, st, hx, hr⟩ := h
  by_cases hxa : x = a
  · subst hxa
    rw [update_self] at hx
    exact Or.inl (hx ▸ hr)
  · rw [update_of_ne hxa] at hx
    exact Or.inr ⟨x, k, st, hxa, hx, hr⟩

theorem Blocks.ptrs_restatus {blocks : Blocks} {a k j : ℕ} {st st' : Status}
    (ha : blocks a = some (k, st)) (hpriv : st'.priv = st.priv) :
    ptrs (update blocks a (some (j, st'))) ⊆ blocks.ptrs := by
  intro r hr
  rcases ptrs_update hr with hr | ⟨x, m, st, -, hx, hr⟩
  · exact ⟨a, k, st, ha, hpriv.symm.trans hr⟩
  · exact ⟨x, m, st, hx, hr⟩

namespace Inv

variable {R : Region} {b b' : State} {lists lists' : ℕ → List ℕ} {blocks : Blocks}
  {w w' : ℕ} {a k p q i j : ℕ} {st : Status}

/-! ## What the invariant says of one block -/

theorem pageAddr_inBlock {y : ℕ} (hi : pageAddr i = a)
    (hy : y ∈ Finset.Ico i (i + 2 ^ k)) : InBlock a (exponent k) (pageAddr y) := by
  rw [Finset.mem_Ico] at hy
  have hexp : 2 ^ exponent k = 2 ^ k * pageSize := by
    rw [pow_add, Nat.mul_comm]
  have hy2 : y * pageSize < (i + 2 ^ k) * pageSize := Nat.mul_lt_mul_of_pos_right hy.2 (by decide)
  have hy1 : i * pageSize ≤ y * pageSize := Nat.mul_le_mul_right _ hy.1
  rw [Nat.add_mul, ← hexp] at hy2
  subst hi
  unfold InBlock pageAddr
  omega

section

variable (h : Inv R b lists blocks w)

include h

theorem start_eq (ha : blocks a = some (k, st)) (hp : st.priv = some p) : b.start p = a := by
  cases st with
  | free q =>
    simp only [Status.priv_free, Option.some.injEq] at hp
    subst hp
    exact ((h.free_iff a k q).mp ha).2.2
  | held q =>
    simp only [Status.priv_held, Option.some.injEq] at hp
    subst hp
    exact h.held_start a k q ha
  | live => cases hp

theorem ptrs_drop (ha : blocks a = some (k, st)) (hp : st.priv = some p)
    {v : Option (ℕ × Status)} (hv : v.bind (fun e => e.2.priv) = none) :
    ptrs (update blocks a v) ⊆ blocks.ptrs \ {p} := by
  intro r hr
  rcases ptrs_update hr with hr | ⟨x, m, st, hxa, hx, hr⟩
  · cases hv.symm.trans hr
  · refine ⟨⟨x, m, st, hx, hr⟩, ?_⟩
    rintro rfl
    exact hxa ((h.start_eq hx hr).symm.trans (h.start_eq ha hp))

theorem free_of_mem (hk : k ≤ buddyMaxOrder) (hp : p ∈ lists k) :
    blocks (b.start p) = some (k, .free p) :=
  (h.free_iff _ k p).mpr ⟨hk, hp, rfl⟩

theorem mem_of_free (ha : blocks a = some (k, .free p)) : p ∈ lists k :=
  ((h.free_iff a k p).mp ha).2.1

section

variable (ha : blocks a = some (k, st))

include ha

theorem dvd : 2 ^ exponent k ∣ a := h.tiling.aligned a _ (size_eq ha)

theorem mem_region : R.base ≤ a ∧ a < R.limit := h.tiling.start_mem (size_eq ha)

theorem index : ∃ i, pageAddr i = a ∧ addr2index a = some i := by
  obtain ⟨hlow, hhigh⟩ := h.mem_region ha
  exact h.region.index hlow hhigh ((pow_dvd_pow 2 (Nat.le_add_right _ _)).trans (h.dvd ha))

theorem buddy_index (hk : k < buddyMaxOrder) :
    ∃ i, pageAddr i = buddy a (exponent k) ∧ addr2index (buddy a (exponent k)) = some i := by
  obtain ⟨hlow, hhigh⟩ := h.mem_region ha
  obtain ⟨hlow', hhigh'⟩ := h.region.buddy_mem hlow hhigh hk (h.dvd ha)
  exact h.region.index hlow' hhigh'
    ((pow_dvd_pow 2 (Nat.le_add_right _ _)).trans (buddy_dvd (h.dvd ha)))

theorem listed_start_ne (hst : ∀ q, st ≠ .free q) (hj : j ≤ buddyMaxOrder) (hp : p ∈ lists j) :
    b.start p ≠ a := by
  intro he
  have hfree := h.free_of_mem hj hp
  rw [he, ha] at hfree
  simp only [Option.some.injEq, Prod.mk.injEq] at hfree
  exact hst p hfree.2

end

theorem nodup (hk : k ≤ buddyMaxOrder) : (lists k).Nodup := (h.rings.ring k hk).nodup_tail.of_map _

theorem mem_ptrs_of_listed (hk : k ≤ buddyMaxOrder) (hp : p ∈ lists k) : p ∈ blocks.ptrs :=
  ⟨_, k, .free p, h.free_of_mem hk hp, rfl⟩

theorem listedPages_le : listedPages lists ≤ pageNum := by
  let idx : ℕ → ℕ := fun p => (b.start p - pmStart) / pageSize
  let F : Finset (Σ _ : ℕ, ℕ) :=
    (Finset.range (buddyMaxOrder + 1)).sigma (fun k => (lists k).toFinset)
  have hF : ∀ x ∈ F, blocks (b.start x.2) = some (x.1, .free x.2) ∧
      pageAddr (idx x.2) = b.start x.2 := by
    intro x hx
    simp only [F, Finset.mem_sigma, Finset.mem_range, mem_toFinset] at hx
    have hfree := h.free_of_mem (Nat.lt_succ_iff.mp hx.1) hx.2
    obtain ⟨i, hi, -⟩ := h.index hfree
    refine ⟨hfree, ?_⟩
    have hidx : idx x.2 = i := by
      simp only [idx, ← hi, pageAddr]
      norm_num
    rw [hidx, hi]
  have hdisj : (F : Set (Σ _ : ℕ, ℕ)).PairwiseDisjoint
      (fun x => Finset.Ico (idx x.2) (idx x.2 + 2 ^ x.1)) := by
    intro x hx y hy hxy
    apply Finset.disjoint_left.mpr
    intro m hmx hmy
    obtain ⟨hx1, hx2⟩ := hF x hx
    obtain ⟨hy1, hy2⟩ := hF y hy
    have hstart := h.tiling.apart _ _ _ _ _ (size_eq hx1) (size_eq hy1)
      (pageAddr_inBlock hx2 hmx) (pageAddr_inBlock hy2 hmy)
    rw [hstart, hy1] at hx1
    simp only [Option.some.injEq, Prod.mk.injEq, Status.free.injEq] at hx1
    exact hxy (Sigma.ext hx1.1.symm (heq_of_eq hx1.2.symm))
  have hsum : listedPages lists = ∑ x ∈ F, (Finset.Ico (idx x.2) (idx x.2 + 2 ^ x.1)).card := by
    simp only [F, Finset.sum_sigma, Nat.card_Ico, Nat.add_sub_cancel_left, Finset.sum_const,
      smul_eq_mul]
    apply Finset.sum_congr rfl
    intro k hk
    rw [toFinset_card_of_nodup (h.nodup (Nat.lt_succ_iff.mp (Finset.mem_range.mp hk)))]
  rw [hsum, ← Finset.card_biUnion hdisj]
  have hsub : F.biUnion (fun x => Finset.Ico (idx x.2) (idx x.2 + 2 ^ x.1)) ⊆
      Finset.range pageNum := by
    intro m hm
    obtain ⟨x, hx, hm⟩ := Finset.mem_biUnion.mp hm
    obtain ⟨hx1, hx2⟩ := hF x hx
    obtain ⟨hlow, hhigh⟩ := (h.tiling.cover (pageAddr m)).mpr
      ⟨_, _, size_eq hx1, pageAddr_inBlock hx2 hm⟩
    have hend := (h.region.in_memory _ hlow hhigh).2
    norm_num [pageAddr] at hend ⊢
    omega
  calc (F.biUnion fun x => Finset.Ico (idx x.2) (idx x.2 + 2 ^ x.1)).card
      ≤ (Finset.range pageNum).card := Finset.card_le_card hsub
    _ = pageNum := Finset.card_range _

theorem length_le (hk : k ≤ buddyMaxOrder) : (lists k).length ≤ pageNum := by
  have hmem : k ∈ Finset.range (buddyMaxOrder + 1) := Finset.mem_range.mpr (Nat.lt_succ_of_le hk)
  calc (lists k).length
      ≤ (lists k).length * 2 ^ k := Nat.le_mul_of_pos_right _ (Nat.two_pow_pos k)
    _ ≤ listedPages lists :=
        Finset.single_le_sum (f := fun k => (lists k).length * 2 ^ k)
          (fun _ _ => Nat.zero_le _) hmem
    _ ≤ pageNum := h.listedPages_le

end

/-! ## Changing one block -/

/-- One entry changes, with its page and its place in the lists. -/
theorem Entries.set (h : Entries b lists blocks) {v : Option (ℕ × Status)}
    (hother : ∀ j, j ≠ i → b'.pages j = b.pages j)
    (hpriv : (b'.pages i).priv = v.bind (fun e => e.2.priv))
    (hv : ∀ k st, v = some (k, st) → k ≤ buddyMaxOrder ∧ (b'.pages i).order = k ∧
      ∀ p, st.priv = some p → b'.start p = pageAddr i)
    (hstart : ∀ p ∈ blocks.ptrs, b'.start p = b.start p)
    (hmem : ∀ m p, m ≤ buddyMaxOrder → (p ∈ lists' m ↔
      p ∈ lists m ∧ blocks (pageAddr i) ≠ some (m, .free p) ∨ v = some (m, .free p))) :
    Entries b' lists' (update blocks (pageAddr i) v) := by
  have hlisted : ∀ m p, m ≤ buddyMaxOrder → p ∈ lists m →
      blocks (b.start p) = some (m, .free p) ∧ b'.start p = b.start p := by
    intro m p hm hp
    have hfree := (h.free_iff _ m p).mpr ⟨hm, hp, rfl⟩
    exact ⟨hfree, hstart p ⟨_, m, .free p, hfree, rfl⟩⟩
  refine ⟨?_, ?_, ?_, ?_, ?_⟩
  · intro x m p
    by_cases hx : x = pageAddr i
    · subst hx
      rw [update_self]
      constructor
      · intro hvm
        obtain ⟨hm, -, hp⟩ := hv m _ hvm
        exact ⟨hm, (hmem m p hm).mpr (Or.inr hvm), hp p rfl⟩
      · rintro ⟨hm, hp, hs⟩
        rcases (hmem m p hm).mp hp with ⟨hp, hne⟩ | hvm
        · obtain ⟨hfree, hsame⟩ := hlisted m p hm hp
          rw [← hsame, hs] at hfree
          exact absurd hfree hne
        · exact hvm
    · rw [update_of_ne hx]
      constructor
      · intro hfree
        obtain ⟨hm, hp, hs⟩ := (h.free_iff x m p).mp hfree
        refine ⟨hm, (hmem m p hm).mpr (Or.inl ⟨hp, fun heq => hx ?_⟩),
          (hlisted m p hm hp).2.trans hs⟩
        exact hs.symm.trans ((h.free_iff _ m p).mp heq).2.2
      · rintro ⟨hm, hp, hs⟩
        rcases (hmem m p hm).mp hp with ⟨hp, -⟩ | hvm
        · obtain ⟨hfree, hsame⟩ := hlisted m p hm hp
          rwa [← hsame, hs] at hfree
        · exact absurd (hs.symm.trans ((hv m _ hvm).2.2 p rfl)) hx
  · intro x m p hx
    rw [update_apply] at hx
    split at hx
    next hxi => exact ((hv m _ hx).2.2 p rfl).trans hxi.symm
    · exact (hstart p ⟨x, m, .held p, hx, rfl⟩).trans (h.held_start x m p hx)
  · intro x m st hx
    rw [update_apply] at hx
    split at hx
    · exact (hv m st hx).1
    · exact h.order_le x m st hx
  · intro j
    by_cases hj : j = i
    · subst hj
      rw [update_self, hpriv]
    · rw [update_of_ne (pageAddr_injective.ne hj), hother j hj]
      exact h.page_priv j
  · intro j m st hx
    by_cases hj : j = i
    · subst hj
      rw [update_self] at hx
      exact (hv m st hx).2.1
    · rw [update_of_ne (pageAddr_injective.ne hj)] at hx
      rw [hother j hj]
      exact h.page_order j m st hx

theorem restatus (h : Inv R b lists blocks w) (ha : blocks (pageAddr i) = some (k, st))
    (st' : Status) (hother : ∀ j, j ≠ i → b'.pages j = b.pages j)
    (horder : (b'.pages i).order = k) (hpriv : (b'.pages i).priv = st'.priv)
    (hstart : ∀ p ∈ blocks.ptrs, b'.start p = b.start p)
    (hplace : ∀ p, st'.priv = some p → b'.start p = pageAddr i) (hrings : FreeLists b'.links lists')
    (hmem : ∀ m p, p ∈ lists' m ↔ p ∈ lists m ∧ ¬ (m = k ∧ st = .free p) ∨ m = k ∧ st' = .free p)
    (hcount : b'.freePages = (listedPages lists' + w') % wordSize) :
    Inv R b' lists' (update blocks (pageAddr i) (some (k, st'))) w' := by
  refine ⟨h.toEntries.set hother hpriv ?_ hstart (fun m p _ => ?_), h.region, hrings, ?_, hcount⟩
  · rintro _ _ ⟨⟩
    exact ⟨h.order_le _ k st ha, horder, hplace⟩
  · simp only [hmem, ha, ne_eq, Option.some.injEq, Prod.mk.injEq, @eq_comm _ m]
  · rw [size_restatus ha]
    exact h.tiling

theorem unlink (h : Inv R b lists blocks w) (hk : k ≤ buddyMaxOrder) {xs ys : List ℕ}
    (hl : lists k = xs ++ p :: ys) (hi : pageAddr i = b.start p) :
    Inv R { b with links := b.links.del (.block p) } (update lists k (xs ++ ys))
      (update blocks (pageAddr i) (some (k, .held p))) (w + 2 ^ k) := by
  have hp : p ∈ lists k := by simp [hl]
  have ha : blocks (pageAddr i) = some (k, .free p) := hi ▸ h.free_of_mem hk hp
  have hnot : p ∉ xs ++ ys := by
    have hnodup := h.nodup hk
    rw [hl, nodup_middle] at hnodup
    exact (nodup_cons.mp hnodup).1
  refine h.restatus ha (.held p) (fun _ _ => rfl) (h.page_order i k _ ha) ?_ (fun _ _ => rfl) ?_
    ?_ ?_ ?_
  · rw [h.page_priv i, ha]
    rfl
  · rintro q ⟨⟩
    exact hi.symm
  · unfold FreeLists
    rw [map_block_update, map_append]
    exact h.rings.del hk (by simp [hl])
  · intro m q
    by_cases hm : m = k
    · subst hm
      have hmem : q ∈ lists m ↔ q ∈ xs ++ ys ∨ q = p := by
        simp only [hl, mem_append, mem_cons]
        tauto
      rw [update_self, hmem]
      simp only [Status.free.injEq, true_and, reduceCtorEq, and_false, or_false]
      refine ⟨fun hq => ⟨Or.inl hq, fun heq => hnot (heq ▸ hq)⟩, fun hq => ?_⟩
      exact hq.1.resolve_right (fun heq => hq.2 heq.symm)
    · simp [hm]
  · have hpages' := listedPages_update lists hk (xs ++ ys)
    rw [hl] at hpages'
    simp only [length_append, length_cons] at hpages' ⊢
    rw [h.count]
    congr 1
    have hring : (xs.length + (ys.length + 1)) * 2 ^ k =
        (xs.length + ys.length) * 2 ^ k + 2 ^ k := by ring
    omega

theorem relink (h : Inv R b lists blocks (w + 2 ^ k))
    (ha : blocks (pageAddr i) = some (k, .held p)) {l : List ℕ} {L : Links Node}
    (hl : l.Perm (p :: lists k)) (hrings : FreeLists L (update lists k l)) :
    Inv R { b with links := L } (update lists k l)
      (update blocks (pageAddr i) (some (k, .free p))) w := by
  have hk := h.order_le _ k _ ha
  refine h.restatus ha (.free p) (fun _ _ => rfl) (h.page_order i k _ ha) ?_ (fun _ _ => rfl) ?_
    hrings ?_ ?_
  · rw [h.page_priv i, ha]
    rfl
  · rintro q ⟨⟩
    exact h.held_start _ k p ha
  · intro m q
    by_cases hm : m = k
    · subst hm
      rw [update_self, hl.mem_iff, mem_cons]
      simp [or_comm, eq_comm]
    · simp [hm]
  · have hpages' := listedPages_update lists hk l
    rw [hl.length_eq, length_cons, Nat.add_mul] at hpages'
    rw [h.count]
    congr 1
    omega

theorem held_notMem (h : Inv R b lists blocks w) (ha : blocks a = some (k, .held p)) :
    ∀ m ∈ orders, Node.block p ∉ Node.head m :: (lists m).map Node.block := by
  intro m hm hp
  simp only [mem_cons, reduceCtorEq, mem_map, Node.block.injEq, exists_eq_right, false_or] at hp
  exact h.listed_start_ne ha (by simp) hm hp (h.held_start a k p ha)

section

variable (h : Inv R b lists blocks (w + 2 ^ k)) (ha : blocks (pageAddr i) = some (k, .held p))

include h ha

theorem relink_add :
    Inv R { b with links := b.links.add (.block p) (.head k) } (update lists k (p :: lists k))
      (update blocks (pageAddr i) (some (k, .free p))) w := by
  refine h.relink ha (List.Perm.refl _) ?_
  unfold FreeLists
  rw [map_block_update]
  exact h.rings.add (h.order_le _ k _ ha) (h.held_notMem ha)

theorem relink_addTail :
    Inv R { b with links := b.links.addTail (.block p) (.head k) }
      (update lists k (lists k ++ [p])) (update blocks (pageAddr i) (some (k, .free p))) w := by
  refine h.relink ha (perm_append_singleton _ _) ?_
  unfold FreeLists
  rw [map_block_update, map_append]
  exact h.rings.addTail (h.order_le _ k _ ha) (h.held_notMem ha)

theorem release (hother : ∀ j, j ≠ i → b'.pages j = b.pages j) (horder : (b'.pages i).order = k)
    (hpriv : (b'.pages i).priv = none) (hstart : b'.start = b.start) (hlinks : b'.links = b.links)
    (hcount : b'.freePages = (b.freePages + wordSize - 2 ^ k) % wordSize) :
    Inv R b' lists (update blocks (pageAddr i) (some (k, .live))) w := by
  refine h.restatus ha .live hother horder hpriv (fun q _ => by rw [hstart])
    (fun q hq => by cases hq)
    (hlinks ▸ h.rings) (by simp) ?_
  have hk : 2 ^ k ≤ 2 ^ buddyMaxOrder := Nat.pow_le_pow_right (by decide) (h.order_le _ k _ ha)
  rw [hcount, h.count]
  norm_num at hk ⊢
  omega

end

theorem start_update (hq : q ∉ blocks.ptrs) (hstart : b'.start = update b.start q a) :
    ∀ p ∈ blocks.ptrs, b'.start p = b.start p := by
  intro p hp
  rw [hstart, update_of_ne]
  rintro rfl
  exact hq hp

theorem claim (h : Inv R b lists blocks w) (ha : blocks (pageAddr i) = some (k, .live))
    (hq : q ∉ blocks.ptrs)
    (hother : ∀ j, j ≠ i → b'.pages j = b.pages j) (horder : (b'.pages i).order = k)
    (hpriv : (b'.pages i).priv = some q)
    (hstart : b'.start = update b.start q (pageAddr i)) (hlinks : b'.links = b.links)
    (hcount : b'.freePages = (b.freePages + 2 ^ k) % wordSize) :
    Inv R b' lists (update blocks (pageAddr i) (some (k, .held q))) (w + 2 ^ k) := by
  refine h.restatus ha (.held q) hother horder hpriv (start_update hq hstart) ?_
    (hlinks ▸ h.rings) (by simp) ?_
  · rintro p ⟨⟩
    rw [hstart, update_self]
  · rw [hcount, h.count]
    norm_num
    omega

/-! ## Joining and halving -/

section

variable (h : Inv R b lists blocks w) (hij : pageAddr j = pageAddr i + 2 ^ exponent k)
  (hother : ∀ m, m ≠ i → m ≠ j → b'.pages m = b.pages m) (hpriv : (b'.pages i).priv = some p)
  (hlinks : b'.links = b.links) (hcount : b'.freePages = b.freePages)

include h hij hother hpriv hlinks hcount

/-- Two held buddies become one held block, under the `mem_block` of the lower one. -/
theorem join (ha : blocks (pageAddr i) = some (k, .held p))
    (hb : blocks (pageAddr j) = some (k, .held q)) (hk : k < buddyMaxOrder)
    (hdvd : 2 ^ (exponent k + 1) ∣ pageAddr i) (horder : (b'.pages i).order = k + 1)
    (hgone : (b'.pages j).priv = none) (hstart : b'.start = b.start) :
    Inv R b' lists (update (update blocks (pageAddr j) none) (pageAddr i)
      (some (k + 1, .held p))) w := by
  have hne : i ≠ j := by
    rintro rfl
    omega
  -- the upper block goes first, then the lower one grows
  have hupper : Entries { b with pages := update b.pages j (b'.pages j) } lists
      (update blocks (pageAddr j) none) := by
    refine h.toEntries.set (fun m hm => update_of_ne hm _ _) ?_ (by simp) (fun _ _ => rfl)
      (by simp [hb])
    simp [hgone]
  have hlower : Entries b' lists (update (update blocks (pageAddr j) none)
      (pageAddr i) (some (k + 1, .held p))) := by
    refine hupper.set (fun m hm => ?_) hpriv ?_ (fun _ _ => by rw [hstart]) ?_
    · by_cases hmj : m = j
      · simp [hmj]
      · simp [hmj, hother m hm hmj]
    · rintro _ _ ⟨⟩
      refine ⟨hk, horder, ?_⟩
      rintro q ⟨⟩
      rw [hstart]
      exact h.held_start _ k p ha
    · simp [update_of_ne (pageAddr_injective.ne hne), ha]
  refine ⟨hlower, h.region, hlinks ▸ h.rings, ?_, hcount ▸ h.count⟩
  rw [size_update, size_update, hij]
  exact h.tiling.merge hdvd (size_eq ha) (hij ▸ size_eq hb)

/-- A held block becomes two held buddies, the upper one under a fresh `mem_block`. -/
theorem halve (ha : blocks (pageAddr i) = some (k + 1, .held p)) (hq : q ∉ blocks.ptrs)
    (horder : (b'.pages i).order = k) (horder' : (b'.pages j).order = k)
    (hpriv' : (b'.pages j).priv = some q) (hstart : b'.start = update b.start q (pageAddr j)) :
    Inv R b' lists (update (update blocks (pageAddr i) (some (k, .held p)))
      (pageAddr j) (some (k, .held q))) w := by
  have hne : pageAddr j ≠ pageAddr i := by
    have := Nat.two_pow_pos (exponent k)
    omega
  have hnone : blocks (pageAddr j) = none := by
    have hin : InBlock (pageAddr i) (exponent (k + 1)) (pageAddr j) :=
      inBlock_halves.mpr (Or.inr (hij ▸ inBlock_self _ _))
    have hs := h.tiling.inside_none (size_eq ha) hin hne
    simpa [Blocks.size] using hs
  have hk := h.order_le _ _ _ ha
  -- the lower half stays, then the upper one is new
  have hlower : Entries { b with pages := update b.pages i (b'.pages i) } lists
      (update blocks (pageAddr i) (some (k, .held p))) := by
    refine h.toEntries.set (fun m hm => update_of_ne hm _ _) ?_ ?_ (fun _ _ => rfl) (by simp [ha])
    · simp [hpriv]
    · rintro _ _ ⟨⟩
      refine ⟨by omega, by simpa using horder, ?_⟩
      rintro r ⟨⟩
      exact h.held_start _ _ p ha
  have hupper : Entries b' lists (update (update blocks (pageAddr i)
      (some (k, .held p))) (pageAddr j) (some (k, .held q))) := by
    refine hlower.set (fun m hm => ?_) hpriv' ?_
      (start_update (fun hmem => hq (ptrs_restatus ha rfl hmem)) hstart) ?_
    · by_cases hmi : m = i
      · simp [hmi]
      · simp [hmi, hother m hmi hm]
    · rintro _ _ ⟨⟩
      refine ⟨by omega, horder', ?_⟩
      rintro r ⟨⟩
      rw [hstart, update_self]
    · simp [update_of_ne hne, hnone]
  refine ⟨hupper, h.region, hlinks ▸ h.rings, ?_, hcount ▸ h.count⟩
  rw [size_update, size_update, hij]
  exact h.tiling.split (size_eq ha)

end

end Inv

/-! ## What the allocator asks of its metadata

The metadata allocator keeps a predicate of its own on the live blocks, its state and
the `mem_block`s in use. Releasing a `mem_block` leaves the
buddy allocator alone. Allocating one may use the buddy allocator again. -/

/-! ## How the use of memory may change -/

def FreeAt (blocks : Blocks) (x : ℕ) : Prop :=
  ∃ a k p, blocks a = some (k, .free p) ∧ InBlock a (exponent k) x

/-- The orders of the live blocks by start address. -/
def Blocks.live (blocks : Blocks) (a : ℕ) : Option ℕ :=
  match blocks a with
  | some (k, .live) => some k
  | _ => none

theorem Blocks.live_update (blocks : Blocks) (a : ℕ) (v : Option (ℕ × Status)) :
    live (update blocks a v) = update blocks.live a (live (fun _ => v) a) := by
  funext x
  by_cases hx : x = a
  · subst hx
    simp [live]
  · simp [live, hx]

theorem Blocks.live_eq_some {blocks : Blocks} {a k : ℕ} :
    blocks.live a = some k ↔ blocks a = some (k, .live) := by
  unfold Blocks.live
  constructor
  · intro h
    split at h
    next j hb =>
      rw [hb]
      simpa using h
    · cases h
  · intro h
    rw [h]

/-- No two free buddies of the order. -/
def NoPair (blocks : Blocks) (k : ℕ) : Prop :=
  ∀ a p q, blocks a = some (k, .free p) → blocks (buddy a (exponent k)) ≠ some (k, .free q)

/-- The same memory is free, divided in some other way, and the rest is untouched. -/
structure SameUse (blocks blocks' : Blocks) : Prop where
  free : ∀ x, FreeAt blocks' x ↔ FreeAt blocks x
  held : ∀ a k p, blocks' a = some (k, .held p) ↔ blocks a = some (k, .held p)
  live : blocks'.live = blocks.live

/-- Free memory may have been given away. -/
structure Extends (blocks blocks' : Blocks) : Prop where
  held : ∀ a k p, blocks' a = some (k, .held p) ↔ blocks a = some (k, .held p)
  live : ∀ a k, blocks a = some (k, .live) → blocks' a = some (k, .live)

section Use

variable {blocks blocks' blocks'' : Blocks}

theorem SameUse.refl (blocks : Blocks) : SameUse blocks blocks :=
  ⟨fun _ => Iff.rfl, fun _ _ _ => Iff.rfl, rfl⟩

theorem SameUse.trans (h : SameUse blocks blocks') (h' : SameUse blocks' blocks'') :
    SameUse blocks blocks'' :=
  ⟨fun x => (h'.free x).trans (h.free x), fun a k p => (h'.held a k p).trans (h.held a k p),
    h'.live.trans h.live⟩

theorem Extends.refl (blocks : Blocks) : Extends blocks blocks :=
  ⟨fun _ _ _ => Iff.rfl, fun _ _ h => h⟩

theorem Extends.trans (h : Extends blocks blocks') (h' : Extends blocks' blocks'') :
    Extends blocks blocks'' :=
  ⟨fun a k p => (h'.held a k p).trans (h.held a k p), fun a k ha => h'.live a k (h.live a k ha)⟩

theorem SameUse.extends (h : SameUse blocks blocks') : Extends blocks blocks' := by
  refine ⟨h.held, ?_⟩
  intro a k ha
  rw [← Blocks.live_eq_some, h.live, Blocks.live_eq_some]
  exact ha

end Use

/-! ## The contract -/

variable {κ : Type}

/-- What the metadata allocator maintains. -/
abbrev Keeps (κ : Type) := (ℕ → Option ℕ) → κ → Set ℕ → Prop

abbrev Keeps.At (J : Keeps κ) (s : Mm κ) (blocks : Blocks) : Prop := J blocks.live s.rest blocks.ptrs

/-- Releasing `mem_block`s. -/
structure Metadata.Frees (md : Metadata κ) (J : Keeps κ) : Prop where
  mono : ∀ l r A B, J l r A → B ⊆ A → J l r B
  free : ∀ (s : Mm κ) l A p, J l s.rest A → p ∈ A →
    ∃ r, md.free p s = .ok { s with rest := r } ∧ J l r (A \ {p})

/-- What an allocation of a `mem_block` achieves from a state with the given blocks. -/
structure Allocated (R : Region) (J : Keeps κ) (s : Mm κ) (blocks : Blocks) (w p : ℕ)
    (s' : Mm κ) (lists' : ℕ → List ℕ) (blocks' : Blocks) : Prop where
  inv : Inv R s'.buddy lists' blocks' w
  use : Extends blocks blocks'
  lock : s'.buddy.lock = s.buddy.lock
  fresh : p ∉ blocks'.ptrs
  keeps : J blocks'.live s'.rest (insert p blocks'.ptrs)

/-- A lock that is free, or held by the running hart. -/
def Usable (l : Spinlock) : Prop := l = .initializer ∨ l = .held

/-- Allocating a `mem_block` succeeds from the states that are `Safe`. -/
def Metadata.Allocs (md : Metadata κ) (R : Region) (J : Keeps κ)
    (Safe : Mm κ → Blocks → Prop) : Prop :=
  ∀ s lists blocks w, Inv R s.buddy lists blocks w → Usable s.buddy.lock →
    J.At s blocks → Safe s blocks →
      ∃ p s' lists' blocks', md.alloc s = .ok (some p, s') ∧
        Allocated R J s blocks w p s' lists' blocks'

end NoobKernel.Buddy
