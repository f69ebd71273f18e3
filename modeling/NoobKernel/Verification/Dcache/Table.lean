import NoobKernel.Model.Dentry

/-! # The table of the dentry cache

The number of a bucket is used as a key, and hashed once more. No number of a bucket is its own
hash, so that a dentry is never in the bucket that has the number of its key. -/

namespace NoobKernel

open Library Function Outcome

variable {l : List (Σ _ : Ptr, Ptr)} {r : Option Ptr} {room : Bool}

/-! ## The hash function -/

theorem hashPtr_lt {size : ℕ} (key : Ptr) (hsize : 0 < size) : hashPtr key size < size :=
  lt_of_le_of_lt Nat.and_le_right (by omega)

namespace Dcache

variable {c c' : Cache} {d e sb parent : Ptr} {name : Qstr} {x x' : Dentry}

theorem hashPtr_keyPtr_ne : ∀ n : Fin buckets, hashPtr (keyPtr n) buckets ≠ n := by
  decide +kernel

section Setters

variable {y : Option Dentry}

@[simp] theorem setDentry_self : (setDentry d y c).dentry d = y := update_self ..

theorem setDentry_of_ne (he : e ≠ d) : (setDentry d y c).dentry e = c.dentry e := update_of_ne he ..

end Setters

/-! ## Searching -/

/-- What a dentry is for. -/
def Dentry.triple (x : Dentry) : Ptr × Ptr × Qstr := (x.sb, x.parent, x.name)

theorem Dentry.matches_iff : x.Matches sb parent name ↔ x.triple = (sb, parent, name) := by
  obtain ⟨⟨xname⟩, xsb, xparent, refcnt, unhashed⟩ := x
  obtain ⟨name⟩ := name
  simp only [Dentry.Matches, Dentry.triple, Qstr.len, Prod.mk.injEq, Qstr.mk.injEq]
  constructor
  · rintro ⟨hsb, hparent, -, hname⟩
    exact ⟨hsb, hparent, hname⟩
  · rintro ⟨hsb, hparent, hname⟩
    exact ⟨hsb, hparent, by rw [hname], hname⟩

theorem Dentry.key_congr (h : x.triple = x'.triple) (ht : Hashtable) : x.key ht = x'.key ht := by
  obtain ⟨hsb, hrest⟩ := Prod.mk.inj h
  obtain ⟨hparent, hname⟩ := Prod.mk.inj hrest
  rw [Dentry.key, Dentry.key, hsb, hparent, hname]

theorem searchBucket_some (h : searchBucket sb parent name c l = .ok (some d)) :
    ∃ k x, ⟨k, d⟩ ∈ l ∧ c.dentry d = some x ∧ x.triple = (sb, parent, name) := by
  induction l with
  | nil => cases h
  | cons node rest ih =>
    obtain ⟨k, e⟩ := node
    have hrest : searchBucket sb parent name c rest = .ok (some d) →
        ∃ k' x, ⟨k', d⟩ ∈ (⟨k, e⟩ :: rest : List (Σ _ : Ptr, Ptr)) ∧ c.dentry d = some x ∧
          x.triple = (sb, parent, name) := fun h => by
      obtain ⟨k', x, hmem, hx⟩ := ih h
      exact ⟨k', x, List.mem_cons_of_mem _ hmem, hx⟩
    rw [searchBucket] at h
    split at h
    · exact hrest h
    split at h
    · cases h
    next x hx =>
      split at h
      next hmatch =>
        obtain rfl := Option.some.inj (Except.ok.inj h)
        exact ⟨k, x, List.mem_cons_self, hx, Dentry.matches_iff.mp hmatch⟩
      · exact hrest h

theorem searchBucket_none (h : searchBucket sb parent name c l = .ok none) :
    ∀ k e x, ⟨k, e⟩ ∈ l → e ≠ 0 → c.dentry e = some x → x.triple ≠ (sb, parent, name) := by
  induction l with
  | nil => intro k e x hmem; cases hmem
  | cons node rest ih =>
    intro k e x hmem hne hx
    rw [searchBucket] at h
    split at h
    next hzero =>
      rcases List.mem_cons.mp hmem with heq | hmem
      · cases heq
        exact absurd hzero hne
      · exact ih h k e x hmem hne hx
    split at h
    · cases h
    next x' hx' =>
      split at h
      · cases h
      next hnot =>
        rcases List.mem_cons.mp hmem with heq | hmem
        · cases heq
          obtain rfl := Option.mem_unique hx hx'
          exact fun htriple => hnot (Dentry.matches_iff.mpr htriple)
        · exact ih h k e x hmem hne hx

/-! ## Tidy tables -/

/-- The dentry that the table has for a key. -/
def Cache.at (c : Cache) (k : Ptr) : Option Ptr := hashtableLookup k c.ht

/-- The dentries in the table that are not freed are there under their keys. -/
structure Tidy (c : Cache) : Prop where
  size : c.ht.size = buckets
  wf : Buckets.Wf (bucketOf c.ht.size) c.ht.buckets
  own : ∀ k d x, c.at k = some d → c.dentry d = some x → k = x.key c.ht

theorem Tidy.hashKey_lt (h : Tidy c) (sb parent : Ptr) (name : Qstr) :
    dentryHashKey sb parent name c.ht < buckets := by
  rw [dentryHashKey, h.size]
  exact hashPtr_lt _ (by decide)

theorem Tidy.mem_iff (h : Tidy c) {k : Ptr} {b : ℕ} :
    ⟨k, d⟩ ∈ c.ht.buckets b ↔ b = bucketOf c.ht.size k ∧ c.at k = some d := h.wf.mem_iff

theorem Tidy.search_ne (h : Tidy c) (sb parent : Ptr) (name : Qstr) (d : Ptr) :
    searchBucket sb parent name c (c.ht.buckets (dentryHashKey sb parent name c.ht)) ≠
      .ok (some d) := by
  intro hfound
  obtain ⟨k, x, hmem, hx, htriple⟩ := searchBucket_some hfound
  obtain ⟨hbucket, hat⟩ := h.mem_iff.mp hmem
  have hkey : k = keyPtr (dentryHashKey sb parent name c.ht) := by
    rw [h.own k d x hat hx, Dentry.key]
    simp only [Dentry.triple, Prod.mk.injEq] at htriple
    rw [htriple.1, htriple.2.1, htriple.2.2]
  rw [hkey, bucketOf, h.size] at hbucket
  exact hashPtr_keyPtr_ne ⟨_, h.hashKey_lt sb parent name⟩ hbucket.symm

theorem Tidy.dentryLookup (h : Tidy c) (hr : dentryLookup sb parent name c = .ok (r, c')) :
    r = none ∧ c' = c := by
  obtain ⟨found, hsearch, hrest⟩ := bind_eq_ok.mp hr
  cases found with
  | none =>
    obtain ⟨rfl, rfl⟩ := ok_mk_inj hrest
    exact ⟨rfl, rfl⟩
  | some d => exact absurd hsearch (h.search_ne sb parent name d)

/-- The dentries of `c'` that are not freed are for the same names as in `c`. -/
def Stay (c c' : Cache) : Prop :=
  ∀ d x', c'.dentry d = some x' → ∃ x, c.dentry d = some x ∧ x'.triple = x.triple

theorem Stay.refl (c : Cache) : Stay c c := fun _ x' h => ⟨x', h, rfl⟩

theorem stay_setDentry (hx : c.dentry d = some x) (h : x'.triple = x.triple) :
    Stay c (setDentry d (some x') c) := by
  intro e y hy
  by_cases he : e = d
  · subst he
    rw [setDentry_self] at hy
    obtain rfl := Option.some.inj hy
    exact ⟨x, hx, h⟩
  · rw [setDentry_of_ne he] at hy
    exact ⟨y, hy, rfl⟩

theorem stay_free : Stay c (setDentry d none c) := by
  intro e y hy
  by_cases he : e = d
  · subst he
    rw [setDentry_self] at hy
    cases hy
  · rw [setDentry_of_ne he] at hy
    exact ⟨y, hy, rfl⟩

theorem Tidy.stay (h : Tidy c) (hstay : Stay c c') (hht : c'.ht = c.ht) : Tidy c' := by
  refine ⟨by rw [hht, h.size], by rw [hht]; exact h.wf, fun k d x' hk hx' => ?_⟩
  obtain ⟨x, hx, htriple⟩ := hstay d x' hx'
  rw [hht, Dentry.key_congr htriple]
  rw [Cache.at, hht] at hk
  exact h.own k d x hk hx

/-! ## Changes of the table -/

def eraseKey (k : Ptr) (c : Cache) : Cache :=
  { c with ht := { c.ht with buckets := c.ht.buckets.erase (bucketOf c.ht.size) k } }

def insertKey (k d : Ptr) (c : Cache) : Cache :=
  { c with ht := { c.ht with buckets := c.ht.buckets.insert (bucketOf c.ht.size) k d } }

theorem Tidy.at_eraseKey (h : Tidy c) (k : Ptr) : (eraseKey k c).at = update c.at k none := by
  funext k'
  simp only [Cache.at, hashtableLookup, eraseKey, update_apply]
  exact h.wf.find_erase k'

theorem at_insertKey (k d : Ptr) : (insertKey k d c).at = update c.at k (some d) := by
  funext k'
  simp only [Cache.at, hashtableLookup, insertKey, update_apply]
  exact Buckets.find_insert k'

theorem Tidy.eraseKey (h : Tidy c) (k : Ptr) : Tidy (eraseKey k c) := by
  refine ⟨h.size, h.wf.erase, fun k' d x hk hx => ?_⟩
  rw [h.at_eraseKey, update_apply] at hk
  split at hk
  · cases hk
  · exact h.own k' d x hk hx

theorem Tidy.insertKey (h : Tidy c) (hx : c.dentry d = some x) :
    Tidy (insertKey (x.key c.ht) d c) := by
  refine ⟨h.size, h.wf.insert, fun k' e y hk hy => ?_⟩
  rw [at_insertKey, update_apply] at hk
  split at hk
  next hkk =>
    obtain rfl := Option.some.inj hk
    obtain rfl := Option.mem_unique hx hy
    exact hkk
  · exact h.own k' e y hk hy

/-! ## The functions -/

theorem unhash_eq : unhash d x c = if x.unhashed then c else
    setDentry d (some { x with unhashed := true })
      { eraseKey (x.key c.ht) c with count := c.count - 1 } := rfl

theorem unhash_self (hx : c.dentry d = some x) :
    (unhash d x c).dentry d = some { x with unhashed := true } := by
  rw [unhash_eq]
  split
  next h => rw [hx, ← h]
  · exact setDentry_self

theorem leaveParent_ok (h : leaveParent d x c = .ok c') : c' = c := by
  rw [leaveParent] at h
  split at h
  · cases h
  · exact (Except.ok.inj h).symm

theorem dentryFree_ok (h : dentryFree d c = .ok c') :
    d = 0 ∧ c' = c ∨ d ≠ 0 ∧ ∃ x, c.dentry d = some x ∧ c' = setDentry d none (unhash d x c) := by
  rw [dentryFree] at h
  split at h
  next hd => exact Or.inl ⟨hd, (Except.ok.inj h).symm⟩
  split at h
  · cases h
  next hd _ x hx =>
    obtain ⟨c1, hleave, hrest⟩ := bind_eq_ok.mp h
    obtain rfl := leaveParent_ok hleave
    exact Or.inr ⟨hd, x, hx, (Except.ok.inj hrest).symm⟩

theorem setDentry_setDentry (y y' : Option Dentry) :
    setDentry d y' (setDentry d y c) = setDentry d y' c := by
  rw [setDentry, setDentry, setDentry]
  simp only [update_idem]

/-- What `dentry_put` does. A dentry that is not in the table is freed with its last
reference. -/
theorem dentryPut_ok (h : dentryPut d c = .ok c') :
    d = 0 ∧ c' = c ∨ d ≠ 0 ∧ ∃ x, c.dentry d = some x ∧
      c' = if x.refcnt - 1 = 0 ∧ x.unhashed = true then setDentry d none c
        else setDentry d (some { x with refcnt := x.refcnt - 1 }) c := by
  rw [dentryPut] at h
  split at h
  next hd => exact Or.inl ⟨hd, (Except.ok.inj h).symm⟩
  split at h
  · cases h
  next hd _ x hx =>
    refine Or.inr ⟨hd, x, hx, ?_⟩
    split at h
    next hlast =>
      rw [if_pos hlast]
      rcases dentryFree_ok h with ⟨hzero, -⟩ | ⟨-, y, hy, rfl⟩
      · exact absurd hzero hd
      · rw [setDentry_self] at hy
        obtain rfl := Option.some.inj hy
        rw [unhash_eq, if_pos hlast.2, setDentry_setDentry]
    next hlast => rw [if_neg hlast, Except.ok.inj h]

theorem dentryDelete_ok (h : dentryDelete d c = .ok c') :
    d = 0 ∧ c' = c ∨ d ≠ 0 ∧ ∃ x, c.dentry d = some x ∧
      c' = if x.refcnt - 1 = 0 then setDentry d none (unhash d x c)
        else setDentry d (some { x with unhashed := true, refcnt := x.refcnt - 1 })
          (unhash d x c) := by
  rw [dentryDelete] at h
  split at h
  next hd => exact Or.inl ⟨hd, (Except.ok.inj h).symm⟩
  split at h
  · cases h
  next hd _ x hx =>
    obtain ⟨c1, hleave, hput⟩ := bind_eq_ok.mp h
    obtain rfl := leaveParent_ok hleave
    refine Or.inr ⟨hd, x, hx, ?_⟩
    rcases dentryPut_ok hput with ⟨hzero, -⟩ | ⟨-, y, hy, rfl⟩
    · exact absurd hzero hd
    · rw [unhash_self hx] at hy
      obtain rfl := Option.some.inj hy
      simp only [and_true]

theorem dentryGet_ok (h : dentryGet d c = .ok c') :
    c' = c ∨ ∃ x, c.dentry d = some x ∧
      c' = setDentry d (some { x with refcnt := x.refcnt + 1 }) c := by
  rw [dentryGet] at h
  split at h
  · exact Or.inl (Except.ok.inj h).symm
  split at h
  · cases h
  next x hx => exact Or.inr ⟨x, hx, (Except.ok.inj h).symm⟩

theorem dentryAlloc_ok (h : dentryAlloc room d parent sb name c = .ok (r, c')) :
    ¬(room = true ∧ d ≠ 0 ∧ c.dentry d = none) ∧ r = none ∧ c' = c ∨
      (room = true ∧ d ≠ 0 ∧ c.dentry d = none) ∧ r = some d ∧
        c' = setDentry d (some ⟨name, sb, if parent ≠ 0 then parent else d, 1, false⟩) c := by
  unfold dentryAlloc at h
  split at h
  next hcan =>
    split at h
    · cases h
    obtain ⟨rfl, rfl⟩ := ok_mk_inj h
    exact Or.inr ⟨hcan, rfl, rfl⟩
  next hcan =>
    obtain ⟨rfl, rfl⟩ := ok_mk_inj h
    exact Or.inl ⟨hcan, rfl, rfl⟩

/-- Why `dentry_insert` refuses a dentry. -/
def Refused (x : Dentry) (c : Cache) : Prop :=
  x.sb = 0 ∨ x.parent = 0 ∨
    searchBucket x.sb x.parent x.name c (c.ht.buckets (bucketOf c.ht.size (x.key c.ht))) ≠ .ok none

theorem dentryInsert_ok {r : ℤ} (h : dentryInsert room d c = .ok (r, c')) :
    r ≠ 0 ∧ c' = c ∧ (d = 0 ∨ d ≠ 0 ∧ ∃ x, c.dentry d = some x ∧ Refused x c) ∨
      r = 0 ∧ d ≠ 0 ∧ ∃ x, c.dentry d = some x ∧ ¬Refused x c ∧
        c' = if (c.at (x.key c.ht)).isSome ∨ room = true then
            { insertKey (x.key c.ht) d c with count := c.count + 1 }
          else { c with count := c.count + 1 } := by
  rw [dentryInsert] at h
  split at h
  next hd =>
    obtain ⟨rfl, rfl⟩ := ok_mk_inj h
    exact Or.inl ⟨by decide, rfl, Or.inl hd⟩
  split at h
  · cases h
  next hd _ x hx =>
    split at h
    next hsb =>
      obtain ⟨rfl, rfl⟩ := ok_mk_inj h
      exact Or.inl ⟨by decide, rfl, Or.inr ⟨hd, x, hx, Or.inl hsb⟩⟩
    split at h
    next hparent =>
      obtain ⟨rfl, rfl⟩ := ok_mk_inj h
      exact Or.inl ⟨by decide, rfl, Or.inr ⟨hd, x, hx, Or.inr (Or.inl hparent)⟩⟩
    next hsb hparent =>
      obtain ⟨found, hsearch, hrest⟩ := bind_eq_ok.mp h
      cases found with
      | some e =>
        obtain ⟨rfl, rfl⟩ := ok_mk_inj hrest
        refine Or.inl ⟨by decide, rfl, Or.inr ⟨hd, x, hx, Or.inr (Or.inr ?_)⟩⟩
        rw [hsearch]
        nofun
      | none =>
        obtain ⟨rfl, rfl⟩ := ok_mk_inj hrest
        refine Or.inr ⟨rfl, hd, x, hx, ?_, ?_⟩
        · rintro (hzero | hzero | hne)
          · exact hsb hzero
          · exact hparent hzero
          · exact hne hsearch
        · by_cases hcan : (c.at (x.key c.ht)).isSome ∨ room = true
          · have hinsert : hashtableInsert room (x.key c.ht) d c.ht = _ := if_pos hcan
            rw [if_pos hcan, hinsert]
            rfl
          · have hinsert : hashtableInsert room (x.key c.ht) d c.ht = _ := if_neg hcan
            rw [if_neg hcan, hinsert]

end Dcache

end NoobKernel
