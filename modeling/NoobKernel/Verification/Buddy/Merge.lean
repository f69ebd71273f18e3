import NoobKernel.Verification.Buddy.Invariant

/-! # Merging

`merge_blocks` redivides the free memory: every address stays free, live or held as it
was, and no two free buddies of a merged order remain. Blocks held by an interrupted
split are safe as long as their buddies are not free altogether. -/

namespace NoobKernel.Buddy

open Library Function List Outcome

variable {κ : Type} {R : Region} {lists : ℕ → List ℕ} {blocks blocks' : Blocks} {w q t k x j : ℕ}
  {s : Mm κ} {J : Keeps κ} {md : Metadata κ} {b : State} {st : Status}

/-! ## Reading pages -/

theorem addr2page_eq {a i : ℕ} (h : addr2index a = some i) : addr2page a = .ok i := by
  unfold addr2page
  rw [h]

theorem Inv.block_of_page {i : ℕ} (h : Inv R b lists blocks w) (hpriv : (b.pages i).priv = some q)
    (horder : (b.pages i).order = k) :
    ∃ st, blocks (pageAddr i) = some (k, st) ∧ st.priv = some q := by
  rw [h.page_priv i] at hpriv
  cases hb : blocks (pageAddr i) with
  | none => simp [hb] at hpriv
  | some v =>
    obtain ⟨m, st⟩ := v
    have hm := h.page_order i m st hb
    refine ⟨st, ?_, by simpa [hb] using hpriv⟩
    rw [← hm, horder]

/-! ## The scan -/

/-- The first page of the buddy of `a` names a `mem_block` and the same order. -/
def Mergeable (blocks : Blocks) (a k : ℕ) : Prop :=
  ∃ st q, blocks (buddy a (exponent k)) = some (k, st) ∧ st.priv = some q

/-- What the scan returns when it stops at a block with a free buddy. -/
structure Found (s : Mm κ) (blocks : Blocks) (i r pg q bpg : ℕ) : Prop where
  page : pageAddr pg = s.buddy.start r
  buddyPage : pageAddr bpg = buddy (s.buddy.start r) (exponent i)
  buddyBlock : ∃ st, blocks (pageAddr bpg) = some (i, st) ∧ st.priv = some q

/-- The scan of the blocks `ys` finds none with a buddy, or stops at one. -/
def Scanned (s : Mm κ) (blocks : Blocks) (i : ℕ) (ys : List ℕ)
    (x : Outcome (Node × Option (ℕ × ℕ × ℕ × ℕ))) : Prop :=
  (x = .ok (.head i, none) ∧ ∀ r ∈ ys, ¬ Mergeable blocks (s.buddy.start r) i) ∨
    ∃ r pg q bpg, x = .ok (.block r, some (r, pg, q, bpg)) ∧ r ∈ ys ∧ Found s blocks i r pg q bpg

theorem Scanned.cons {i r : ℕ} {ys : List ℕ} {x : Outcome (Node × Option (ℕ × ℕ × ℕ × ℕ))}
    (h : Scanned s blocks i ys x) (hr : ¬ Mergeable blocks (s.buddy.start r) i) :
    Scanned s blocks i (r :: ys) x := by
  rcases h with ⟨hx, hall⟩ | ⟨r', pg, q, bpg, hx, hmem, hfound⟩
  · exact Or.inl ⟨hx, forall_mem_cons.mpr ⟨hr, hall⟩⟩
  · exact Or.inr ⟨r', pg, q, bpg, hx, mem_cons_of_mem _ hmem, hfound⟩

theorem mergeScan_spec {i : ℕ} (h : Inv R s.buddy lists blocks w) (hi : i < buddyMaxOrder)
    (ys : List ℕ) :
    ∀ (xs : List ℕ) (fuel : ℕ) (p : Node) (back : List Node), lists i = xs ++ ys →
      ys.length < fuel → ys.map Node.block ++ [.head i] = p :: back →
      Scanned s blocks i ys (mergeScan s i fuel p) := by
  induction ys with
  | nil =>
    intro xs fuel p back _ hfuel hp
    obtain ⟨fuel, rfl⟩ : ∃ n, fuel = n + 1 := ⟨fuel - 1, by simp at hfuel; omega⟩
    simp only [map_nil, nil_append, List.cons.injEq] at hp
    simp [Scanned, mergeScan, ← hp.1]
  | cons r ys ih =>
    intro xs fuel p back hl hfuel hp
    obtain ⟨fuel, rfl⟩ : ∃ n, fuel = n + 1 := ⟨fuel - 1, by simp at hfuel; omega⟩
    obtain ⟨rfl, rfl⟩ := hp
    have hfree : blocks (s.buddy.start r) = some (i, .free r) := h.free_of_mem hi.le (by simp [hl])
    obtain ⟨pg, hpg, hindex⟩ := h.index hfree
    obtain ⟨bpg, hbpg, hbindex⟩ := h.buddy_index hfree hi
    have horder : (s.buddy.pages pg).order = i := h.page_order pg i _ (hpg ▸ hfree)
    obtain ⟨next, back, hback⟩ : ∃ next back, ys.map Node.block ++ [.head i] = next :: back :=
      exists_cons_of_ne_nil (by simp)
    have hnext : s.buddy.links.next (.block r) = next := by
      have hring := h.rings.ring i hi.le
      simp only [hl, map_append, map_cons] at hring
      exact hring.next_eq hback
    have hrest := ih (xs ++ [r]) fuel next back (by simp [hl]) (Nat.lt_of_succ_lt_succ hfuel) hback
    -- the fields of the buddy's page are those of its block
    have hpage : Mergeable blocks (s.buddy.start r) i →
        (s.buddy.pages bpg).priv ≠ none ∧ (s.buddy.pages bpg).order = i := by
      rintro ⟨st, q, hst, hq⟩
      rw [← hbpg] at hst
      refine ⟨?_, h.page_order bpg i st hst⟩
      rw [h.page_priv bpg, hst]
      exact Option.ne_none_iff_exists'.mpr ⟨q, hq⟩
    simp only [mergeScan, listEntry, reduceCtorEq, if_false, ok_bind, addr2page_eq hindex, horder,
      getBuddyAddr_eq, addr2page_eq hbindex, hnext]
    cases hpriv : (s.buddy.pages bpg).priv with
    | none => exact hrest.cons fun hm => (hpage hm).1 hpriv
    | some q =>
      dsimp only
      split
      next hne => exact hrest.cons fun hm => hne (hpage hm).2
      next heq =>
        exact Or.inr ⟨r, pg, q, bpg, rfl, mem_cons_self, hpg, hbpg,
          h.block_of_page hpriv (not_not.mp heq)⟩

/-! ## One merge -/

/-- The blocks after the merge of the buddies at `lo` and `lo + 2 ^ exponent i`. -/
def merged (blocks : Blocks) (lo i keep : ℕ) : Blocks :=
  update (update blocks (lo + 2 ^ exponent i) none) lo (some (i + 1, .free keep))

section Merged

variable {lo i keep drop : ℕ}

theorem merged_self : merged blocks lo i keep lo = some (i + 1, .free keep) := update_self _ _ _

theorem merged_upper : merged blocks lo i keep (lo + 2 ^ exponent i) = none := by
  have hpos := Nat.two_pow_pos (exponent i)
  unfold merged
  rw [update_of_ne (by omega), update_self]

theorem merged_other (hlo : x ≠ lo) (hhi : x ≠ lo + 2 ^ exponent i) :
    merged blocks lo i keep x = blocks x := by
  unfold merged
  rw [update_of_ne hlo, update_of_ne hhi]

theorem merged_cases {v : ℕ × Status} (h : merged blocks lo i keep x = some v) :
    x = lo ∧ v = (i + 1, .free keep) ∨ x ≠ lo + 2 ^ exponent i ∧ blocks x = some v := by
  by_cases hlo : x = lo
  · subst hlo
    exact Or.inl ⟨rfl, (Option.some.inj (merged_self.symm.trans h)).symm⟩
  by_cases hhi : x = lo + 2 ^ exponent i
  · subst hhi
    cases merged_upper.symm.trans h
  · exact Or.inr ⟨hhi, (merged_other hlo hhi).symm.trans h⟩

section

variable (hkeep : blocks lo = some (i, .free keep))
  (hdrop : blocks (lo + 2 ^ exponent i) = some (i, .free drop))

include hkeep hdrop

theorem merged_iff (hst : j < i ∨ ∀ p, st ≠ .free p) :
    merged blocks lo i keep x = some (j, st) ↔ blocks x = some (j, st) := by
  have hno : ∀ m p, i ≤ m → ¬ (some (m, Status.free p) = some (j, st)) := by
    intro m p hm heq
    simp only [Option.some.injEq, Prod.mk.injEq] at heq
    rcases hst with hj | hst
    · omega
    · exact hst p heq.2.symm
  by_cases hlo : x = lo
  · subst hlo
    rw [merged_self, hkeep]
    exact iff_of_false (hno _ _ (Nat.le_succ i)) (hno _ _ le_rfl)
  by_cases hhi : x = lo + 2 ^ exponent i
  · subst hhi
    rw [merged_upper, hdrop]
    exact iff_of_false (by simp) (hno _ _ le_rfl)
  · rw [merged_other hlo hhi]

theorem freeAt_merged (x : ℕ) : FreeAt (merged blocks lo i keep) x ↔ FreeAt blocks x := by
  constructor
  · rintro ⟨a, k, p, ha, hx⟩
    rcases merged_cases ha with ⟨rfl, hv⟩ | ⟨-, ha⟩
    · cases hv
      rcases inBlock_halves.mp hx with hx | hx
      · exact ⟨a, i, keep, hkeep, hx⟩
      · exact ⟨_, i, drop, hdrop, hx⟩
    · exact ⟨a, k, p, ha, hx⟩
  · rintro ⟨a, k, p, ha, hx⟩
    by_cases hlo : a = lo
    · subst hlo
      cases hkeep.symm.trans ha
      exact ⟨a, i + 1, keep, merged_self, inBlock_halves.mpr (Or.inl hx)⟩
    by_cases hhi : a = lo + 2 ^ exponent i
    · subst hhi
      cases hdrop.symm.trans ha
      exact ⟨lo, i + 1, keep, merged_self, inBlock_halves.mpr (Or.inr hx)⟩
    · exact ⟨a, k, p, (merged_other hlo hhi).trans ha, hx⟩

theorem sameUse_merged : SameUse blocks (merged blocks lo i keep) := by
  refine ⟨freeAt_merged hkeep hdrop, ?_, ?_⟩
  · intro a k p
    exact merged_iff hkeep hdrop (Or.inr (by simp))
  · funext a
    apply Option.ext
    intro k
    rw [Blocks.live_eq_some, Blocks.live_eq_some]
    exact merged_iff hkeep hdrop (Or.inr (by simp))

end

theorem ptrs_merged (h : Inv R b lists blocks w) (hkeep : blocks lo = some (i, .free keep))
    (hdrop : blocks (lo + 2 ^ exponent i) = some (i, .free drop)) :
    (merged blocks lo i keep).ptrs ⊆ blocks.ptrs \ {drop} := by
  have hpos := Nat.two_pow_pos (exponent i)
  have hlo : update blocks (lo + 2 ^ exponent i) none lo = some (i, .free keep) := by
    rw [update_of_ne (by omega), hkeep]
  exact (Blocks.ptrs_restatus hlo rfl).trans (h.ptrs_drop hdrop rfl rfl)

end Merged

/-- The state after merging: the memory is used as before. -/
structure Redivided (R : Region) (J : Keeps κ) (s : Mm κ) (blocks : Blocks) (w : ℕ)
    (s' : Mm κ) (lists' : ℕ → List ℕ) (blocks' : Blocks) : Prop where
  inv : Inv R s'.buddy lists' blocks' w
  use : SameUse blocks blocks'
  lock : s'.buddy.lock = s.buddy.lock
  keeps : J.At s' blocks'

theorem Redivided.trans {s' s'' : Mm κ} {lists' lists'' : ℕ → List ℕ} {blocks'' : Blocks}
    (h : Redivided R J s blocks w s' lists' blocks')
    (h' : Redivided R J s' blocks' w s'' lists'' blocks'') :
    Redivided R J s blocks w s'' lists'' blocks'' :=
  ⟨h'.inv, h.use.trans h'.use, h'.lock.trans h.lock, h'.keeps⟩

theorem Inv.unlink_pair {i r pg bpg : ℕ} (h : Inv R s.buddy lists blocks w)
    (hi : i ≤ buddyMaxOrder) (hr : blocks (pageAddr pg) = some (i, .free r))
    (hq : blocks (pageAddr bpg) = some (i, .free q)) (hne : pg ≠ bpg) :
    ∃ l, l.length + 2 = (lists i).length ∧
      Inv R (setLinks (fun L => (L.del (.block r)).del (.block q)) s).buddy (update lists i l)
        (update (update blocks (pageAddr pg) (some (i, .held r)))
          (pageAddr bpg) (some (i, .held q))) (w + 2 ^ (i + 1)) := by
  obtain ⟨xs, ys, hl⟩ := append_of_mem (h.mem_of_free hr)
  have h1 : Inv R (setLinks (·.del (.block r)) s).buddy (update lists i (xs ++ ys)) _
      (w + 2 ^ i) := h.unlink hi hl (h.start_eq hr rfl).symm
  have hq1 : update blocks (pageAddr pg) (some (i, .held r)) (pageAddr bpg) =
      some (i, .free q) := by
    rw [update_of_ne (pageAddr_injective.ne hne.symm)]
    exact hq
  obtain ⟨xs', ys', hl'⟩ := append_of_mem (h1.mem_of_free hq1)
  have h2 : Inv R (setLinks (·.del (.block q)) (setLinks (·.del (.block r)) s)).buddy _ _
      (w + 2 ^ i + 2 ^ i) := h1.unlink hi hl' (h1.start_eq hq1 rfl).symm
  refine ⟨xs' ++ ys', ?_, ?_⟩
  · have hlen := congrArg List.length hl'
    rw [update_self] at hlen
    simp only [hl, length_append, length_cons] at hlen ⊢
    omega
  · rw [update_idem] at h2
    rw [pow_succ, Nat.mul_two, ← Nat.add_assoc]
    exact h2

/-- The lower of two buddies that are off their list becomes their union. -/
theorem mergeInto_spec (hmd : md.Frees J) {i keep kp drop dp : ℕ} {f : Links Node → Links Node}
    {lists1 : ℕ → List ℕ} (h : Inv R s.buddy lists blocks w) (hi : i < buddyMaxOrder)
    (hkeep : blocks (pageAddr kp) = some (i, .free keep))
    (hdrop : blocks (pageAddr dp) = some (i, .free drop))
    (hadj : pageAddr dp = pageAddr kp + 2 ^ exponent i)
    (hdvd : 2 ^ (exponent i + 1) ∣ pageAddr kp) (hJ : J.At s blocks)
    (hheld : Inv R (setLinks f s).buddy lists1 (update (update blocks (pageAddr kp)
      (some (i, .held keep))) (pageAddr dp) (some (i, .held drop))) (w + 2 ^ (i + 1))) :
    ∃ s', mergeInto md keep kp drop dp (setLinks f s) = .ok s' ∧
      Redivided R J s blocks w s' (update lists1 (i + 1) (keep :: lists1 (i + 1)))
        (merged blocks (pageAddr kp) i keep) := by
  have hne : kp ≠ dp := by
    rintro rfl
    omega
  have hpages : pageAddr kp ≠ pageAddr dp := pageAddr_injective.ne hne
  have hkp : update (update blocks (pageAddr kp) (some (i, .held keep))) (pageAddr dp)
      (some (i, .held drop)) (pageAddr kp) = some (i, .held keep) := by
    rw [update_of_ne hpages, update_self]
  obtain ⟨r, hfree, hJ'⟩ := hmd.free (setLinks f s) _ _ drop hJ ⟨_, i, _, hdrop, rfl⟩
  have horder : (s.buddy.pages kp).order = i := hheld.page_order kp i _ hkp
  have hpriv : (s.buddy.pages kp).priv = some keep := by
    rw [h.page_priv kp, hkeep]
    rfl
  have hsucc : (i + 1) % 256 = i + 1 := Nat.mod_eq_of_lt (by norm_num at hi; omega)
  let s1 : Mm κ := setPage kp (fun page => { page with order := (page.order + 1) % 256 })
    (setPage dp (fun page => { page with order := buddyMaxOrder + 1 })
      (setPage dp (fun page => { page with priv := none }) { setLinks f s with rest := r }))
  have horder1 : (s1.buddy.pages kp).order = i + 1 := by
    simp [s1, hne, horder, hsucc]
  have hjoin : Inv R s1.buddy _ _ _ := hheld.join hadj
    (fun m hk hd => by simp [s1, hk, hd]) (by simp [s1, hne, hpriv]) rfl rfl hkp
    (update_self _ _ _) hi hdvd horder1 (by simp [s1, hne.symm]) rfl
  have hlinked : Inv R (setLinks (·.add (.block keep) (.head (i + 1))) s1).buddy _ _ w :=
    hjoin.relink_add (update_self _ _ _)
  have huse := sameUse_merged hkeep (hadj ▸ hdrop)
  refine ⟨setLinks (·.add (.block keep) (.head (i + 1))) s1, ?_, ?_, huse, rfl, ?_⟩
  · unfold mergeInto
    simp only [hfree, ok_bind]
    rw [horder1, freeList, if_pos (Nat.succ_le_of_lt hi)]
    rfl
  · rw [update_idem, update_idem, update_comm hpages, update_idem, hadj] at hlinked
    exact hlinked
  · rw [Keeps.At, huse.live]
    exact hmd.mono _ _ _ _ hJ' (ptrs_merged h hkeep (hadj ▸ hdrop))

theorem mergePair_spec (hmd : md.Frees J) {i r pg bpg : ℕ} (h : Inv R s.buddy lists blocks w)
    (hi : i < buddyMaxOrder) (hr : blocks (pageAddr pg) = some (i, .free r))
    (hq : blocks (pageAddr bpg) = some (i, .free q))
    (hbuddy : pageAddr bpg = buddy (pageAddr pg) (exponent i)) (hJ : J.At s blocks) :
    ∃ s' lists' blocks', mergePair md r pg q bpg s = .ok s' ∧
      Redivided R J s blocks w s' lists' blocks' ∧
      (lists' i).length + 2 = (lists i).length ∧
      ∀ j < i, ∀ x st, blocks' x = some (j, st) ↔ blocks x = some (j, st) := by
  have hne : pg ≠ bpg := by
    rintro rfl
    exact buddy_ne _ _ hbuddy.symm
  obtain ⟨l, hlen, hheld⟩ := h.unlink_pair hi.le hr hq hne
  have hsr : s.buddy.start r = pageAddr pg := h.start_eq hr rfl
  have hsq : s.buddy.start q = pageAddr bpg := h.start_eq hq rfl
  have hlists : ∀ m, (update (update lists i l) (i + 1) m i).length + 2 = (lists i).length := by
    intro m
    rw [update_of_ne (Nat.succ_ne_self i).symm, update_self]
    exact hlen
  unfold mergePair
  rcases lower_or_upper (h.dvd hr) with ⟨hdvd, hup⟩ | ⟨hdvd, hlow⟩
  · have hadj : pageAddr bpg = pageAddr pg + 2 ^ exponent i := hbuddy.trans hup
    rw [if_neg (by simp only [setLinks_buddy, hsr, hsq]; omega)]
    obtain ⟨s', hrun, hdiv⟩ := mergeInto_spec hmd h hi hr hq hadj hdvd hJ hheld
    exact ⟨s', _, _, hrun, hdiv, hlists _, fun j hj x st => merged_iff hr (hadj ▸ hq) (Or.inl hj)⟩
  · rw [← hbuddy] at hdvd hlow
    rw [if_pos (by simp only [setLinks_buddy, hsr, hsq]; omega)]
    rw [update_comm (pageAddr_injective.ne hne)] at hheld
    obtain ⟨s', hrun, hdiv⟩ := mergeInto_spec hmd h hi hq hr hlow.symm hdvd hJ hheld
    exact ⟨s', _, _, hrun, hdiv, hlists _,
      fun j hj x st => merged_iff hq (hlow.symm ▸ hr) (Or.inl hj)⟩

/-! ## The loops -/

/-- The buddies of the blocks held below order `t` are not free altogether. -/
def HeldSafe (blocks : Blocks) (t : ℕ) : Prop :=
  ∀ a k q, blocks a = some (k, .held q) → k < t →
    ∃ x, InBlock (buddy a (exponent k)) (exponent k) x ∧ ¬ FreeAt blocks x

theorem HeldSafe.of_sameUse (h : HeldSafe blocks t) (huse : SameUse blocks blocks') :
    HeldSafe blocks' t := by
  intro a k q ha hk
  obtain ⟨x, hx, hfree⟩ := h a k q ((huse.held a k q).mp ha) hk
  exact ⟨x, hx, fun hf => hfree ((huse.free x).mp hf)⟩

/-- A merge candidate of a free block is free, not held. -/
theorem HeldSafe.free {i a r : ℕ} (h : HeldSafe blocks t) (hi : i < t)
    (ha : blocks a = some (i, .free r)) (hb : blocks (buddy a (exponent i)) = some (i, st))
    (hq : st.priv = some q) : st = .free q := by
  cases st with
  | free p => simpa using hq
  | held p =>
    obtain ⟨x, hx, hfree⟩ := h _ i p hb hi
    rw [buddy_buddy] at hx
    exact (hfree ⟨a, i, r, ha, hx⟩).elim
  | live => cases hq

theorem mergeLevel_spec (hmd : md.Frees J) {scanFuel i : ℕ} (hi : i < buddyMaxOrder) (hit : i < t)
    (hscan : pageNum < scanFuel) (fuel : ℕ) :
    ∀ (p : Option Node) (s : Mm κ) (lists : ℕ → List ℕ) (blocks : Blocks),
      Inv R s.buddy lists blocks w → HeldSafe blocks t →
      J.At s blocks →
      (lists i).length + 2 ≤ fuel → p ≠ some (.head i) →
      ∃ s' lists' blocks', mergeLevel md scanFuel i fuel p s = .ok (some (.head i), s') ∧
        Redivided R J s blocks w s' lists' blocks' ∧ NoPair blocks' i ∧
        ∀ j < i, ∀ x st, blocks' x = some (j, st) ↔ blocks x = some (j, st) := by
  induction fuel with
  | zero =>
    omega
  | succ fuel ih =>
    intro p s lists blocks h hsafe hJ hfuel hp
    have hring := h.rings.ring i hi.le
    obtain ⟨first, back, hfirst⟩ : ∃ first back,
        (lists i).map Node.block ++ [.head i] = first :: back :=
      exists_cons_of_ne_nil (by simp)
    have hnext : s.buddy.links.next (.head i) = first := hring.next_head hfirst
    have hlen := h.length_le hi.le
    simp only [mergeLevel, if_neg hp, hnext]
    rcases mergeScan_spec h hi (lists i) [] scanFuel first back rfl (by omega) hfirst with
      ⟨hres, hnone⟩ | ⟨r, pg, q, bpg, hres, hr, hfound⟩
    · obtain ⟨fuel, rfl⟩ : ∃ n, fuel = n + 1 := ⟨fuel - 1, by omega⟩
      refine ⟨s, lists, blocks, ?_, ⟨h, SameUse.refl _, rfl, hJ⟩, ?_, ?_⟩
      · rw [hres]
        simp [mergeLevel]
      · intro a p q ha hb
        have hp' := (h.free_iff a i p).mp ha
        exact hnone p hp'.2.1 ⟨_, q, by rw [hp'.2.2]; exact hb, rfl⟩
      · exact fun j _ x st => Iff.rfl
    · have hr' : blocks (pageAddr pg) = some (i, .free r) := by
        rw [hfound.page]
        exact h.free_of_mem hi.le hr
      have hbuddy : pageAddr bpg = buddy (pageAddr pg) (exponent i) := by
        rw [hfound.page]
        exact hfound.buddyPage
      obtain ⟨st, hst, hq⟩ := hfound.buddyBlock
      have hst' := hsafe.free hit hr' (hbuddy ▸ hst) hq
      subst hst'
      obtain ⟨s1, lists1, blocks1, hrun, hdiv, hlen1, hlow⟩ :=
        mergePair_spec hmd h hi hr' hst hbuddy hJ
      obtain ⟨s', lists', blocks', hrun', hdiv', hpair, hlow'⟩ :=
        ih (some (.block r)) s1 lists1 blocks1 hdiv.inv (hsafe.of_sameUse hdiv.use) hdiv.keeps
          (by omega) (by simp)
      refine ⟨s', lists', blocks', ?_, hdiv.trans hdiv', hpair, ?_⟩
      · rw [hres]
        simp only [ok_bind, hrun, hrun']
      · exact fun j hj x st => (hlow' j hj x st).trans (hlow j hj x st)

theorem NoPair.congr (h : NoPair blocks j)
    (hiff : ∀ x st, blocks' x = some (j, st) ↔ blocks x = some (j, st)) : NoPair blocks' j :=
  fun a p q ha hb => h a p q ((hiff a _).mp ha) ((hiff _ _).mp hb)

theorem Inv.listEmpty_iff (h : Inv R s.buddy lists blocks w) (hk : k ≤ buddyMaxOrder) :
    listEmpty s k = true ↔ lists k = [] := by
  unfold listEmpty
  rw [(h.rings.ring k hk).isEmpty_iff, map_eq_nil_iff]

theorem mergeLevels_spec (hmd : md.Frees J) {fuel : ℕ} (hfuel : pageNum + 2 ≤ fuel)
    (ht : t ≤ buddyMaxOrder) (n : ℕ) :
    ∀ (i : ℕ) (p : Option Node) (s : Mm κ) (lists : ℕ → List ℕ) (blocks : Blocks),
      i + n = t → Inv R s.buddy lists blocks w → HeldSafe blocks t →
      J.At s blocks →
      (∀ j, i ≤ j → p ≠ some (.head j)) → (∀ j < i, NoPair blocks j) →
      ∃ s' lists' blocks', mergeLevels md fuel n i p s = .ok s' ∧
        Redivided R J s blocks w s' lists' blocks' ∧ ∀ j < t, NoPair blocks' j := by
  induction n with
  | zero =>
    intro i p s lists blocks hin h _ hJ _ hpairs
    refine ⟨s, lists, blocks, rfl, ⟨h, SameUse.refl _, rfl, hJ⟩, ?_⟩
    intro j hj
    exact hpairs j (by omega)
  | succ n ih =>
    intro i p s lists blocks hin h hsafe hJ hp hpairs
    have hi : i < buddyMaxOrder := by omega
    have hstep : ∀ {j}, j < i + 1 → j = i ∨ j < i := fun hj => by omega
    by_cases hempty : listEmpty s i = true
    · obtain ⟨s', lists', blocks', hrun, hdiv, hall⟩ :=
        ih (i + 1) p s lists blocks (by omega) h hsafe hJ (fun j hj => hp j (by omega)) (by
          intro j hj
          rcases hstep hj with rfl | hj
          · intro a r q ha
            have hmem := h.mem_of_free ha
            rw [(h.listEmpty_iff hi.le).mp hempty] at hmem
            cases hmem
          · exact hpairs j hj)
      refine ⟨s', lists', blocks', ?_, hdiv, hall⟩
      rw [mergeLevels, if_pos hempty]
      exact hrun
    · have hlen := h.length_le hi.le
      obtain ⟨s1, lists1, blocks1, hrun1, hdiv1, hpair, hlow⟩ :=
        mergeLevel_spec hmd hi (show i < t by omega) (show pageNum < fuel by omega) fuel p s
          lists blocks h hsafe hJ (by omega) (hp i le_rfl)
      obtain ⟨s', lists', blocks', hrun, hdiv, hall⟩ :=
        ih (i + 1) (some (.head i)) s1 lists1 blocks1 (by omega) hdiv1.inv
          (hsafe.of_sameUse hdiv1.use) hdiv1.keeps (by
            intro j hj he
            simp only [Option.some.injEq, Node.head.injEq] at he
            omega) (by
            intro j hj
            rcases hstep hj with rfl | hj
            · exact hpair
            · exact (hpairs j hj).congr (hlow j hj))
      refine ⟨s', lists', blocks', ?_, hdiv1.trans hdiv, hall⟩
      rw [mergeLevels, if_neg hempty, hrun1]
      exact hrun

/-- `merge_blocks` ends, and leaves no pair of free buddies below the order. -/
theorem mergeBlocks_spec (hmd : md.Frees J) {fuel : ℕ} (hfuel : pageNum + 2 ≤ fuel)
    (ht : t ≤ buddyMaxOrder) (h : Inv R s.buddy lists blocks w) (hsafe : HeldSafe blocks t)
    (hJ : J.At s blocks) :
    ∃ s' lists' blocks', mergeBlocks md fuel t s = .ok s' ∧
      Redivided R J s blocks w s' lists' blocks' ∧ ∀ j < t, NoPair blocks' j :=
  mergeLevels_spec hmd hfuel ht t 0 none s lists blocks (Nat.zero_add t) h hsafe hJ
    (fun _ _ => by simp) (fun j hj => absurd hj (Nat.not_lt_zero j))

/-! ## Splitting

A turn of the loop of `split_blocks` holds one block while it allocates the metadata
of the upper half. The metadata allocator may use the buddy allocator in between, so
free memory may be given away there; what was live or held stays as it was. -/

open Blocks

variable {lists' : ℕ → List ℕ} {ps : List ℕ}

/-- The state after a step that may give free memory away. -/
structure Kept (R : Region) (J : Keeps κ) (s : Mm κ) (blocks : Blocks) (w : ℕ)
    (s' : Mm κ) (lists' : ℕ → List ℕ) (blocks' : Blocks) : Prop where
  inv : Inv R s'.buddy lists' blocks' w
  use : Extends blocks blocks'
  lock : s'.buddy.lock = s.buddy.lock
  keeps : J.At s' blocks'

theorem Kept.trans {J : Keeps κ} {s' s'' : Mm κ} {lists'' : ℕ → List ℕ} {blocks'' : Blocks}
    (h : Kept R J s blocks w s' lists' blocks') (h' : Kept R J s' blocks' w s'' lists'' blocks'') :
    Kept R J s blocks w s'' lists'' blocks'' :=
  ⟨h'.inv, h.use.trans h'.use, h'.lock.trans h.lock, h'.keeps⟩

theorem Redivided.kept {J : Keeps κ} {s' : Mm κ} (h : Redivided R J s blocks w s' lists' blocks') :
    Kept R J s blocks w s' lists' blocks' :=
  ⟨h.inv, h.use.extends, h.lock, h.keeps⟩

/-! ## The two halves of a turn -/

theorem Inv.listFirstEntry_eq {k p : ℕ} (h : Inv R s.buddy lists blocks w)
    (hk : k ≤ buddyMaxOrder) (hl : lists k = p :: ps) : listFirstEntry s k = .ok p := by
  have hring := h.rings.ring k hk
  simp only [hl, List.map_cons] at hring
  unfold listFirstEntry
  rw [hring.next_head rfl]
  rfl

theorem splitUnlink_spec {k p : ℕ} (h : Inv R s.buddy lists blocks w) (hk : k ≤ buddyMaxOrder)
    (hl : lists k = p :: ps) :
    ∃ i, pageAddr i = s.buddy.start p ∧
      splitUnlink k s = .ok (p, i, setLinks (·.del (.block p)) s) ∧
      Inv R (setLinks (·.del (.block p)) s).buddy (update lists k ps)
        (update blocks (pageAddr i) (some (k, .held p))) (w + 2 ^ k) := by
  have hfree := h.free_of_mem hk (show p ∈ lists k by simp [hl])
  obtain ⟨i, hi, hindex⟩ := h.index hfree
  have horder : (s.buddy.pages i).order = k := h.page_order i k _ (hi ▸ hfree)
  refine ⟨i, hi, ?_, h.unlink hk (show lists k = [] ++ p :: ps from hl) hi⟩
  unfold splitUnlink
  rw [h.listFirstEntry_eq hk hl]
  simp only [ok_bind, addr2page_eq hindex, horder, ne_eq, not_true_eq_false, if_false]

/-- The blocks after the halves of the block at `lo` are listed. -/
def halved (blocks : Blocks) (lo k p q : ℕ) : Blocks :=
  update (update blocks lo (some (k, .free p))) (lo + 2 ^ exponent k) (some (k, .free q))

theorem splitRelink_spec {k p i q : ℕ} (h : Inv R s.buddy lists blocks (w + 2 ^ (k + 1)))
    (ha : blocks (pageAddr i) = some (k + 1, .held p)) (hq : q ∉ blocks.ptrs) :
    ∃ s', splitRelink k p i q s = .ok s' ∧ s'.buddy.lock = s.buddy.lock ∧ s'.rest = s.rest ∧
      Inv R s'.buddy (update lists k (lists k ++ [p] ++ [q]))
        (halved blocks (pageAddr i) k p q) w := by
  have hstart : s.buddy.start p = pageAddr i := h.held_start _ _ p ha
  have hdvd : 2 ^ (exponent k + 1) ∣ pageAddr i := h.dvd ha
  have hup : getBuddyAddr (pageAddr i) k = pageAddr i + 2 ^ exponent k := by
    rw [getBuddyAddr_eq, buddy_lower hdvd]
  have hregion : R.base ≤ pageAddr i + 2 ^ exponent k ∧ pageAddr i + 2 ^ exponent k < R.limit :=
    (h.tiling.cover _).mpr ⟨_, _, size_eq ha, inBlock_halves.mpr (Or.inr (inBlock_self _ _))⟩
  obtain ⟨j, hj, hindex⟩ := h.region.index hregion.1 hregion.2
    (Nat.dvd_add ((pow_dvd_pow 2 (show pageShift ≤ exponent k + 1 by unfold exponent; omega)).trans
      hdvd) (pow_dvd_pow 2 (Nat.le_add_right _ _)))
  have hne : i ≠ j := by
    rintro rfl
    omega
  have hpriv : (s.buddy.pages i).priv = some p := by
    rw [h.page_priv i, ha]
    rfl
  let s1 : Mm κ := setPage j (fun page => { page with priv := some q })
    (setPage j (fun page => { page with order := k })
      (setStart q (pageAddr i + 2 ^ exponent k)
        (setPage i (fun page => { page with order := k }) s)))
  have hhalf : Inv R s1.buddy lists (update (update blocks (pageAddr i)
      (some (k, .held p))) (pageAddr j) (some (k, .held q))) (w + 2 ^ k + 2 ^ k) := by
    rw [Nat.add_assoc, ← Nat.mul_two, ← pow_succ]
    refine h.halve hj ?_ ?_ rfl rfl ha hq ?_ ?_ ?_ ?_
    · intro m hi hj
      simp [s1, hi, hj]
    · simp [s1, hne, hpriv]
    · simp [s1, hne]
    · simp [s1]
    · simp [s1]
    · simp [s1, hj]
  let s2 := setLinks (·.addTail (.block p) (.head k)) s1
  have hfirst : Inv R s2.buddy _ _ (w + 2 ^ k) :=
    hhalf.relink_addTail (i := i) (p := p)
      (by rw [update_of_ne (pageAddr_injective.ne hne), update_self])
  have hsecond : Inv R (setLinks (·.addTail (.block q) (.head k)) s2).buddy _ _ w :=
    hfirst.relink_addTail (i := j) (p := q)
      (by rw [update_of_ne (pageAddr_injective.ne hne.symm), update_self])
  refine ⟨setLinks (·.addTail (.block q) (.head k)) s2, ?_, rfl, rfl, ?_⟩
  · unfold splitRelink
    simp only [setPage_buddy, hstart, hup, setStart_buddy, update_self,
      addr2page_eq hindex, ok_bind]
    rfl
  · have hblocks : update (update (update (update blocks
        (pageAddr i) (some (k, .held p))) (pageAddr j) (some (k, .held q))) (pageAddr i)
          (some (k, .free p))) (pageAddr j) (some (k, .free q)) =
        halved blocks (pageAddr i) k p q := by
      rw [update_comm (pageAddr_injective.ne hne), update_idem,
        update_comm (pageAddr_injective.ne hne.symm), update_idem, hj]
      rfl
    rw [hblocks, update_self, update_idem] at hsecond
    exact hsecond

/-! ## A turn of the loop -/

section Halved

variable {lo k p q : ℕ}

theorem halved_lower : halved blocks lo k p q lo = some (k, .free p) := by
  have hpos := Nat.two_pow_pos (exponent k)
  unfold halved
  rw [update_of_ne (by omega), update_self]

theorem halved_upper : halved blocks lo k p q (lo + 2 ^ exponent k) = some (k, .free q) :=
  update_self _ _ _

theorem halved_other (hlo : x ≠ lo) (hhi : x ≠ lo + 2 ^ exponent k) :
    halved blocks lo k p q x = blocks x := by
  unfold halved
  rw [update_of_ne hhi, update_of_ne hlo]

theorem Inv.upper_none (h : Inv R b lists blocks w) (ha : blocks lo = some (k + 1, st)) :
    blocks (lo + 2 ^ exponent k) = none := by
  have hpos := Nat.two_pow_pos (exponent k)
  have hs := h.tiling.inside_none (size_eq ha)
    (inBlock_halves.mpr (Or.inr (inBlock_self _ _))) (show lo + 2 ^ exponent k ≠ lo by omega)
  simpa [Blocks.size] using hs

theorem halved_iff (h : Inv R b lists blocks w) (ha : blocks lo = some (k + 1, .held p)) {j : ℕ}
    (hst : ∀ r, st ≠ .free r) :
    halved blocks lo k p q x = some (j, st) ↔ x ≠ lo ∧ blocks x = some (j, st) := by
  by_cases hlo : x = lo
  · subst hlo
    rw [halved_lower]
    simp only [Option.some.injEq, Prod.mk.injEq, ne_eq, not_true_eq_false, false_and, iff_false,
      not_and]
    exact fun _ he => hst p he.symm
  · by_cases hhi : x = lo + 2 ^ exponent k
    · subst hhi
      rw [halved_upper, h.upper_none ha]
      simp only [Option.some.injEq, Prod.mk.injEq, reduceCtorEq, and_false, iff_false, not_and]
      exact fun _ he => hst q he.symm
    · rw [halved_other hlo hhi]
      exact (and_iff_right hlo).symm

theorem live_halved (h : Inv R b lists blocks w) (ha : blocks lo = some (k + 1, .held p)) :
    (halved blocks lo k p q).live = blocks.live := by
  unfold halved
  rw [live_update, live_update, update_eq_self_iff.mpr, update_eq_self_iff.mpr]
  · simp [live, ha]
  · simp [live, h.upper_none ha]

theorem ptrs_halved (ha : blocks lo = some (k + 1, .held p)) :
    (halved blocks lo k p q).ptrs ⊆ insert q blocks.ptrs := by
  have hlower : ptrs (update blocks lo (some (k, .free p))) ⊆ blocks.ptrs := ptrs_restatus ha rfl
  intro r hr
  rcases ptrs_update hr with hr | ⟨x, j, st, -, hx, hr⟩
  · exact Or.inl (Option.some.inj hr).symm
  · exact Or.inr (hlower ⟨x, j, st, hx, hr⟩)

/-- A turn of the loop from the blocks before it, through those around the metadata
allocation, to those after it. -/
theorem extends_split {blocks1 : Blocks} (ha : blocks lo = some (k + 1, .free p))
    (huse : Extends (update blocks lo (some (k + 1, .held p))) blocks1)
    (h1 : Inv R b lists blocks1 w) : Extends blocks (halved blocks1 lo k p q) := by
  have hheld : blocks1 lo = some (k + 1, .held p) :=
    (huse.held lo (k + 1) p).mpr (update_self _ _ _)
  refine ⟨?_, ?_⟩
  · intro a j r
    rw [halved_iff h1 hheld (by simp), huse.held]
    by_cases hlo : a = lo
    · subst hlo
      simp [ha]
    · simp [hlo]
  · intro a j haj
    have hlo : a ≠ lo := by
      rintro rfl
      rw [ha] at haj
      simp at haj
    rw [halved_iff h1 hheld (by simp)]
    refine ⟨hlo, huse.live a j ?_⟩
    rw [update_of_ne hlo]
    exact haj

end Halved

/-- The blocks at the metadata allocation of a turn. -/
abbrev unlinked (blocks : Blocks) (a k p : ℕ) : Blocks := update blocks a (some (k, .held p))

theorem splitStep_spec {md : Metadata κ} {J : Keeps κ} {Safe : Mm κ → Blocks → Prop}
    (hfree : md.Frees J) (halloc : md.Allocs R J Safe) {k p : ℕ}
    (h : Inv R s.buddy lists blocks w) (hk : k + 1 ≤ buddyMaxOrder) (hl : lists (k + 1) = p :: ps)
    (hlock : Usable s.buddy.lock) (hJ : J.At s blocks)
    (hsafe : Safe (setLinks (·.del (.block p)) s) (unlinked blocks (s.buddy.start p) (k + 1) p)) :
    ∃ s' lists' blocks', splitStep md (k + 1) s = .ok s' ∧
      Kept R J s blocks w s' lists' blocks' ∧ lists' k ≠ [] := by
  obtain ⟨i, hi, hunlink, h1⟩ := splitUnlink_spec h hk hl
  have ha : blocks (pageAddr i) = some (k + 1, .free p) := by
    rw [hi]
    exact h.free_of_mem hk (by simp [hl])
  have hJ1 : J (unlinked blocks (pageAddr i) (k + 1) p).live s.rest
      (unlinked blocks (pageAddr i) (k + 1) p).ptrs := by
    rw [live_update, update_eq_self_iff.mpr (by simp [live, ha])]
    exact hfree.mono _ _ _ _ hJ (ptrs_restatus ha rfl)
  obtain ⟨q, s2, lists2, blocks2, hrun, hgot⟩ :=
    halloc _ _ _ _ h1 hlock hJ1 (by rw [hi]; exact hsafe)
  have hheld : blocks2 (pageAddr i) = some (k + 1, .held p) :=
    (hgot.use.held _ _ _).mpr (update_self _ _ _)
  obtain ⟨s', hrelink, hlock', hrest, hinv⟩ := splitRelink_spec hgot.inv hheld (q := q) hgot.fresh
  refine ⟨s', _, _, ?_, ⟨hinv, extends_split ha hgot.use hgot.inv, ?_, ?_⟩, ?_⟩
  · unfold splitStep
    rw [hunlink]
    simp only [ok_bind, hrun, Nat.add_sub_cancel, hrelink]
  · rw [hlock', hgot.lock]
    rfl
  · rw [Keeps.At, hrest, live_halved hgot.inv hheld]
    exact hfree.mono _ _ _ _ hgot.keeps (ptrs_halved hheld)
  · simp

/-! ## The loop -/

/-- At every turn of the loop the state in which the metadata is allocated satisfies
`P`, with the order and the `mem_block` of the block that the turn holds. -/
def SplitSafe (md : Metadata κ) (P : Mm κ → ℕ → ℕ → Prop) (targetOrder : ℕ) : ℕ → Mm κ → Prop
  | 0, _ => True
  | n + 1, s =>
    (∀ p i s1, splitUnlink (targetOrder + n + 1) s = .ok (p, i, s1) →
      P s1 (targetOrder + n + 1) p) ∧
    ∀ s', splitStep md (targetOrder + n + 1) s = .ok s' → SplitSafe md P targetOrder n s'

/-- With the blocks `held` by outer calls, `P` makes the metadata allocation safe. -/
def SafeBy (R : Region) (Safe : Mm κ → Blocks → Prop) (P : Mm κ → ℕ → ℕ → Prop)
    (held : ℕ → ℕ → ℕ → Prop) : Prop :=
  ∀ s lists blocks w a k p, Inv R s.buddy lists blocks w →
    (∀ c j r, blocks c = some (j, .held r) ↔ (c = a ∧ j = k ∧ r = p) ∨ held c j r) →
      P s k p → Safe s blocks

/-- The blocks held in a state are those of the outer calls. -/
def HeldBy (held : ℕ → ℕ → ℕ → Prop) (blocks : Blocks) : Prop :=
  ∀ a k p, blocks a = some (k, .held p) ↔ held a k p

theorem HeldBy.of_extends {held : ℕ → ℕ → ℕ → Prop} (h : HeldBy held blocks)
    (huse : Extends blocks blocks') : HeldBy held blocks' :=
  fun a k p => (huse.held a k p).trans (h a k p)

theorem HeldBy.of_unlinked {held : ℕ → ℕ → ℕ → Prop} {a k p q : ℕ} (h : HeldBy held blocks)
    (ha : blocks a = some (k, .free q)) (c j r : ℕ) :
    unlinked blocks a k p c = some (j, .held r) ↔ (c = a ∧ j = k ∧ r = p) ∨ held c j r := by
  by_cases hc : c = a
  · subst hc
    have hno : ¬ held c j r := by
      rw [← h, ha]
      simp
    simp only [unlinked, update_self, Option.some.injEq, Prod.mk.injEq,
      Status.held.injEq, true_and, hno, or_false]
    tauto
  · simp only [unlinked, update_of_ne hc, hc, false_and, false_or]
    exact h c j r

section Loop

variable {md : Metadata κ} {J : Keeps κ} {Safe : Mm κ → Blocks → Prop}
  {P : Mm κ → ℕ → ℕ → Prop} {held : ℕ → ℕ → ℕ → Prop}

theorem splitLoop_spec (hfree : md.Frees J) (halloc : md.Allocs R J Safe)
    (hP : SafeBy R Safe P held) (t n : ℕ) :
    ∀ (s : Mm κ) (lists : ℕ → List ℕ) (blocks : Blocks), t + n ≤ buddyMaxOrder →
      Inv R s.buddy lists blocks w → HeldBy held blocks → Usable s.buddy.lock →
      J.At s blocks → lists (t + n) ≠ [] →
      SplitSafe md P t n s →
      ∃ s' lists' blocks', splitLoop md t n s = .ok s' ∧
        Kept R J s blocks w s' lists' blocks' ∧ lists' t ≠ [] := by
  induction n with
  | zero =>
    intro s lists blocks _ h _ _ hJ hne _
    exact ⟨s, lists, blocks, rfl, ⟨h, Extends.refl _, rfl, hJ⟩, hne⟩
  | succ n ih =>
    intro s lists blocks hn h hheld hlock hJ hne hsafe
    obtain ⟨p, ps, hl⟩ := List.exists_cons_of_ne_nil hne
    obtain ⟨i, hi, hunlink, hinv⟩ := splitUnlink_spec h hn hl
    have hP' : Safe (setLinks (·.del (.block p)) s)
        (unlinked blocks (s.buddy.start p) (t + n + 1) p) := by
      rw [← hi]
      refine hP _ _ _ _ (pageAddr i) (t + n + 1) p hinv ?_ (hsafe.1 p i _ hunlink)
      exact hheld.of_unlinked (hi ▸ h.free_of_mem hn (by simp [hl]))
    obtain ⟨s1, lists1, blocks1, hrun1, hkept1, hne1⟩ : ∃ s1 lists1 blocks1,
        splitStep md (t + n + 1) s = .ok s1 ∧ Kept R J s blocks w s1 lists1 blocks1 ∧
          lists1 (t + n) ≠ [] := splitStep_spec hfree halloc h hn hl hlock hJ hP'
    obtain ⟨s', lists', blocks', hrun, hkept, hne'⟩ :=
      ih s1 lists1 blocks1 (by omega) hkept1.inv (hheld.of_extends hkept1.use)
        (hkept1.lock ▸ hlock) hkept1.keeps hne1 (hsafe.2 s1 hrun1)
    refine ⟨s', lists', blocks', ?_, hkept1.trans hkept, hne'⟩
    rw [splitLoop, hrun1]
    exact hrun

end Loop

/-- The search for a larger block stops at the first list that is not empty. -/
theorem sourceOrder_spec (h : Inv R s.buddy lists blocks w) (n : ℕ) :
    ∀ source, source ≤ buddyMaxOrder + 1 → buddyMaxOrder + 1 ≤ source + n →
      source ≤ sourceOrder s n source ∧ sourceOrder s n source ≤ buddyMaxOrder + 1 ∧
      (∀ j, source ≤ j → j < sourceOrder s n source → lists j = []) ∧
      (sourceOrder s n source ≤ buddyMaxOrder → lists (sourceOrder s n source) ≠ []) := by
  induction n with
  | zero =>
    intro source hle hge
    simp only [sourceOrder]
    exact ⟨le_rfl, hle, fun j h1 h2 => absurd h2 (by omega), fun hlt => absurd hlt (by omega)⟩
  | succ n ih =>
    intro source hle hge
    by_cases hcond : source ≤ buddyMaxOrder ∧ listEmpty s source = true
    · rw [sourceOrder, if_pos hcond]
      obtain ⟨h1, h2, h3, h4⟩ := ih (source + 1) (by omega) (by omega)
      refine ⟨by omega, h2, ?_, h4⟩
      intro j hj hlt
      rcases Nat.eq_or_lt_of_le hj with rfl | hj
      · exact (h.listEmpty_iff hcond.1).mp hcond.2
      · exact h3 j hj hlt
    · rw [sourceOrder, if_neg hcond]
      refine ⟨le_rfl, hle, fun j h1 h2 => absurd h2 (by omega), ?_⟩
      intro hsource hempty
      exact hcond ⟨hsource, (h.listEmpty_iff hsource).mpr hempty⟩

/-- The turns of the loop of `split_blocks` from a state, if it reaches the loop. -/
def SplitBlocksSafe (md : Metadata κ) (P : Mm κ → ℕ → ℕ → Prop) (targetOrder : ℕ)
    (s : Mm κ) : Prop :=
  sourceOrder s (buddyMaxOrder + 1) (targetOrder + 1) ≤ buddyMaxOrder →
    SplitSafe md P targetOrder (sourceOrder s (buddyMaxOrder + 1) (targetOrder + 1) - targetOrder) s

/-- `split_blocks` lists a block of the order unless there is no larger free block. -/
theorem splitBlocks_spec {md : Metadata κ} {J : Keeps κ} {Safe : Mm κ → Blocks → Prop}
    {P : Mm κ → ℕ → ℕ → Prop} {held : ℕ → ℕ → ℕ → Prop} (hfree : md.Frees J)
    (halloc : md.Allocs R J Safe) (hP : SafeBy R Safe P held) {t : ℕ} (ht : t ≤ buddyMaxOrder)
    (h : Inv R s.buddy lists blocks w) (hheld : HeldBy held blocks) (hlock : Usable s.buddy.lock)
    (hJ : J.At s blocks) (hsafe : SplitBlocksSafe md P t s) :
    ∃ s' lists' blocks', splitBlocks md t s = .ok s' ∧
      Kept R J s blocks w s' lists' blocks' ∧
      (lists' t ≠ [] ∨ s' = s ∧ lists' = lists ∧ blocks' = blocks ∧
        ∀ j, t < j → j ≤ buddyMaxOrder → lists j = []) := by
  obtain ⟨hle, hmax, hbelow, hfound⟩ :=
    sourceOrder_spec h (buddyMaxOrder + 1) (t + 1) (by omega) (by omega)
  unfold splitBlocks
  by_cases hsource : sourceOrder s (buddyMaxOrder + 1) (t + 1) > buddyMaxOrder
  · refine ⟨s, lists, blocks, by simp only [if_pos hsource], ⟨h, Extends.refl _, rfl, hJ⟩,
      Or.inr ⟨rfl, rfl, rfl, ?_⟩⟩
    intro j hj hjm
    exact hbelow j hj (by omega)
  · have hadd : t + (sourceOrder s (buddyMaxOrder + 1) (t + 1) - t) =
        sourceOrder s (buddyMaxOrder + 1) (t + 1) := by omega
    obtain ⟨s', lists', blocks', hrun, hkept, hne⟩ :=
      splitLoop_spec hfree halloc hP t (sourceOrder s (buddyMaxOrder + 1) (t + 1) - t) s lists
        blocks (by omega) h hheld hlock hJ (by rw [hadd]; exact hfound (by omega)) (hsafe (by omega))
    exact ⟨s', lists', blocks', by simp only [if_neg hsource, hrun], hkept, Or.inl hne⟩

end NoobKernel.Buddy
