import NoobKernel.Verification.PageTable.Spaces

/-! # Pages of a group of tables -/

namespace NoobKernel.Vm

open List Nat

section

variable {m m' m'' : Memory} {roots : ℕ → Prop} {group : List ℕ} {r va pa : ℕ}

/-- The tables of a group have changed at one page. -/
structure Written (roots : ℕ → Prop) (group : List ℕ) (va : ℕ) (m m' : Memory) : Prop where
  spaces : Spaces m' roots
  same : ∀ r va', roots r → r ∉ group ∨ vpn va' ≠ vpn va → pteOf r va' m' = pteOf r va' m
  used : ∀ a, m.used a = true → m'.used a = true
  isFrame : ∀ a, IsFrame m roots a → IsFrame m' roots a

namespace Written

theorem refl (h : Spaces m roots) : Written roots group va m m :=
  ⟨h, fun _ _ _ _ => rfl, fun _ hu => hu, fun _ ha => ha⟩

theorem trans (h : Written roots group va m m') (h' : Written roots group va m' m'') :
    Written roots group va m m'' :=
  ⟨h'.spaces, fun r va' hr hva => (h'.same r va' hr hva).trans (h.same r va' hr hva),
    fun a hu => h'.used a (h.used a hu), fun a ha => h'.isFrame a (h.isFrame a ha)⟩

theorem mono {group' : List ℕ} (h : Written roots group va m m') (hsub : group ⊆ group') :
    Written roots group' va m m' := by
  refine ⟨h.spaces, fun r va' hr hva => h.same r va' hr ?_, h.used, h.isFrame⟩
  exact hva.imp_left (fun hnot hmem => hnot (hsub hmem))

theorem pteOf_eq (h : Written roots group va m m')
    (hsame : ∀ r ∈ group, pteOf r va m' = pteOf r va m) (hr : roots r) (va' : ℕ) :
    pteOf r va' m' = pteOf r va' m := by
  by_cases hat : r ∈ group ∧ vpn va' = vpn va
  · rw [pteOf_congr hat.2, hsame r hat.1, pteOf_congr hat.2]
  · exact h.same r va' hr (not_and_or.mp hat)

theorem of_grown (h : Spaces m roots) (hr : roots r) (hgrown : Grown r (AtPage va) m m')
    (hnew : IsMapped r va m' → pteOf r va m' = pteOf r va m ∨
      IsLeaf (pteOf r va m') ∧ IsFrame m roots (frameOf r va m')) :
    Written roots [r] va m m' := by
  have hedit := hgrown.toEdited
  refine ⟨h.edit hr hedit ?_, ?_, hedit.used, fun a ha => h.isFrame_edit hr hedit ha⟩
  · intro va' hat hv
    rw [IsMapped, pteOf_congr hat] at hv
    rw [frameOf, pteOf_congr hat]
    rcases hnew hv with hsame | ⟨hleaf, hframe⟩
    · rw [hsame] at hv ⊢
      exact ⟨h.leaf r va hr hv, h.isFrame_edit hr hedit (h.frame r va hr hv)⟩
    · exact ⟨hleaf, h.isFrame_edit hr hedit hframe⟩
  · intro r' va' hr' hout
    by_cases hne : r' = r
    · subst hne
      exact hedit.same va' (hout.resolve_left (fun hnot => hnot mem_cons_self))
    · exact h.pteOf_other hr hedit hr' hne va'

end Written

/-! ## Loops over a group -/

/-- What an action does to a table: it fails and changes no entry, or the entry `pte` of the
page, of which `C` holds, becomes `g pte`. -/
def Acts (roots : ℕ → Prop) (va : ℕ) (frames : List ℕ) (C : ℕ → Prop) (g : ℕ → ℕ)
    (f : ℕ → Memory → ℤ × Memory) : Prop :=
  ∀ r m, roots r → Spaces m roots → (∀ a ∈ frames, IsFrame m roots a) →
    ∃ res m', f r m = (res, m') ∧ Written roots [r] va m m' ∧
      (res ≠ 0 ∧ pteOf r va m' = pteOf r va m ∨
        res = 0 ∧ C (pteOf r va m) ∧ pteOf r va m' = g (pteOf r va m))

theorem forEach_group {frames : List ℕ} {C : ℕ → Prop} {g : ℕ → ℕ}
    {f : ℕ → Memory → ℤ × Memory} (hf : Acts roots va frames C g f) (group : List ℕ) :
    ∀ m, (∀ r ∈ group, roots r) → group.Nodup → Spaces m roots →
    (∀ a ∈ frames, IsFrame m roots a) →
    ∃ res m', forEach f group m = (res, m') ∧ Written roots group va m m' ∧
      (res = 0 → ∀ r ∈ group, C (pteOf r va m) ∧ pteOf r va m' = g (pteOf r va m)) := by
  induction group with
  | nil =>
    intro m _ _ h _
    exact ⟨0, m, rfl, Written.refl h, fun _ r hr => absurd hr not_mem_nil⟩
  | cons r0 group ih =>
    intro m hroots hnodup h hframes
    have hr0 := hroots r0 mem_cons_self
    have hrest := fun r hr => hroots r (mem_cons_of_mem r0 hr)
    obtain ⟨hnot, hnodup'⟩ := nodup_cons.mp hnodup
    obtain ⟨res, m1, heq, hw, hres⟩ := hf r0 m hr0 h hframes
    have hw0 : Written roots (r0 :: group) va m m1 := hw.mono (by simp)
    -- the rest of the group has not been reached
    have hlater : ∀ r ∈ group, pteOf r va m1 = pteOf r va m := by
      intro r hr
      refine hw.same r va (hrest r hr) (Or.inl ?_)
      rw [mem_singleton]
      rintro rfl
      exact hnot hr
    rw [forEach, heq]
    rcases hres with ⟨herr, -⟩ | ⟨rfl, hC, hnew⟩
    · rw [if_pos herr]
      exact ⟨res, m1, rfl, hw0, fun hzero => absurd hzero herr⟩
    rw [if_neg (not_not.mpr rfl)]
    obtain ⟨res, m2, heq', hw', hok⟩ := ih m1 hrest hnodup' hw.spaces
      (fun a ha => hw.isFrame a (hframes a ha))
    have hhead : pteOf r0 va m2 = g (pteOf r0 va m) :=
      (hw'.same r0 va hr0 (Or.inl hnot)).trans hnew
    refine ⟨res, m2, heq', hw0.trans (hw'.mono (subset_cons_self _ _)), fun hzero r hr => ?_⟩
    rcases mem_cons.mp hr with rfl | hr
    · exact ⟨hC, hhead⟩
    · rw [← hlater r hr]
      exact hok hzero r hr

theorem leafPte_frame {perm : ℕ} (hpa : IsPage pa) (hperm : perm < 256)
    (hleaf : perm &&& (pteR ||| pteW ||| pteX) ≠ 0) :
    leafPte pa perm &&& pteV ≠ 0 ∧ IsLeaf (leafPte pa perm) ∧ pte2pa (leafPte pa perm) = pa := by
  refine ⟨leafPte_valid hpa.holds hperm, ?_, ?_⟩
  · intro hzero
    rw [leafPte_eq, and_eq_flags (by decide), pteFlags_or hpa.holds (leafFlags_lt hperm),
      leafFlags] at hzero
    simp only [and_or_distrib_right, or_eq_zero_iff] at hzero
    exact hleaf (by simpa only [and_or_distrib_left, or_eq_zero_iff] using hzero.1.1.1)
  · rw [leafPte_eq, pte2pa_or hpa.holds (leafFlags_lt hperm)]

/-! ## The actions -/

theorem notMapped_zero {pt : ℕ} (h : pteOf pt va m = 0) : ¬ IsMapped pt va m := by
  rw [IsMapped, h]
  exact not_not.mpr rfl

theorem notMapped_reserved {pt : ℕ} (h : pteOf pt va m = pteMmapReserved) : ¬ IsMapped pt va m := by
  rw [IsMapped, h]
  decide

/-- Flags of pages: some access, and no bit that `mappages` masks out. -/
structure IsPerm (perm : ℕ) : Prop where
  lt : perm < 256
  access : perm &&& (pteR ||| pteW ||| pteX) ≠ 0

theorem IsPerm.mask {perm : ℕ} (h : IsPerm perm) : perm &&& permMask = perm := by
  rw [show permMask = 2 ^ 8 - 1 by decide, and_two_pow_sub_one_eq_mod]
  exact mod_eq_of_lt h.lt

theorem acts_mappages {perm : ℕ} (hperm : IsPerm perm) :
    Acts roots va [pa] (fun pte => pte &&& pteV = 0) (fun _ => leafPte pa perm)
      (fun pt => mappages pt va pa 1 perm) := by
  intro r m hr h hframes
  have hpa := hframes pa mem_cons_self
  obtain ⟨res, m', heq, hgrown, hres⟩ := (h.table r hr).mapPage va pa perm
  rw [hperm.mask] at hres
  obtain ⟨-, hleaf, hframe⟩ := leafPte_frame hpa.isPage hperm.lt hperm.access
  refine ⟨res, m', heq, Written.of_grown h hr hgrown (fun _ => ?_), ?_⟩
  · refine hres.imp (fun hfail => hfail.2 va) (fun hok => ?_)
    rw [frameOf, hok.2.2, hframe]
    exact ⟨hleaf, hpa⟩
  · exact hres.imp (fun hfail => ⟨hfail.1, hfail.2 va⟩)
      (fun hok => ⟨hok.1, not_not.mp hok.2.1, hok.2.2⟩)

theorem acts_reservePage :
    Acts roots va [] (fun _ => True) (fun _ => pteMmapReserved) (reservePage va) := by
  intro r m hr h _
  obtain ⟨res, m', heq, hgrown, hres⟩ := (h.table r hr).reservePage va
  refine ⟨res, m', heq, Written.of_grown h hr hgrown (fun hv => ?_), ?_⟩
  · exact hres.imp (fun hfail => hfail.2 va) (fun hok => absurd hv (notMapped_reserved hok.2))
  · exact hres.imp (fun hfail => ⟨hfail.1, hfail.2 va⟩) (fun hok => ⟨hok.1, trivial, hok.2⟩)

theorem acts_unmapPage (hva : va < wordSize) :
    Acts roots va [] (fun _ => True) (fun _ => 0) (fun pt m => (0, unmapPage va pt m)) := by
  intro r m hr h _
  obtain ⟨hgrown, hzero⟩ := (h.table r hr).unmapPage hva
  refine ⟨0, _, rfl, Written.of_grown h hr hgrown (fun hv => ?_), Or.inr ⟨rfl, trivial, hzero⟩⟩
  exact absurd hv (notMapped_zero hzero)

theorem acts_protectPage {perm : ℕ} (hperm : IsPerm perm) :
    Acts roots va [] (fun pte => pte &&& pteV ≠ 0) (fun pte => leafPte (pte2pa pte) perm)
      (protectPage va perm) := by
  intro r m hr h _
  rcases (h.table r hr).protectPage va perm with ⟨-, heq⟩ | ⟨hv, m', heq, hgrown, hnew⟩
  · exact ⟨_, m, heq, Written.refl h, Or.inl ⟨by decide, rfl⟩⟩
  have hframe := h.frame r va hr hv
  obtain ⟨-, hleaf, hpa⟩ := leafPte_frame hframe.isPage hperm.lt hperm.access
  refine ⟨0, m', heq, Written.of_grown h hr hgrown (fun _ => Or.inr ?_), Or.inr ⟨rfl, hv, hnew⟩⟩
  rw [frameOf, hnew, hpa]
  exact ⟨hleaf, hframe⟩

theorem sharedUnmapPage_eq (group : List ℕ) (m : Memory) :
    forEach (fun pt m => (0, unmapPage va pt m)) group m = (0, sharedUnmapPage group va m) := by
  induction group generalizing m with
  | nil => rfl
  | cons r group ih =>
    rw [forEach, if_neg (not_not.mpr rfl), ih]
    rfl

/-! ## New pages -/

/-- A new page for an address, which is given back when it cannot be mapped. -/
def mapNew (tables : List ℕ) (perm a : ℕ) (m : Memory) : ℤ × Memory :=
  match kzalloc m with
  | (none, m) => (-enomem, m)
  | (some pa, m) =>
    let r := sharedMapPage tables a pa perm m
    if r.1 ≠ 0 then (-enomem, kfree pa r.2) else (0, r.2)

theorem growPage_eq (own : ℕ) (tables : List ℕ) (a : ℕ) (m : Memory) : growPage own tables a m =
    if walkaddr own a m ≠ 0 then (0, m) else mapNew tables (pteR ||| pteW ||| pteU) a m := rfl

end

/-! ## Calls that do not run out of pages -/

open Library Library.Radix Function

variable {m m' : Memory} {r va pa perm n : ℕ}

/-- The next `n` answers of the allocator are pages. -/
def Plenty : ℕ → Memory → Prop
  | 0, _ => True
  | n + 1, m => (kzalloc m).1.isSome = true ∧ Plenty n (kzalloc m).2

instance decidablePlenty : ∀ n m, Decidable (Plenty n m)
  | 0, _ => .isTrue trivial
  | n + 1, m => @instDecidableAnd _ _ _ (decidablePlenty n (kzalloc m).2)

namespace Plenty

theorem succ (h : Plenty (n + 1) m) : ∃ pa m', kzalloc m = (some pa, m') ∧ Plenty n m' := by
  obtain ⟨hsome, hrest⟩ := h
  obtain ⟨pa, hpa⟩ := Option.isSome_iff_exists.mp hsome
  exact ⟨pa, (kzalloc m).2, by rw [← hpa], hrest⟩

theorem mono {k : ℕ} (hle : k ≤ n) (h : Plenty n m) : Plenty k m := by
  induction n generalizing m k with
  | zero =>
    obtain rfl := le_zero.mp hle
    trivial
  | succ n ih =>
    cases k with
    | zero => trivial
    | succ k => exact ⟨h.1, ih (le_of_succ_le_succ hle) h.2⟩

theorem of_free (h : Plenty n m) (hans : m'.answers = m.answers)
    (hfree : ∀ a, m.used a = false → m'.used a = false) : Plenty n m' := by
  induction n generalizing m m' with
  | zero => trivial
  | succ n ih =>
    obtain ⟨hsome, hrest⟩ := h
    unfold kzalloc at hsome hrest
    cases hlist : m.answers with
    | nil => simp [hlist] at hsome
    | cons pa answers =>
      simp only [hlist] at hsome hrest
      by_cases hpa : IsPage pa ∧ m.used pa = false
      · rw [if_pos hpa] at hrest
        have hkz : kzalloc m' = (some pa, ⟨update m'.word pa (fun _ => 0),
            update m'.used pa true, answers⟩) := by
          simp only [kzalloc, hans, hlist, if_pos (And.intro hpa.1 (hfree pa hpa.2))]
        rw [Plenty, hkz]
        refine ⟨rfl, ih hrest rfl (fun a ha => ?_)⟩
        by_cases he : a = pa
        · subst he
          exact absurd ha (by simp)
        · exact (update_of_ne he _ _).trans (hfree a ((update_of_ne he _ _).symm.trans ha))
      · rw [if_neg hpa] at hsome
        cases hsome

theorem va2pteLevel (va level : ℕ) : ∀ pt m, Plenty (n + level) m →
    ∃ loc m', va2pteLevel va true level pt m = (some loc, m') ∧ Plenty n m' := by
  induction level with
  | zero =>
    intro pt m h
    exact ⟨_, m, rfl, h⟩
  | succ level ih =>
    intro pt m h
    unfold Vm.va2pteLevel
    by_cases hv : m.word pt (px (level + 1) va) &&& pteV ≠ 0
    · rw [if_pos hv]
      exact ih _ m (h.mono (le_succ _))
    rw [if_neg hv]
    obtain ⟨page, m1, hkz, hrest⟩ := h.succ
    rw [hkz]
    exact ih _ _ (hrest.of_free rfl (fun _ hf => hf))

theorem va2pte (h : Plenty (n + 2) m) (pt va : ℕ) :
    ∃ loc m', va2pte pt va true m = (some loc, m') ∧ Plenty n m' :=
  Plenty.va2pteLevel va 2 pt m h

end Plenty

/-! ## Actions on a table -/

/-- An action that has been possible once succeeds on each table whose entry has `C`, with `k`
pages at hand. -/
def Reliable (va k : ℕ) (C : ℕ → Prop) (f : ℕ → Memory → ℤ × Memory) : Prop :=
  ∀ r0 m0 r m n, (f r0 m0).1 = 0 → Table m r → C (pteOf r va m) → Plenty (n + k) m →
    (f r m).1 = 0 ∧ Plenty n (f r m).2

theorem reliable_reservePage : Reliable va 2 (fun _ => True) (reservePage va) := by
  intro r0 m0 r m n _ _ _ hp
  obtain ⟨loc, m', hloc, hrest⟩ := hp.va2pte r va
  rw [reservePage, hloc]
  exact ⟨rfl, hrest.of_free rfl (fun _ hf => hf)⟩

theorem reliable_protectPage :
    Reliable va 0 (fun pte => pte &&& pteV ≠ 0) (protectPage va perm) := by
  intro r0 m0 r m n _ h hv hp
  rcases h.protectPage va perm with ⟨hnot, -⟩ | ⟨-, m', heq, -⟩
  · exact absurd hv hnot
  refine ⟨by rw [heq], hp.of_free ?_ ?_⟩
  · unfold protectPage
    split
    · rfl
    · split <;> rfl
  · intro a hf
    unfold protectPage
    split
    · exact hf
    · split <;> exact hf

theorem reliable_mappages : Reliable va 2 (fun pte => pte &&& pteV = 0)
    (fun pt => mappages pt va pa 1 perm) := by
  intro r0 m0 r m n hok h hv hp
  have hroot := h.root_ne_zero
  have hroot0 : r0 ≠ 0 := by
    rintro rfl
    cases hok
  dsimp only at hok ⊢
  rcases mappages_one va pa perm with ⟨e, he, hfail⟩ | hloop
  · rw [hfail r0 m0 hroot0] at hok
    exact absurd hok he
  obtain ⟨loc, m1, hloc, hrest⟩ := hp.va2pte r va
  obtain ⟨r', m1', hloc', -, hfound⟩ := h.va2pte va
  obtain ⟨rfl, rfl⟩ := Prod.mk.inj (hloc.symm.trans hloc')
  rw [hloop r m hroot, mapLoop, hloc]
  dsimp only
  rw [(hfound loc rfl).1, if_neg (not_not.mpr hv)]
  exact ⟨rfl, hrest.of_free rfl (fun _ hf => hf)⟩

/-! ## Actions on a group -/

section Group

variable {roots : ℕ → Prop} {frames : List ℕ} {C : ℕ → Prop} {g : ℕ → ℕ}
  {f : ℕ → Memory → ℤ × Memory} {k : ℕ} (hf : Acts roots va frames C g f)
  (hreliable : Reliable va k C f)

include hf hreliable

theorem Reliable.forEach (hok : ∃ r0 m0, (f r0 m0).1 = 0) (group : List ℕ) :
    ∀ m, (∀ r ∈ group, roots r) → group.Nodup → Spaces m roots →
    (∀ a ∈ frames, IsFrame m roots a) → (∀ r ∈ group, C (pteOf r va m)) →
    Plenty (n + k * group.length) m →
    (forEach f group m).1 = 0 ∧ Plenty n (forEach f group m).2 := by
  obtain ⟨r0, m0, hok⟩ := hok
  induction group with
  | nil => exact fun m _ _ _ _ _ hp => ⟨rfl, hp⟩
  | cons r group ih =>
    intro m hroots hnodup h hframes hC hp
    have hr := hroots r mem_cons_self
    have hrest := fun r' hr' => hroots r' (mem_cons_of_mem r hr')
    obtain ⟨hnot, hnodup'⟩ := nodup_cons.mp hnodup
    have hcount : n + k * (r :: group).length = n + k * group.length + k := by
      rw [length_cons, mul_succ]
      omega
    rw [hcount] at hp
    obtain ⟨hzero, hplenty⟩ := hreliable r0 m0 r m _ hok (h.table r hr) (hC r mem_cons_self) hp
    obtain ⟨res, m1, heq, hw, -⟩ := hf r m hr h hframes
    rw [Vm.forEach, if_neg (not_not.mpr hzero)]
    rw [heq] at hplenty ⊢
    refine ih m1 hrest hnodup' hw.spaces (fun a ha => hw.isFrame a (hframes a ha)) ?_ hplenty
    intro r' hr'
    rw [hw.same r' va (hrest r' hr') (Or.inl ?_)]
    · exact hC r' (mem_cons_of_mem r hr')
    · rw [mem_singleton]
      rintro rfl
      exact hnot hr'

/-- An action on a group whose entries agree on `C`: it fails and changes no entry, or it changes
the entries of all tables. A failure after the first table is ruled out by a supply of pages. -/
theorem Reliable.group {group : List ℕ} (hroots : ∀ r ∈ group, roots r) (hnodup : group.Nodup)
    (h : Spaces m roots) (hframes : ∀ a ∈ frames, IsFrame m roots a)
    (hC : ∀ r ∈ group, ∀ r' ∈ group, C (pteOf r va m) → C (pteOf r' va m))
    (henough : group.length = 1 ∨ Plenty (n + k * group.length) m) :
    ∃ res m', Vm.forEach f group m = (res, m') ∧ Written roots group va m m' ∧
      (res ≠ 0 ∧ (∀ r ∈ group, pteOf r va m' = pteOf r va m) ∨
        res = 0 ∧ (∀ r ∈ group, C (pteOf r va m) ∧ pteOf r va m' = g (pteOf r va m)) ∧
          (Plenty (n + k * group.length) m → Plenty n m')) := by
  obtain ⟨res, m', heq, hw, hok⟩ := forEach_group hf group m hroots hnodup h hframes
  refine ⟨res, m', heq, hw, ?_⟩
  cases group with
  | nil =>
    obtain ⟨rfl, rfl⟩ := Prod.mk.inj heq
    exact Or.inr ⟨rfl, fun r hr => absurd hr not_mem_nil, fun hp => hp⟩
  | cons r group =>
    have hr := hroots r mem_cons_self
    obtain ⟨res0, m0, heq0, hw0, hres0⟩ := hf r m hr h hframes
    rcases hres0 with ⟨herr, hsame⟩ | ⟨rfl, hCr, -⟩
    · -- the first table refuses, and no other one is reached
      rw [Vm.forEach, heq0, if_pos herr] at heq
      obtain ⟨rfl, rfl⟩ := Prod.mk.inj heq
      refine Or.inl ⟨herr, fun r' hr' => ?_⟩
      rcases mem_cons.mp hr' with rfl | hmem
      · exact hsame
      refine hw0.same r' va (hroots r' hr') (Or.inl ?_)
      rw [mem_singleton]
      rintro rfl
      exact (nodup_cons.mp hnodup).1 hmem
    · have hall : ∀ r' ∈ r :: group, C (pteOf r' va m) :=
        fun r' hr' => hC r mem_cons_self r' hr' hCr
      have hrun := fun hp => hreliable.forEach hf ⟨r, m, by rw [heq0]⟩ (r :: group) m hroots hnodup
        h hframes hall (n := n) hp
      have hzero : res = 0 := by
        rcases henough with hone | hp
        · obtain rfl : group = [] := by simpa using hone
          rw [Vm.forEach, heq0, if_neg (not_not.mpr rfl)] at heq
          exact (Prod.mk.inj heq).1.symm
        · have hz := (hrun hp).1
          rwa [heq] at hz
      refine Or.inr ⟨hzero, hok hzero, fun hp => ?_⟩
      have hp' := (hrun hp).2
      rwa [heq] at hp'

end Group

/-! ## The pages that a mapping takes

A new page can be mapped exactly if the allocator has as many pages left as there are tables
missing. -/

section Supply

open Library Library.Radix Function

variable {m m' : Memory} {root t va va' pa n : ℕ}

theorem Plenty.congr (hans : m'.answers = m.answers) (hused : m'.used = m.used) :
    Plenty n m' ↔ Plenty n m := by
  constructor
  · intro h
    exact h.of_free hans.symm fun a ha => by rwa [← hused]
  · intro h
    exact h.of_free hans fun a ha => by rwa [hused]

/-- The tables that the entry of an address lacks below the table `t`. -/
def missing (va : ℕ) : ℕ → ℕ → Memory → ℕ
  | 0, _, _ => 0
  | level + 1, t, m =>
    if m.word t (px (level + 1) va) &&& pteV ≠ 0 then
      missing va level (pte2pa (m.word t (px (level + 1) va))) m
    else level + 1

theorem missing_empty (hempty : m.word t = fun _ => 0) (level : ℕ) :
    missing va level t m = level := by
  cases level with
  | zero => rfl
  | succ level => simp [missing, hempty]

theorem missing_congr (level : ℕ) (hidx : indices va level = indices va' level) (t : ℕ)
    (m : Memory) : missing va level t m = missing va' level t m := by
  induction level generalizing t with
  | zero => rfl
  | succ level ih =>
    obtain ⟨hhead, htail⟩ := List.cons.inj hidx
    rw [missing, missing, hhead, ih htail]

theorem missing_same (level : ℕ) :
    ∀ t, (∀ a, Below pteChild m.word t level a → m'.word a = m.word a) →
    missing va level t m' = missing va level t m := by
  induction level with
  | zero => exact fun _ _ => rfl
  | succ level ih =>
    intro t hsame
    rw [missing, missing, hsame t Below.self]
    split
    next hv =>
      have hchild := pteChild_of_valid hv
      exact ih _ fun a ha => hsame a (ha.cons hchild)
    · rfl

theorem missing_eq_zero (level : ℕ) : ∀ t, (descend pteChild m.word t (indices va level)).isSome →
    missing va level t m = 0 := by
  induction level with
  | zero => exact fun _ _ => rfl
  | succ level ih =>
    intro t hsome
    by_cases hv : m.word t (px (level + 1) va) &&& pteV ≠ 0
    · have hchild := pteChild_of_valid hv
      rw [indices, descend_cons_some hchild] at hsome
      rw [missing, if_pos hv]
      exact ih _ hsome
    · have hchild := pteChild_of_invalid (not_not.mp hv)
      rw [indices, descend_cons_none hchild] at hsome
      cases hsome

theorem va2pteLevel_plenty_iff (va level : ℕ) : ∀ t m,
    (∀ a, Below pteChild m.word t level a → m.used a = true) →
    ((va2pteLevel va true level t m).1.isSome ∧ Plenty n (va2pteLevel va true level t m).2 ↔
      Plenty (n + missing va level t m) m) := by
  induction level with
  | zero =>
    simp [va2pteLevel, missing]
  | succ level ih =>
    intro t m hused
    unfold va2pteLevel missing
    by_cases hv : m.word t (px (level + 1) va) &&& pteV ≠ 0
    · have hchild := pteChild_of_valid hv
      rw [if_pos hv, if_pos hv]
      exact ih _ m fun a ha => hused a (ha.cons hchild)
    rw [if_neg hv, if_neg hv]
    simp only [Bool.not_true, Bool.false_eq_true, if_false]
    rw [← Nat.add_assoc, Plenty]
    rcases kzalloc_cases m with ⟨answers, hnone⟩ | ⟨page, answers, -, hfree, hsome⟩
    · simp [hnone]
    rw [hsome]
    set m1 := setPte (t, px (level + 1) va) (pa2pte page ||| pteV) (m.take page answers) with hm1
    have hne : page ≠ t := by
      rintro rfl
      cases hfree.symm.trans (hused page Below.self)
    have hempty : m1.word page = fun _ => 0 := by
      rw [hm1, setPte_word_ne hne]
      exact update_self ..
    have hbelow : ∀ a, Below pteChild m1.word page level a → m1.used a = true := by
      rintro a ⟨path, -, hpath⟩
      cases path with
      | nil =>
        obtain rfl := Option.some.inj hpath
        exact update_self ..
      | cons i path =>
        have hchild : pteChild (m1.word page i) = none := by
          rw [hempty]
          exact if_neg (by simp)
        rw [descend_cons_none hchild] at hpath
        cases hpath
    rw [ih page m1 hbelow, missing_empty hempty, Option.isSome_some, eq_self_iff_true, true_and]
    exact Plenty.congr rfl rfl

/-- A page that `mappages` maps, and the pages that are left then. -/
theorem Table.mappages_plenty_iff (h : Table m root) (hpa : IsPage pa) (va perm n : ℕ) :
    (Vm.mappages root va pa 1 perm m).1 = 0 ∧ Plenty n (Vm.mappages root va pa 1 perm m).2 ↔
      (pageAligned va ∧ (va + pageSize) % wordSize ≤ vmEnd) ∧ ¬ IsMapped root va m ∧
        Plenty (n + missing va 2 root m) m := by
  obtain ⟨hdvd, -, hlt⟩ := hpa
  have hpm : ¬ (pa + 1 * pageSize) % wordSize > pmEnd := by
    norm_num at hdvd hlt ⊢
    omega
  have halign := (pageAligned_iff pa).mpr hdvd
  rw [Vm.mappages, if_neg h.root_ne_zero, if_neg one_ne_zero, if_neg hpm, one_mul]
  split
  next hodd =>
    have hva : ¬ pageAligned va := hodd.resolve_right (not_not.mpr halign)
    simp [hva]
  next haligned =>
  have hva : pageAligned va := not_not.mp (not_or.mp haligned).1
  split
  next hfar => simp [not_le.mpr hfar]
  next hend =>
  simp only [hva, not_lt.mp hend, true_and]
  rw [← va2pteLevel_plenty_iff va 2 root m fun a ha => (h.pages a ha).2, mapLoop]
  obtain ⟨r, m1, hr, -, hloc⟩ := h.va2pte va
  have hr' : va2pteLevel va true 2 root m = (r, m1) := hr
  rw [hr, hr']
  cases r with
  | none => simp
  | some loc =>
    dsimp only
    rw [(hloc loc rfl).1]
    split
    next hv =>
      have hmapped : IsMapped root va m := hv
      simp [hmapped]
    next hv =>
      have hfree : ¬ IsMapped root va m := hv
      simp only [hfree, mapLoop, Option.isSome_some, not_false_eq_true, true_and]
      exact Plenty.congr rfl rfl

/-- What keeps `mappages` from mapping a page. -/
def Unmappable (root va : ℕ) (m : Memory) : Prop :=
  ¬ pageAligned va ∨ vmEnd < (va + pageSize) % wordSize ∨ IsMapped root va m ∨
    ¬ Plenty (missing va 2 root m) m

theorem Table.mappages_fails_iff (h : Table m root) (hpa : IsPage pa) (perm : ℕ) :
    (Vm.mappages root va pa 1 perm m).1 ≠ 0 ↔ Unmappable root va m := by
  have hok := h.mappages_plenty_iff hpa va perm 0
  rw [Plenty, and_true, zero_add] at hok
  rw [ne_eq, hok, Unmappable, not_and_or, not_and_or, not_and_or, not_not, not_le, or_assoc]

end Supply

end NoobKernel.Vm
