import NoobKernel.Library.Pool
import NoobKernel.Model.Life
import NoobKernel.Verification.Mmap.Child

/-! # The pages of one page table

Which pages a new page table has taken since a memory `m0`, and that its destruction gives back
its tables and nothing else. -/

namespace NoobKernel.Vm

open Library Library.Radix Function List Outcome

variable {m m' m'' m0 : Memory} {root va pa a pt : ℕ} {path : List Index} {P F Q : ℕ → Prop}

/-! ## The pages that a table holds -/

/-- Since `m0` the tables of `root` and the pages in `F` have come into use. -/
structure Held (m0 : Memory) (root : ℕ) (F : ℕ → Prop) (m : Memory) : Prop where
  table : Table m root
  extra : Extra m0.used (fun a => Owns m root a ∨ F a) m.used
  apart : ∀ a, F a → ¬ Owns m root a

namespace Held

section

variable (h : Held m0 root F m)

include h

theorem congr {F' : ℕ → Prop} (hF : ∀ a, F a ↔ F' a) : Held m0 root F' m :=
  ⟨h.table, h.extra.congr (fun a => or_congr_right (hF a)), fun a ha => h.apart a ((hF a).mpr ha)⟩

theorem edit (hgrown : Grown root P m m') : Held m0 root F m' := by
  refine ⟨hgrown.table, ⟨?_, fun a => ⟨fun ha => ?_, ?_⟩⟩, fun a ha => ?_⟩
  · rintro a (ha | ha)
    · rcases hgrown.fresh a ha with hold | hfree
      · exact h.extra.fresh a (Or.inl hold)
      · exact h.extra.was_free hfree
    · exact h.extra.fresh a (Or.inr ha)
  · rcases hgrown.tables a ha with hu | hown
    · rcases (h.extra.used a).mp hu with hold | hown | hF
      · exact Or.inl hold
      · exact Or.inr (Or.inl (hgrown.owns a hown))
      · exact Or.inr (Or.inr hF)
    · exact Or.inr (Or.inl hown)
  · rintro (hold | hown | hF)
    · exact hgrown.used a (h.extra.kept hold)
    · exact (hgrown.table.pages a hown).2
    · exact hgrown.used a (h.extra.held (Or.inr hF))
  · exact hgrown.notOwns (h.extra.held (Or.inr ha)) (h.apart a ha)

theorem same (hused : m'.used = m.used) (hword : ∀ a, Owns m root a → m'.word a = m.word a) :
    Held m0 root F m' := by
  have howns : ∀ a, Owns m' root a ↔ Owns m root a := fun a => owns_congr hword
  refine ⟨h.table.other (fun a ha => ⟨hword a ha, hused ▸ (h.table.pages a ha).2⟩), ?_, ?_⟩
  · rw [hused]
    exact h.extra.congr (fun a => or_congr_left (howns a).symm)
  · intro a ha
    rw [howns a]
    exact h.apart a ha

theorem kzalloc (hr : kzalloc m = (some pa, m')) : Held m0 root (fun a => F a ∨ a = pa) m' := by
  rcases kzalloc_cases m with ⟨answers, hnone⟩ | ⟨page, answers, -, hfree, hsome⟩
  · cases hnone.symm.trans hr
  obtain ⟨hpage, rfl⟩ := Prod.mk.inj (hsome.symm.trans hr)
  obtain rfl := Option.some.inj hpage
  have hnot : ¬ Owns m root page := h.table.notOwns hfree
  have hne : ∀ a, Owns m root a → a ≠ page := by
    rintro a ha rfl
    exact hnot ha
  have hword : ∀ a, Owns m root a → update m.word page (fun _ => 0) a = m.word a :=
    fun a ha => update_of_ne (hne a ha) _ _
  have howns : ∀ a, Owns (m.take page answers) root a ↔ Owns m root a := fun a => owns_congr hword
  refine ⟨h.table.other (fun a ha => ⟨hword a ha, ?_⟩), ?_, ?_⟩
  · exact (update_of_ne (hne a ha) _ _).trans (h.table.pages a ha).2
  · refine (h.extra.take hfree).congr (fun a => ?_)
    rw [howns a, or_assoc]
  · rintro a (ha | rfl)
    · rw [howns a]
      exact h.apart a ha
    · rwa [howns a]

theorem kfree (ha : F pa) :
    Life.pageFree pa m = .ok (kfree pa m) ∧
      Held m0 root (fun a => F a ∧ a ≠ pa) (Vm.kfree pa m) := by
  have hused : m.used pa = true := h.extra.held (Or.inr ha)
  have hne : ∀ a, Owns m root a → a ≠ pa := by
    rintro a hown rfl
    exact h.apart a ha hown
  refine ⟨if_pos hused, h.table.other (fun a hown => ⟨rfl, ?_⟩), ?_, fun a hF => h.apart a hF.1⟩
  · exact (update_of_ne (hne a hown) _ _).trans (h.table.pages a hown).2
  · refine (h.extra.give (Or.inr ha)).congr (fun a => ?_)
    constructor
    · rintro ⟨hown | hF, hne⟩
      · exact Or.inl hown
      · exact Or.inr ⟨hF, hne⟩
    · rintro (hown | ⟨hF, hne⟩)
      · exact ⟨Or.inl hown, hne a hown⟩
      · exact ⟨Or.inr hF, hne⟩

end

end Held

theorem Held.create (hr : uvmcreate m = (some root, m')) : Held m root (fun _ => False) m' := by
  obtain ⟨htable, -, hown⟩ := Table.create hr
  rcases kzalloc_cases m with ⟨answers, hnone⟩ | ⟨page, answers, -, hfree, hsome⟩
  · rw [uvmcreate, pagetableCreate, hnone] at hr
    cases hr
  rw [uvmcreate, pagetableCreate, hsome] at hr
  obtain ⟨hpage, rfl⟩ := Prod.mk.inj hr
  obtain rfl := Option.some.inj hpage
  refine ⟨htable, (Extra.refl.take hfree).congr (fun a => ?_), fun _ hf => hf.elim⟩
  constructor
  · rintro (hf | rfl)
    · exact hf.elim
    · exact Or.inl Below.self
  · rintro (ha | hf)
    · exact Or.inr (hown a ha)
    · exact hf.elim

/-! ## The walks for a new process -/

theorem copyLeaf_held (h : Held m0 root F m) (va pte : ℕ) :
    ∃ F', Held m0 root F' (copyLeaf root va pte m).2 := by
  unfold copyLeaf
  split
  · exact ⟨F, h⟩
  rcases kzalloc_cases m with ⟨answers, hnone⟩ | ⟨page, answers, -, -, hsome⟩
  · rw [hnone]
    exact ⟨F, h.same rfl (fun _ _ => rfl)⟩
  have h1 := h.kzalloc hsome
  rw [hsome]
  dsimp only
  generalize m.take page answers = m1 at h1
  -- the page that is filled is no table
  have h2 : Held m0 root (fun a => F a ∨ a = page) (copyPage page (pte2pa pte) m1) := by
    refine h1.same rfl (fun a ha => update_of_ne ?_ _ _)
    rintro rfl
    exact h1.apart a (Or.inr rfl) ha
  obtain ⟨r, m2, hr, hgrown, hloc⟩ := h2.table.va2pte va
  rw [hr]
  cases r with
  | none => exact ⟨_, ((h2.edit hgrown).kfree (Or.inr rfl)).2⟩
  | some loc => exact ⟨_, h2.edit ((hloc loc rfl).2 _).1⟩

theorem forEach_skip {α : Type} {f : α → Memory → ℤ × Memory} {xs : List α}
    (h : ∀ x ∈ xs, f x m = (0, m)) : forEach f xs m = (0, m) := by
  induction xs with
  | nil => rfl
  | cons x xs ih =>
    rw [forEach, h x mem_cons_self, if_neg (by simp)]
    exact ih fun y hy => h y (mem_cons_of_mem x hy)

/-- A process without memory of its own. -/
def NoUserPage (pt : ℕ) (m : Memory) : Prop := ∀ va, IsUserPage va → ¬ IsMapped pt va m

section Walk

variable {src dst : ℕ} {share : Bool} (hready : ReadyToCopy m src dst)

include hready

theorem childWalk_skip (hnone : NoUserPage src m) : childWalk false src dst m = (0, m) := by
  rw [childWalk_eq hready]
  refine forEach_skip fun x hx => ?_
  obtain ⟨hdvd, hlt, hpte, hv⟩ := mem_leaves.mp hx
  have htrap : x.1 = trampoline ∨ x.1 = trapframe := by
    by_contra hnot
    exact hnone x.1 ⟨hdvd, hlt, hnot⟩ (by rwa [IsMapped, hpte])
  exact (childLeaf_action false dst).skip x.1 x.2 m htrap

/-- A walk takes tables, and pages only for user pages that it copies. -/
theorem childWalk_held (h : Held m0 dst (fun _ => False) m) (share : Bool) :
    ∃ F, Held m0 dst F (childWalk share src dst m).2 ∧
      (share = true ∨ NoUserPage src m → ∀ a, ¬ F a) := by
  cases share with
  | true =>
    refine ⟨fun _ => False, ?_, fun _ _ hf => hf⟩
    rw [childWalk_eq hready]
    refine forEach_keep (fun x m1 h1 => ?_) h
    exact h1.edit (shareLeaf_spec h1.table x.1 x.2).1
  | false =>
    by_cases hnone : NoUserPage src m
    · rw [childWalk_skip hready hnone]
      exact ⟨fun _ => False, h, fun _ _ hf => hf⟩
    have hkeep : ∃ F, Held m0 dst F (childWalk false src dst m).2 := by
      rw [childWalk_eq hready]
      refine forEach_keep (I := fun m1 => ∃ F, Held m0 dst F m1) ?_ ⟨_, h⟩
      rintro x m1 ⟨F, h1⟩
      exact copyLeaf_held h1 x.1 x.2
    obtain ⟨F, hF⟩ := hkeep
    exact ⟨F, hF, fun hor => absurd hor (by simp [hnone])⟩

/-- A copy of user pages holds pages that are no tables. -/
theorem childWalk_copies (h : Held m0 dst (fun _ => False) m)
    (hr : childWalk false src dst m = (0, m')) (hF : Held m0 dst F m') (hv : ¬ NoUserPage src m) :
    ∃ a, F a := by
  obtain ⟨va, hva⟩ := not_forall.mp hv
  obtain ⟨huser, hmapped⟩ := Classical.not_imp.mp hva
  rw [childWalk, if_neg Bool.false_ne_true] at hr
  obtain ⟨frame, hcopied⟩ := uvmcopyTree_copied hready hr
  have hcopy := hcopied.copyOf huser (not_not.mp hmapped)
  rcases (hF.extra.used _).mp hcopy.used with hold | hown | hpage
  · cases hcopy.free.symm.trans (h.extra.kept hold)
  · exact absurd hown hcopy.notOwns
  · exact ⟨_, hpage⟩

end Walk

/-! ## Destruction -/

/-- The pages in `P` have been freed, each of them once, and nothing else has changed. -/
structure Gone (P : ℕ → Prop) (m m' : Memory) : Prop where
  word : m'.word = m.word
  used : ∀ a, m'.used a = true ↔ m.used a = true ∧ ¬ P a

theorem Gone.refl : Gone (fun _ => False) m m := ⟨rfl, fun a => by simp⟩

theorem Gone.congr (h : Gone P m m') (hPQ : ∀ a, P a ↔ Q a) : Gone Q m m' :=
  ⟨h.word, fun a => (h.used a).trans (and_congr_right_iff.mpr fun _ => not_congr (hPQ a))⟩

theorem Gone.trans (h : Gone P m m') (h' : Gone Q m' m'') : Gone (fun a => P a ∨ Q a) m m'' := by
  refine ⟨h'.word.trans h.word, fun a => ?_⟩
  rw [h'.used a, h.used a, not_or, and_assoc]

theorem Gone.pageFree (ha : m.used pa = true) :
    Life.pageFree pa m = .ok (kfree pa m) ∧ Gone (· = pa) m (kfree pa m) := by
  refine ⟨if_pos ha, rfl, fun a => ?_⟩
  by_cases hap : a = pa <;> simp [kfree, hap]

/-- The tables below an entry of a table. -/
def BelowEntry (m : Memory) (level pt : ℕ) (i : Index) (a : ℕ) : Prop :=
  ∃ next, pteChild (m.word pt i) = some next ∧ Below pteChild m.word next level a

/-- Tables of a level, all in use, are freed. -/
def Destroys (level : ℕ) : Prop := ∀ pt m, Separated pteChild m.word pt level →
  (∀ a, Below pteChild m.word pt level a → m.used a = true) →
  ∃ m', Life.pagetableDestroyLevel level pt m = .ok m' ∧ Gone (Below pteChild m.word pt level) m m'

/-- The loop of `pagetable_destroy_level`. The tables below one entry are below no other one, so none
of them is freed before. -/
theorem destroyLoop_spec {level : ℕ} (ih : Destroys level)
    (hsep : Separated pteChild m.word pt (level + 1)) (l : List Index) (hl : l.Nodup)
    (hword : m'.word = m.word) (hused : ∀ i ∈ l, ∀ a, BelowEntry m level pt i a → m'.used a = true) :
    ∃ m'', l.foldlM (fun m i =>
        let pte := m.word pt i
        if pte &&& pteV ≠ 0 then Life.pagetableDestroyLevel level (pte2pa pte) m
        else .ok m) m' = Except.ok m'' ∧
      Gone (fun a => ∃ i ∈ l, BelowEntry m level pt i a) m' m'' := by
  induction l generalizing m' with
  | nil => exact ⟨m', rfl, Gone.refl.congr (by simp)⟩
  | cons i l ihl =>
    obtain ⟨hi, hl⟩ := nodup_cons.mp hl
    have hentry : ∃ m1, (if m.word pt i &&& pteV ≠ 0
        then Life.pagetableDestroyLevel level (pte2pa (m.word pt i)) m' else .ok m') = .ok m1 ∧
        Gone (BelowEntry m level pt i) m' m1 := by
      by_cases hv : m.word pt i &&& pteV ≠ 0
      · have hchild := pteChild_of_valid hv
        have hbelow : ∀ a, Below pteChild m.word (pte2pa (m.word pt i)) level a ↔
            BelowEntry m level pt i a := by
          refine fun a => ⟨fun ha => ⟨_, hchild, ha⟩, ?_⟩
          rintro ⟨next, hnext, ha⟩
          rwa [Option.mem_unique hchild hnext]
        obtain ⟨m1, hm1, hgone⟩ := ih (pte2pa (m.word pt i)) m'
          (hword ▸ hsep.below_child hchild)
          (fun a ha => hused i mem_cons_self a ((hbelow a).mp (hword ▸ ha)))
        rw [if_pos hv]
        exact ⟨m1, hm1, (hword ▸ hgone).congr hbelow⟩
      · rw [if_neg hv]
        refine ⟨m', rfl, Gone.refl.congr fun a => iff_of_false id ?_⟩
        rintro ⟨next, hnext, -⟩
        cases (pteChild_of_invalid (not_not.mp hv)).symm.trans hnext
    obtain ⟨m1, hm1, hgone1⟩ := hentry
    obtain ⟨m'', hm'', hgone⟩ := ihl hl (hgone1.word.trans hword) (by
      refine fun j hj a ha => (hgone1.used a).mpr ⟨hused j (mem_cons_of_mem i hj) a ha, ?_⟩
      rintro ⟨next, hnext, hbelow⟩
      obtain ⟨next', hnext', hbelow'⟩ := ha
      exact hi (hsep.child_eq hnext hnext' hbelow hbelow' ▸ hj))
    rw [foldlM_cons, hword]
    dsimp only
    rw [hm1, ok_bind]
    exact ⟨m'', hm'', (hgone1.trans hgone).congr (by simp)⟩

theorem destroyLevel_spec (level : ℕ) : Destroys level := by
  induction level with
  | zero =>
    intro pt m _ hused
    obtain ⟨hfree, hgone⟩ := Gone.pageFree (hused pt Below.self)
    refine ⟨_, hfree, hgone.congr (fun a => ⟨?_, ?_⟩)⟩
    · rintro rfl
      exact Below.self
    · rintro ⟨path, hlen, hpath⟩
      obtain rfl := length_eq_zero_iff.mp (Nat.le_zero.mp hlen)
      exact (Option.some.inj hpath).symm
  | succ level ih =>
    intro pt m hsep hused
    obtain ⟨m1, hm1, hgone1⟩ := destroyLoop_spec ih hsep (List.finRange 512) (nodup_finRange 512) rfl
      fun i _ a ⟨next, hnext, ha⟩ => hused a (ha.cons hnext)
    have hpt : m1.used pt = true := by
      refine (hgone1.used pt).mpr ⟨hused pt Below.self, ?_⟩
      rintro ⟨i, -, next, hnext, hbelow⟩
      exact hsep.not_below_child hnext hbelow
    obtain ⟨hfree, hgone2⟩ := Gone.pageFree hpt
    refine ⟨kfree pt m1, ?_, (hgone1.trans hgone2).congr (fun a => ?_)⟩
    · rw [Life.pagetableDestroyLevel, hm1, ok_bind, hfree]
    · rw [below_succ_iff, or_comm]
      simp [BelowEntry]

theorem Table.destroy (h : Table m root) :
    ∃ m', Life.pagetableDestroy root m = .ok m' ∧ Gone (Owns m root) m m' := by
  have hroot := h.root_ne_zero
  rw [Life.pagetableDestroy, if_neg hroot]
  exact destroyLevel_spec 2 root m h.separated (fun a ha => (h.pages a ha).2)

/-- The destruction of a table leaves the pages that are no tables. -/
theorem Held.destroy (h : Held m0 root F m) :
    ∃ m', Life.pagetableDestroy root m = .ok m' ∧ m'.word = m.word ∧
      Extra m0.used F m'.used := by
  obtain ⟨m', hm', hgone⟩ := h.table.destroy
  refine ⟨m', hm', hgone.word, fun a ha => h.extra.fresh a (Or.inr ha), fun a => ?_⟩
  rw [hgone.used a, h.extra.used a]
  constructor
  · rintro ⟨hold | hown | hF, hnot⟩
    · exact Or.inl hold
    · exact absurd hown hnot
    · exact Or.inr hF
  · rintro (hold | hF)
    · refine ⟨Or.inl hold, fun hown => ?_⟩
      cases hold.symm.trans (h.extra.fresh a (Or.inl hown))
    · exact ⟨Or.inr (Or.inr hF), h.apart a hF⟩

end NoobKernel.Vm
