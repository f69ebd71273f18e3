import NoobKernel.Model.Uvm
import NoobKernel.Verification.PageTable.Table

/-! # Walks over a page table

A walk calls its action on each valid leaf of a well-formed table, as a loop over the list of
leaves does. -/

namespace NoobKernel.Vm

open Library Library.Radix List

/-- Leaves are at level zero only. -/
def Leafy (m : Memory) : ℕ → ℕ → Prop
  | 0, pt => ∀ i, m.word pt i &&& pteV ≠ 0 → IsLeaf (m.word pt i)
  | level + 1, pt => ∀ i, m.word pt i &&& pteV ≠ 0 →
      ¬ IsLeaf (m.word pt i) ∧ Leafy m level (pte2pa (m.word pt i))

/-- The first addresses of the pages that a table can hold. -/
def IsPageVa (va : ℕ) : Prop := pageSize ∣ va ∧ va < 2 ^ 39

/-- The walk comes to `base` along `path`: the slots below it are at the pages with these
indices. -/
def Leads : List Index → ℕ → ℕ → Prop
  | path, 0, base => ∀ va i, va = slotVa 0 base i ↔ IsPageVa va ∧ indices va 2 = path ∧ px 0 va = i
  | path, level + 1, base => ∀ i, Leads (path ++ [i]) level (slotVa (level + 1) base i)

theorem slotVa_eq {level base : ℕ} (i : Index) (hbase : 2 ^ (21 + 9 * level) ∣ base) :
    slotVa level base i = base + i * 2 ^ (12 + 9 * level) := by
  obtain ⟨k, rfl⟩ := hbase
  have hlt : (i : ℕ) <<< pxShift level < 2 ^ (21 + 9 * level) := by
    have hpow : 2 ^ (21 + 9 * level) = 512 * 2 ^ (12 + 9 * level) := by
      rw [show 21 + 9 * level = 9 + (12 + 9 * level) by omega, Nat.pow_add]
    rw [hpow, Nat.shiftLeft_eq]
    exact Nat.mul_lt_mul_of_pos_right i.isLt (Nat.two_pow_pos _)
  have hor := Nat.shiftLeft_add_eq_or_of_lt hlt k
  rw [Nat.shiftLeft_eq, Nat.mul_comm k] at hor
  rw [slotVa, ← hor, Nat.shiftLeft_eq]
  rfl

theorem leads_root : Leads [] 2 0 := by
  intro i j va k
  have hi : slotVa 2 0 i = i * 2 ^ 30 := (slotVa_eq i (dvd_zero _)).trans (Nat.zero_add _)
  have hj : slotVa 1 (i * 2 ^ 30) j = i * 2 ^ 30 + j * 2 ^ 21 := slotVa_eq j (Dvd.intro_left _ rfl)
  have hk : slotVa 0 (i * 2 ^ 30 + j * 2 ^ 21) k = i * 2 ^ 30 + j * 2 ^ 21 + k * 2 ^ 12 :=
    slotVa_eq k (by omega)
  rw [hi, hj, hk]
  simp only [indices, Fin.ext_iff, px_val, IsPageVa, nil_append, cons_append, cons.injEq, and_true]
  norm_num
  omega

theorem Table.leafy {m : Memory} {root : ℕ} (h : Table m root)
    (hleaf : ∀ va, pteOf root va m &&& pteV ≠ 0 → IsLeaf (pteOf root va m)) : Leafy m 2 root := by
  intro i hi
  have hchild := pteChild_of_valid hi
  have hpath : descend pteChild m.word root [i] = some (pte2pa (m.word root i)) := by
    rw [descend_cons_some hchild, descend_nil]
  refine ⟨h.inner [] root i (by decide) rfl hi, fun j hj => ?_⟩
  have hchild' : pteChild (m.word (pte2pa (m.word root i)) j) =
      some (pte2pa (m.word (pte2pa (m.word root i)) j)) := if_pos hj
  have hpath' : descend pteChild m.word root [i, j] =
      some (pte2pa (m.word (pte2pa (m.word root i)) j)) := by
    rw [descend_cons_some hchild, descend_cons_some hchild', descend_nil]
  refine ⟨h.inner [i] _ j (by simp) hpath hj, fun k hk => ?_⟩
  obtain ⟨-, hva, hpx⟩ := (leads_root i j _ k).mp rfl
  rw [show [i, j] = [] ++ [i] ++ [j] from rfl, ← hva] at hpath'
  have hpte := pteOf_some hpath'
  rw [hpx] at hpte
  rw [← hpte] at hk ⊢
  exact hleaf _ hk

/-- The addresses and entries of the valid leaves, in the order of the walk. -/
def leaves (m : Memory) : ℕ → ℕ → ℕ → List (ℕ × ℕ)
  | 0, pt, base => (List.finRange 512).flatMap (fun i =>
    if m.word pt i &&& pteV = 0 then [] else [(slotVa 0 base i, m.word pt i)])
  | level + 1, pt, base => (List.finRange 512).flatMap (fun i =>
    if m.word pt i &&& pteV = 0 then []
    else leaves m level (pte2pa (m.word pt i)) (slotVa (level + 1) base i))

variable {m m' : Memory} {pt base va pte level : ℕ}

/-! ## Loops -/

section Loop

variable {α β : Type} {f g : α → Memory → ℤ × Memory} {I : Memory → Prop}

theorem forEach_append (xs ys : List α) (m : Memory) : forEach f (xs ++ ys) m =
    if (forEach f xs m).1 ≠ 0 then forEach f xs m else forEach f ys (forEach f xs m).2 := by
  induction xs generalizing m with
  | nil => simp [forEach]
  | cons x xs ih =>
    simp only [cons_append, forEach]
    by_cases hx : (f x m).1 ≠ 0
    · simp [hx]
    · simp only [if_neg hx, ih]

theorem forEach_flatMap (h : β → List α) (xs : List β) (m : Memory) :
    forEach f (xs.flatMap h) m = forEach (fun x => forEach f (h x)) xs m := by
  induction xs generalizing m with
  | nil => rfl
  | cons x xs ih =>
    rw [flatMap_cons, forEach_append, forEach]
    split
    · rfl
    · exact ih _

theorem forEach_cons_zero {x : α} {xs : List α} (h : forEach f (x :: xs) m = (0, m')) :
    f x m = (0, (f x m).2) ∧ forEach f xs (f x m).2 = (0, m') := by
  rw [forEach] at h
  by_cases hx : (f x m).1 = 0
  · rw [if_neg (not_not.mpr hx)] at h
    exact ⟨Prod.ext hx rfl, h⟩
  · rw [if_pos hx] at h
    exact absurd (congrArg Prod.fst h) hx

theorem forEach_congr {xs : List α} (hbody : ∀ x m, I m → f x m = g x m)
    (hkeep : ∀ x m, I m → I (g x m).2) (hm : I m) : forEach f xs m = forEach g xs m := by
  induction xs generalizing m with
  | nil => rfl
  | cons x xs ih =>
    rw [forEach, forEach, hbody x m hm]
    split
    · rfl
    · exact ih (hkeep x m hm)

theorem forEach_keep {xs : List α} (hkeep : ∀ x m, I m → I (f x m).2) (hm : I m) :
    I (forEach f xs m).2 := by
  induction xs generalizing m with
  | nil => exact hm
  | cons x xs ih =>
    rw [forEach]
    split
    · exact hkeep x m hm
    · exact ih (hkeep x m hm)

theorem forEach_result (xs : List α) (hf : ∀ x m, (f x m).1 = 0 ∨ (f x m).1 = -enomem)
    (m : Memory) : (forEach f xs m).1 = 0 ∨ (forEach f xs m).1 = -enomem := by
  induction xs generalizing m with
  | nil => exact Or.inl rfl
  | cons x xs ih =>
    rw [forEach]
    split
    · exact hf x m
    · exact ih _

end Loop

/-- The action of a walk on the entries of a list. -/
abbrev onLeaves (leaf : ℕ → ℕ → Memory → ℤ × Memory) : List (ℕ × ℕ) → Memory → ℤ × Memory :=
  forEach (fun x => leaf x.1 x.2)

theorem walkTree_eq {leaf : ℕ → ℕ → Memory → ℤ × Memory} {I : Memory → Prop}
    (hresult : ∀ va pte m, (leaf va pte m).1 = 0 ∨ (leaf va pte m).1 = -enomem)
    (hkeep : ∀ va pte m, I m → I (leaf va pte m).2) (level : ℕ) : ∀ pt base m', Leafy m level pt →
    (∀ m', I m' → ∀ a, Below pteChild m.word pt level a → m'.word a = m.word a) → I m' →
    walkTree leaf level pt base m' = onLeaves leaf (leaves m level pt base) m' := by
  induction level
  all_goals
    intro pt base m' hleafy hagree hm'
    rw [walkTree, leaves, onLeaves, forEach_flatMap]
    refine forEach_congr (I := I) (fun i m1 hm1 => ?_)
      (fun i m1 => forEach_keep fun x m hm => hkeep x.1 x.2 m hm) hm'
    rw [hagree m1 hm1 pt Below.self]
    by_cases hv : m.word pt i &&& pteV = 0
    · simp [hv, forEach]
  · simp only [if_neg hv, if_pos (hleafy i hv), forEach]
    split
    · rfl
    next hzero => exact Prod.ext (not_not.mp hzero) rfl
  next level ih =>
    obtain ⟨hnot, hsub⟩ := hleafy i hv
    have hchild := pteChild_of_valid hv
    simp only [if_neg hv, if_neg hnot]
    rw [ih _ _ m1 hsub (fun m2 hm2 a ha => hagree m2 hm2 a (ha.cons hchild)) hm1]
    have hcases := forEach_result
      (leaves m level (pte2pa (m.word pt i)) (slotVa (level + 1) base i))
      (fun x m => hresult x.1 x.2 m) m1
    rcases hcases with hzero | herr
    · rw [if_neg (not_not.mpr hzero)]
      exact Prod.ext hzero.symm rfl
    · rw [if_pos (by rw [herr]; decide)]
      exact Prod.ext herr.symm rfl

/-! ## The leaves -/

theorem px_of_indices {path : List Index} {i : Index} (n : ℕ)
    (h : indices va n = path ++ i :: indices va level) : px (level + 1) va = i := by
  induction path generalizing n with
  | nil =>
    cases n with
    | zero => cases h
    | succ n =>
      obtain ⟨hpx, htail⟩ := cons.inj h
      have hlen := congrArg length htail
      rw [indices_length, indices_length] at hlen
      rw [← hlen]
      exact hpx
  | cons j path ih =>
    cases n with
    | zero => cases h
    | succ n => exact ih n (cons.inj h).2

theorem mem_leaves_iff (level : ℕ) : ∀ path pt base, Leads path level base →
    ((va, pte) ∈ leaves m level pt base ↔ IsPageVa va ∧ indices va 2 = path ++ indices va level ∧
      pte &&& pteV ≠ 0 ∧ ∃ a, descend pteChild m.word pt (indices va level) = some a ∧
        m.word a (px 0 va) = pte) := by
  induction level with
  | zero =>
    intro path pt base h
    have hentry : ∀ i : Index, (va, pte) ∈ (if m.word pt i &&& pteV = 0 then []
        else [(slotVa 0 base i, m.word pt i)]) ↔
        va = slotVa 0 base i ∧ pte &&& pteV ≠ 0 ∧ m.word pt i = pte := by
      intro i
      split <;> grind
    rw [leaves, mem_flatMap]
    simp only [mem_finRange, true_and, hentry, h va]
    simp [indices, descend_nil, and_assoc]
  | succ level ih =>
    intro path pt base h
    have hentry : ∀ i : Index, (va, pte) ∈ (if m.word pt i &&& pteV = 0 then []
        else leaves m level (pte2pa (m.word pt i)) (slotVa (level + 1) base i)) ↔
        IsPageVa va ∧ indices va 2 = path ++ i :: indices va level ∧ pte &&& pteV ≠ 0 ∧
          ∃ a, descend pteChild m.word pt (i :: indices va level) = some a ∧
            m.word a (px 0 va) = pte := by
      intro i
      by_cases hv : m.word pt i &&& pteV = 0
      · simp [hv, descend_cons_none (pteChild_of_invalid hv)]
      · rw [if_neg hv, ih _ _ _ (h i), descend_cons_some (pteChild_of_valid hv), append_assoc]
        rfl
    rw [leaves, mem_flatMap]
    simp only [mem_finRange, true_and, hentry, indices]
    constructor
    · rintro ⟨i, hva, hidx, hrest⟩
      obtain rfl := px_of_indices 2 hidx
      exact ⟨hva, hidx, hrest⟩
    · intro hva
      exact ⟨_, hva⟩

theorem mem_leaves {root : ℕ} : (va, pte) ∈ leaves m 2 root 0 ↔
    pageSize ∣ va ∧ va < 2 ^ 39 ∧ pteOf root va m = pte ∧ pte &&& pteV ≠ 0 := by
  rw [mem_leaves_iff 2 [] root 0 leads_root]
  constructor
  · rintro ⟨⟨hdvd, hlt⟩, -, hv, a, ha, rfl⟩
    exact ⟨hdvd, hlt, pteOf_some ha, hv⟩
  · rintro ⟨hdvd, hlt, rfl, hv⟩
    refine ⟨⟨hdvd, hlt⟩, rfl, hv, ?_⟩
    cases ha : descend pteChild m.word root (indices va 2) with
    | none =>
      rw [pteOf_none ha] at hv
      exact absurd rfl hv
    | some a => exact ⟨a, rfl, (pteOf_some ha).symm⟩

/-! ## Copying a page table -/

open Function

variable {P done : ℕ → Prop} {x : ℕ × ℕ} {xs : List (ℕ × ℕ)}

/-- The two pages that the walks leave out. -/
def IsTrapPage (va : ℕ) : Prop := va = trampoline ∨ va = trapframe

instance (va : ℕ) : Decidable (IsTrapPage va) := inferInstanceAs (Decidable (_ ∨ _))

/-- The page that an address translates to. -/
def frameOf (pt va : ℕ) (m : Memory) : ℕ := pte2pa (pteOf pt va m)

/-- Addresses that have a page. -/
def IsMapped (pt va : ℕ) (m : Memory) : Prop := pteOf pt va m &&& pteV ≠ 0

instance (pt va : ℕ) (m : Memory) : Decidable (IsMapped pt va m) :=
  inferInstanceAs (Decidable (_ ≠ _))

/-- A well-formed source table, whose pages are in use and no tables, and an empty destination
table. -/
structure ReadyToCopy (m : Memory) (src dst : ℕ) : Prop where
  source : Table m src
  leaf : ∀ va, IsMapped src va m → IsLeaf (pteOf src va m)
  frames : ∀ va, IsMapped src va m → m.used (frameOf src va m) = true ∧
    ¬ Owns m src (frameOf src va m) ∧ ¬ Owns m dst (frameOf src va m)
  target : Table m dst
  empty : ∀ va, pteOf dst va m = 0
  apart : ∀ a, Owns m src a → ¬ Owns m dst a

variable {m m0 m' : Memory} {src dst va va' pte : ℕ}

section

variable (h : ReadyToCopy m src dst)

include h

theorem ReadyToCopy.leafy : Leafy m 2 src := h.source.leafy h.leaf

theorem ReadyToCopy.agree (hedit : Edited dst P m m') :
    ∀ a, Owns m src a → m'.word a = m.word a := by
  intro a ha
  exact hedit.frame a (h.source.pages a ha).2 (h.apart a ha)

theorem ReadyToCopy.source_same (hedit : Edited dst P m m') (va : ℕ) :
    pteOf src va m' = pteOf src va m := by
  exact pteOf_owned (h.agree hedit) va

theorem ReadyToCopy.ne_zero : ¬ (src = 0 ∨ dst = 0) := by
  have hsrc := (h.source.pages src Below.self).1.2.1
  have hdst := (h.target.pages dst Below.self).1.2.1
  have hpos : 0 < pageSize := by decide
  omega

end

/-! ## One page -/

theorem Table.alloc {page : ℕ} {row : Index → ℕ} {answers : List ℕ} (h : Table m dst)
    (hfree : m.used page = false)
    (hm' : m' = ⟨update m.word page row, update m.used page true, answers⟩) :
    Edited dst P m m' ∧ ¬ Owns m' dst page := by
  have hword : ∀ a, m.used a = true → m'.word a = m.word a := by
    intro a hu
    rw [hm']
    exact update_of_ne (ne_of_used hu hfree) _ _
  refine ⟨Edited.of_outside h hword ?_, ?_⟩
  · intro a hu
    rw [hm']
    exact (update_of_ne (ne_of_used hu hfree) _ _).trans hu
  · rw [owns_congr (fun a ha => hword a (h.pages a ha).2)]
    exact h.notOwns hfree

theorem Table.kzalloc (P : ℕ → Prop) (h : Table m dst) :
    (∃ m', kzalloc m = (none, m') ∧ Edited dst P m m') ∨
      ∃ pa m', Vm.kzalloc m = (some pa, m') ∧ m.used pa = false ∧ m'.used pa = true ∧
        Edited dst P m m' ∧ ¬ Owns m' dst pa := by
  rcases kzalloc_cases m with ⟨answers, hkz⟩ | ⟨pa, answers, -, hfree, hkz⟩
  · exact Or.inl ⟨_, hkz, .of_outside h (fun _ _ => rfl) fun _ hu => hu⟩
  · obtain ⟨hedit, hnot⟩ := h.alloc (P := P) hfree rfl
    exact Or.inr ⟨pa, _, hkz, hfree, update_self _ _ _, hedit, hnot⟩

/-- A page has been taken and filled for an entry of the destination. -/
structure Filled (m : Memory) (dst va page pte : ℕ) (m' : Memory) : Prop where
  edited : Edited dst (AtPage va) m m'
  isPage : IsPage page
  free : m.used page = false
  used : m'.used page = true
  notOwns : ¬ Owns m' dst page
  content : m.used (pte2pa pte) = true → m'.word page = m.word (pte2pa pte)

theorem copyLeaf_cases (h : Table m dst) (va pte : ℕ) :
    (IsTrapPage va ∧ copyLeaf dst va pte m = (0, m)) ∨
    (∃ answers, copyLeaf dst va pte m = (-enomem, { m with answers })) ∨
    ∃ page m', Filled m dst va page pte m' ∧
      (copyLeaf dst va pte m = (-enomem, kfree page m') ∨
        copyLeaf dst va pte m = (0, m') ∧ pteOf dst va m' = pa2pte page ||| pteFlags pte) := by
  unfold copyLeaf
  by_cases htrap : va = trampoline ∨ va = trapframe
  · exact Or.inl ⟨htrap, if_pos htrap⟩
  rw [if_neg htrap]
  right
  rcases kzalloc_cases m with ⟨answers, hnone⟩ | ⟨page, answers, hpage, hfree, hsome⟩
  · exact Or.inl ⟨answers, by rw [hnone]⟩
  right
  rw [hsome]
  set row := update m.word page (fun _ => 0) (pte2pa pte) with hrow
  set m1 : Memory := ⟨update m.word page row, update m.used page true, answers⟩ with hm1
  have hcopy : copyPage page (pte2pa pte) (m.take page answers) = m1 := by
    unfold copyPage
    simp only [update_idem, hrow, hm1]
  obtain ⟨halloc, hnot⟩ : Edited dst (AtPage va) m m1 ∧ ¬ Owns m1 dst page := h.alloc hfree hm1
  have hused : m1.used page = true := update_self _ _ _
  have hfilled : ∀ m', Grown dst (AtPage va) m1 m' → Filled m dst va page pte m' := by
    intro m' hgrown
    refine ⟨halloc.trans hgrown.toEdited, hpage, hfree, hgrown.used page hused,
      hgrown.notOwns hused hnot, fun hu => ?_⟩
    rw [hgrown.frame page hused hnot]
    change update m.word page row page = _
    rw [update_self, hrow, update_of_ne (ne_of_used hu hfree)]
  obtain ⟨r, m2, hr, hgrown, hloc⟩ := halloc.table.va2pte va
  simp only [hcopy, hr]
  refine ⟨page, ?_⟩
  cases r with
  | none => exact ⟨m2, hfilled m2 hgrown.any, Or.inl rfl⟩
  | some loc =>
    obtain ⟨hset, hnew⟩ := (hloc loc rfl).2 (pa2pte page ||| pteFlags pte)
    exact ⟨_, hfilled _ hset, Or.inr ⟨rfl, hnew⟩⟩

theorem copyLeaf_edited (h : Edited dst (fun _ => True) m0 m) (va pte : ℕ) :
    Edited dst (fun _ => True) m0 (copyLeaf dst va pte m).2 := by
  rcases copyLeaf_cases h.table va pte with ⟨-, heq⟩ | ⟨answers, heq⟩ |
    ⟨page, m', hfilled, herr | ⟨hok, -⟩⟩
  · rwa [heq]
  · rw [heq]
    exact h.trans (.of_outside h.table (fun _ _ => rfl) fun _ hu => hu)
  · have hedit := h.trans (hfilled.edited.mono (fun _ _ => trivial))
    rw [herr]
    exact hedit.kfree (h.unused hfilled.free) hfilled.notOwns
  · rw [hok]
    exact h.trans (hfilled.edited.mono (fun _ _ => trivial))

theorem copyLeaf_result (dst va pte : ℕ) (m : Memory) :
    (copyLeaf dst va pte m).1 = 0 ∨ (copyLeaf dst va pte m).1 = -enomem := by
  unfold copyLeaf
  split
  · exact Or.inl rfl
  split
  · exact Or.inr rfl
  · split
    · exact Or.inr rfl
    · exact Or.inl rfl

/-- The page of an address in the destination is a copy of the page that `pte` maps. -/
structure CopyOf (m0 : Memory) (dst va pte page : ℕ) (m : Memory) : Prop where
  entry : pteOf dst va m = pa2pte page ||| pteFlags pte
  isPage : IsPage page
  free : m0.used page = false
  used : m.used page = true
  notOwns : ¬ Owns m dst page
  content : m.word page = m0.word (pte2pa pte)

theorem CopyOf.keep {page : ℕ} (h : CopyOf m0 dst va pte page m) (hedit : Edited dst P m m')
    (hva : ¬ P va) : CopyOf m0 dst va pte page m' :=
  ⟨(hedit.same va hva).trans h.entry, h.isPage, h.free, hedit.used page h.used,
    hedit.notOwns h.used h.notOwns, (hedit.frame page h.used h.notOwns).trans h.content⟩

theorem copyLeaf_spec (h : Edited dst P m0 m)
    (hsource : m0.used (pte2pa pte) = true ∧ ¬ Owns m0 dst (pte2pa pte)) (htrap : ¬ IsTrapPage va)
    (hr : copyLeaf dst va pte m = (0, m')) :
    Edited dst (AtPage va) m m' ∧ ∃ page, m.used page = false ∧ CopyOf m0 dst va pte page m' := by
  rcases copyLeaf_cases h.table va pte with ⟨htrap', -⟩ | ⟨answers, heq⟩ |
    ⟨page, m2, hfilled, herr | ⟨hok, hnew⟩⟩
  · exact absurd htrap' htrap
  · rw [hr] at heq
    exact absurd (Prod.mk.inj heq).1 (by decide)
  · rw [hr] at herr
    exact absurd (Prod.mk.inj herr).1 (by decide)
  obtain rfl := (Prod.mk.inj (hr.symm.trans hok)).2
  refine ⟨hfilled.edited, page, hfilled.free, hnew, hfilled.isPage, h.unused hfilled.free,
    hfilled.used, hfilled.notOwns, ?_⟩
  rw [hfilled.content (h.used _ hsource.1), h.frame _ hsource.1 hsource.2]

/-! ## All pages -/

/-- The addresses of `done` have been copied; `frame` gives the new page of each page number. -/
structure Copied (m0 : Memory) (src dst : ℕ) (done : ℕ → Prop) (frame : ℕ → ℕ) (m : Memory) :
    Prop where
  edited : Edited dst done m0 m
  copies : ∀ va, done va → CopyOf m0 dst va (pteOf src va m0) (frame (vpn va)) m
  distinct : ∀ va va', done va → done va' → frame (vpn va) = frame (vpn va') → vpn va = vpn va'

theorem Copied.step {frame : ℕ → ℕ} (h : Copied m0 src dst done frame m)
    (hready : ReadyToCopy m0 src dst) (hv : IsMapped src va m0) (htrap : ¬ IsTrapPage va)
    (hr : copyLeaf dst va (pteOf src va m0) m = (0, m')) :
    ∃ frame', Copied m0 src dst (fun va' => done va' ∨ vpn va' = vpn va) frame' m' := by
  obtain ⟨hused, -, hnot⟩ := hready.frames va hv
  obtain ⟨hedit, page, hfree, hcopy⟩ := copyLeaf_spec h.edited ⟨hused, hnot⟩ htrap hr
  -- earlier pages are in use and the new one was not
  have hne : ∀ va', done va' → frame (vpn va') ≠ page :=
    fun va' hdone => ne_of_used (h.copies va' hdone).used hfree
  refine ⟨update frame (vpn va) page, ?_, ?_, ?_⟩
  · exact (h.edited.mono (fun _ hd => Or.inl hd)).trans (hedit.mono (fun _ he => Or.inr he))
  · intro va' hdone
    by_cases hvpn : vpn va' = vpn va
    · rw [hvpn, update_self, pteOf_congr hvpn]
      exact { hcopy with entry := (pteOf_congr hvpn).trans hcopy.entry }
    · rw [update_of_ne hvpn]
      exact (h.copies va' (hdone.resolve_right hvpn)).keep hedit hvpn
  · intro va' va'' hdone hdone' heq
    by_cases hvpn : vpn va' = vpn va <;> by_cases hvpn' : vpn va'' = vpn va
    · rw [hvpn, hvpn']
    · rw [hvpn, update_self, update_of_ne hvpn'] at heq
      exact absurd heq.symm (hne va'' (hdone'.resolve_right hvpn'))
    · rw [hvpn', update_self, update_of_ne hvpn] at heq
      exact absurd heq (hne va' (hdone.resolve_right hvpn))
    · rw [update_of_ne hvpn, update_of_ne hvpn'] at heq
      exact h.distinct va' va'' (hdone.resolve_right hvpn) (hdone'.resolve_right hvpn') heq

/-- The addresses whose pages a walk over `xs` copies. -/
def Walked (xs : List (ℕ × ℕ)) (va : ℕ) : Prop := ∃ x ∈ xs, ¬ IsTrapPage x.1 ∧ vpn va = vpn x.1

theorem walked_cons_trap (htrap : IsTrapPage x.1) : Walked (x :: xs) va ↔ Walked xs va := by
  simp [Walked, htrap]

theorem walked_cons (htrap : ¬ IsTrapPage x.1) :
    Walked (x :: xs) va ↔ vpn va = vpn x.1 ∨ Walked xs va := by
  simp [Walked, htrap]

/-- What a walk does with a leaf: it may fail for want of pages, changes the destination only, and
leaves out the trap pages. -/
structure LeafAction (dst : ℕ) (leaf : ℕ → ℕ → Memory → ℤ × Memory) : Prop where
  result : ∀ va pte m, (leaf va pte m).1 = 0 ∨ (leaf va pte m).1 = -enomem
  edited : ∀ {m0} va pte m, Edited dst (fun _ => True) m0 m →
    Edited dst (fun _ => True) m0 (leaf va pte m).2
  skip : ∀ va pte m, IsTrapPage va → leaf va pte m = (0, m)

section Walk

variable {leaf : ℕ → ℕ → Memory → ℤ × Memory} (hleaf : LeafAction dst leaf)

include hleaf

theorem LeafAction.walkTree_eq (h : ReadyToCopy m src dst) :
    walkTree leaf 2 src 0 m = onLeaves leaf (leaves m 2 src 0) m :=
  Vm.walkTree_eq hleaf.result hleaf.edited 2 src 0 m h.leafy (fun _ h1 => h.agree h1)
    (Edited.refl h.target)

variable {Q : (ℕ → Prop) → Memory → Prop} (hstep : ∀ done va m m', Q done m →
  IsMapped src va m0 → ¬ IsTrapPage va → leaf va (pteOf src va m0) m = (0, m') →
  Q (fun va' => done va' ∨ vpn va' = vpn va) m')

include hstep

theorem LeafAction.run (xs : List (ℕ × ℕ)) : ∀ (done : ℕ → Prop) (m : Memory), Q done m →
    (∀ x ∈ xs, x.2 = pteOf src x.1 m0 ∧ x.2 &&& pteV ≠ 0) → onLeaves leaf xs m = (0, m') →
    Q (fun va => done va ∨ Walked xs va) m' := by
  induction xs with
  | nil =>
    intro done m h _ hr
    obtain rfl : m = m' := (Prod.mk.inj hr).2
    simpa [Walked] using h
  | cons x xs ih =>
    intro done m h hxs hr
    obtain ⟨hzero, hr⟩ := forEach_cons_zero hr
    obtain ⟨hpte, hv⟩ := hxs x List.mem_cons_self
    have hrest := fun y hy => hxs y (List.mem_cons_of_mem x hy)
    by_cases htrap : IsTrapPage x.1
    · rw [hleaf.skip x.1 x.2 m htrap] at hr
      simp only [walked_cons_trap htrap]
      exact ih done m h hrest hr
    · rw [hpte] at hzero hv hr
      simp only [walked_cons htrap, ← or_assoc]
      exact ih _ _ (hstep done x.1 m _ h hv htrap hzero) hrest hr

theorem LeafAction.walk (h : ReadyToCopy m0 src dst) (hstart : Q (fun _ => False) m0)
    (hr : walkTree leaf 2 src 0 m0 = (0, m')) : Q (Walked (leaves m0 2 src 0)) m' := by
  rw [hleaf.walkTree_eq h] at hr
  have hentry : ∀ x ∈ leaves m0 2 src 0, x.2 = pteOf src x.1 m0 ∧ x.2 &&& pteV ≠ 0 := by
    intro x hx
    obtain ⟨-, -, hpte, hv⟩ := mem_leaves.mp hx
    exact ⟨hpte.symm, hv⟩
  simpa using hleaf.run hstep _ _ _ hstart hentry hr

end Walk

theorem copyLeaf_action (dst : ℕ) : LeafAction dst (copyLeaf dst) :=
  ⟨copyLeaf_result dst, fun va pte _ h => copyLeaf_edited h va pte, fun _ _ _ htrap => if_pos htrap⟩

theorem uvmcopyTree_copied (h : ReadyToCopy m src dst) (hr : uvmcopyTree src dst m = (0, m')) :
    ∃ frame, Copied m src dst (Walked (leaves m 2 src 0)) frame m' := by
  rw [uvmcopyTree, if_neg h.ne_zero] at hr
  refine (copyLeaf_action dst).walk (Q := fun done m' => ∃ frame, Copied m src dst done frame m')
    ?_ h ⟨id, Edited.refl h.target, fun _ hf => hf.elim, fun _ _ hf => hf.elim⟩ hr
  rintro done va m1 m2 ⟨frame, hcopied⟩ hv htrap hzero
  exact hcopied.step h hv htrap hzero

/-- The pages that a table can hold for user programs. -/
def IsUserPage (va : ℕ) : Prop := pageSize ∣ va ∧ va < 2 ^ 39 ∧ ¬ IsTrapPage va

theorem exists_pageVa (va : ℕ) : ∃ va0, IsPageVa va0 ∧ vpn va = vpn va0 := by
  have hlt : vpn va < 2 ^ 27 := Nat.mod_lt _ (by decide)
  refine ⟨vpn va * pageSize, ⟨Dvd.intro_left _ rfl, ?_⟩, ?_⟩
  · norm_num at hlt ⊢
    omega
  · generalize vpn va = n at hlt ⊢
    unfold vpn
    norm_num at hlt ⊢
    omega

theorem vpn_inj (hva : pageSize ∣ va) (hva' : pageSize ∣ va') (hlt : va < 2 ^ 39)
    (hlt' : va' < 2 ^ 39) (h : vpn va = vpn va') : va = va' := by
  unfold vpn at h
  norm_num at h hva hva' hlt hlt'
  omega

theorem walked_leaves_iff (hva : IsUserPage va) :
    Walked (leaves m 2 src 0) va ↔ IsMapped src va m := by
  obtain ⟨hdvd, hlt, htrap⟩ := hva
  constructor
  · rintro ⟨x, hx, -, hvpn⟩
    obtain ⟨-, -, hpte, hv⟩ := mem_leaves.mp hx
    rwa [IsMapped, pteOf_congr hvpn, hpte]
  · intro hv
    exact ⟨(va, pteOf src va m), mem_leaves.mpr ⟨hdvd, hlt, rfl, hv⟩, htrap, rfl⟩

theorem pteFlags_lt (pte : ℕ) : pteFlags pte < 1024 := by
  rw [pteFlags_eq]
  exact Nat.mod_lt _ (by decide)

section Entry

variable {page : ℕ} (h : CopyOf m0 dst va pte page m)

include h

theorem CopyOf.flags : pteFlags (pteOf dst va m) = pteFlags pte := by
  rw [h.entry, pteFlags_or h.isPage.holds (pteFlags_lt pte)]

theorem CopyOf.frameOf_eq : frameOf dst va m = page := by
  rw [frameOf, h.entry, pte2pa_or h.isPage.holds (pteFlags_lt pte)]

theorem CopyOf.isMapped_iff : IsMapped dst va m ↔ pte &&& pteV ≠ 0 := by
  rw [IsMapped, and_eq_flags (by decide), h.flags, ← and_eq_flags (by decide)]

end Entry

section Exact

variable {frame : ℕ → ℕ} (hcopied : Copied m src dst (Walked (leaves m 2 src 0)) frame m')

include hcopied

theorem Copied.copyOf (hva : IsUserPage va) (hv : IsMapped src va m) :
    CopyOf m dst va (pteOf src va m) (frame (vpn va)) m' :=
  hcopied.copies va ((walked_leaves_iff hva).mpr hv)

variable (h : ReadyToCopy m src dst)

include h

theorem Copied.isMapped_iff (hva : IsUserPage va) : IsMapped dst va m' ↔ IsMapped src va m := by
  by_cases hv : IsMapped src va m
  · exact (hcopied.copyOf hva hv).isMapped_iff
  · have hout : ¬ Walked (leaves m 2 src 0) va := fun hw => hv ((walked_leaves_iff hva).mp hw)
    rw [IsMapped, hcopied.edited.same va hout, h.empty]
    exact iff_of_false (fun hne => hne rfl) hv

theorem Copied.copyOf_frame (hva : IsUserPage va) (hv : IsMapped dst va m') :
    CopyOf m dst va (pteOf src va m) (frameOf dst va m') m' := by
  have hcopy := hcopied.copyOf hva ((hcopied.isMapped_iff h hva).mp hv)
  rwa [hcopy.frameOf_eq]

theorem Copied.frame_inj (hva : IsUserPage va) (hva' : IsUserPage va') (hv : IsMapped dst va m')
    (hv' : IsMapped dst va' m') (heq : frameOf dst va m' = frameOf dst va' m') : va = va' := by
  have hsrc := (hcopied.isMapped_iff h hva).mp hv
  have hsrc' := (hcopied.isMapped_iff h hva').mp hv'
  rw [(hcopied.copyOf hva hsrc).frameOf_eq, (hcopied.copyOf hva' hsrc').frameOf_eq] at heq
  have hvpn := hcopied.distinct va va' ((walked_leaves_iff hva).mpr hsrc)
    ((walked_leaves_iff hva').mpr hsrc') heq
  exact vpn_inj hva.1 hva'.1 hva.2.1 hva'.2.1 hvpn

end Exact

/-! ## Sharing the pages of a table -/

variable {m m0 m' : Memory} {src dst va pte : ℕ}

theorem shareLeaf_spec (h : Table m dst) (va pte : ℕ) :
    Grown dst (AtPage va) m (shareLeaf dst va pte m).2 ∧
      (IsTrapPage va ∧ shareLeaf dst va pte m = (0, m) ∨
        ¬ IsTrapPage va ∧ ((shareLeaf dst va pte m).1 = -enomem ∨
          (shareLeaf dst va pte m).1 = 0 ∧ pteOf dst va (shareLeaf dst va pte m).2 = pte)) := by
  unfold shareLeaf
  by_cases htrap : va = trampoline ∨ va = trapframe
  · rw [if_pos htrap]
    exact ⟨Grown.refl h, Or.inl ⟨htrap, rfl⟩⟩
  rw [if_neg htrap]
  obtain ⟨r, m1, hr, hgrown, hloc⟩ := h.va2pte va
  rw [hr]
  cases r with
  | none => exact ⟨hgrown.any, Or.inr ⟨htrap, Or.inl rfl⟩⟩
  | some loc =>
    obtain ⟨hset, hnew⟩ := (hloc loc rfl).2 pte
    exact ⟨hset, Or.inr ⟨htrap, Or.inr ⟨rfl, hnew⟩⟩⟩

theorem shareLeaf_action (dst : ℕ) : LeafAction dst (shareLeaf dst) := by
  refine ⟨fun va pte m => ?_, fun va pte m h => ?_, fun _ _ _ htrap => if_pos htrap⟩
  · unfold shareLeaf
    split
    · exact Or.inl rfl
    · split
      · exact Or.inr rfl
      · exact Or.inl rfl
  · exact h.trans ((shareLeaf_spec h.table va pte).1.toEdited.mono (fun _ _ => trivial))

/-- The addresses of `done` have the entries of the source. -/
structure Shared (m0 : Memory) (src dst : ℕ) (done : ℕ → Prop) (m : Memory) : Prop where
  edited : Edited dst done m0 m
  entry : ∀ va, done va → pteOf dst va m = pteOf src va m0

theorem Shared.step (h : Shared m0 src dst done m) (htrap : ¬ IsTrapPage va)
    (hr : shareLeaf dst va (pteOf src va m0) m = (0, m')) :
    Shared m0 src dst (fun va' => done va' ∨ vpn va' = vpn va) m' := by
  obtain ⟨hgrown, hcases⟩ := shareLeaf_spec h.edited.table va (pteOf src va m0)
  rw [hr] at hgrown hcases
  dsimp only at hgrown hcases
  have hnew : pteOf dst va m' = pteOf src va m0 := by
    rcases hcases with ⟨htrap', -⟩ | ⟨-, herr | ⟨-, hnew⟩⟩
    · exact absurd htrap' htrap
    · exact absurd herr (by decide)
    · exact hnew
  refine ⟨(h.edited.mono (fun _ hd => Or.inl hd)).trans
    (hgrown.toEdited.mono (fun _ he => Or.inr he)), ?_⟩
  intro va' hdone
  by_cases hvpn : vpn va' = vpn va
  · rw [pteOf_congr hvpn, hnew, pteOf_congr hvpn]
  · rw [hgrown.same va' hvpn, h.entry va' (hdone.resolve_right hvpn)]

/-- `uvmshare_tree` gives the destination the valid entries of the source and no others. -/
theorem uvmshareTree_shared (h : ReadyToCopy m src dst) (hr : uvmshareTree src dst m = (0, m')) :
    Shared m src dst (Walked (leaves m 2 src 0)) m' := by
  rw [uvmshareTree, if_neg h.ne_zero] at hr
  exact (shareLeaf_action dst).walk (fun _ _ _ _ hshared _ htrap hzero => hshared.step htrap hzero)
    h ⟨Edited.refl h.target, fun _ hf => hf.elim⟩ hr

end NoobKernel.Vm
