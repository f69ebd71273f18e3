import NoobKernel.Model.PageTable
import NoobKernel.Library.Radix
import Mathlib.Tactic.NormNum
import NoobKernel.Verification.Math

/-! # Entries and indices of page tables -/

namespace NoobKernel.Vm

variable {pa pte f c va va' perm page : ℕ} {answers : List ℕ} {i : Index}

/-! ## Entries -/

theorem pageAligned_iff (a : ℕ) : pageAligned a = true ↔ pageSize ∣ a := by
  have hmod : a &&& (pageSize - 1) = a % pageSize := Nat.and_two_pow_sub_one_eq_mod a 12
  rw [pageAligned, decide_eq_true_eq, hmod, Nat.dvd_iff_mod_eq_zero]

theorem pteFlags_eq (pte : ℕ) : pteFlags pte = pte % 1024 := Nat.and_two_pow_sub_one_eq_mod pte 10

/-- Physical addresses that an entry can hold. -/
def Holds (pa : ℕ) : Prop := pageSize ∣ pa ∧ pa < 2 ^ 56

theorem IsPage.holds (h : IsPage pa) : Holds pa := by
  refine ⟨h.1, lt_of_lt_of_le h.2.2 ?_⟩
  norm_num [pmEnd, pmStart, memSize]

theorem pa2pte_eq (h : Holds pa) : pa2pte pa = pa / 4096 * 1024 := by
  have hlt : pa / 4096 * 1024 < wordSize := by
    have hdiv : pa / 4096 < 2 ^ 44 := Nat.div_lt_of_lt_mul (by simpa using h.2)
    norm_num at hdiv ⊢
    omega
  unfold pa2pte
  rw [Nat.shiftRight_eq_div_pow, Nat.shiftLeft_eq]
  exact Nat.mod_eq_of_lt hlt

theorem pa2pte_or (h : Holds pa) (hf : f < 1024) : pa2pte pa ||| f = pa / 4096 * 1024 + f := by
  have hor := Nat.shiftLeft_add_eq_or_of_lt (i := 10) hf (pa / 4096)
  rw [Nat.shiftLeft_eq] at hor
  rw [pa2pte_eq h]
  exact hor.symm

theorem pte2pa_or (h : Holds pa) (hf : f < 1024) : pte2pa (pa2pte pa ||| f) = pa := by
  have hpa : pa / 4096 * 4096 = pa := Nat.div_mul_cancel h.1
  have hlt : pa < wordSize := lt_trans h.2 (by norm_num)
  rw [pa2pte_or h hf, pte2pa, Nat.shiftRight_eq_div_pow, Nat.shiftLeft_eq]
  have hdiv : (pa / 4096 * 1024 + f) / 2 ^ 10 = pa / 4096 := by omega
  rw [hdiv, show 2 ^ pageShift = 4096 from rfl, hpa]
  exact Nat.mod_eq_of_lt hlt

theorem pteFlags_or (h : Holds pa) (hf : f < 1024) : pteFlags (pa2pte pa ||| f) = f := by
  rw [pa2pte_or h hf, pteFlags_eq]
  omega

theorem and_eq_flags (hc : 0x3ff &&& c = c) : pte &&& c = pteFlags pte &&& c := by
  rw [pteFlags, Nat.and_assoc, hc]

/-- The flags of a mapped page. -/
def leafFlags (perm : ℕ) : ℕ := perm ||| pteV ||| pteA ||| if perm &&& pteW ≠ 0 then pteD else 0

theorem leafPte_eq (pa perm : ℕ) : leafPte pa perm = pa2pte pa ||| leafFlags perm := by
  simp only [leafPte, leafFlags, Nat.or_assoc]

theorem leafFlags_lt (h : perm < 256) : leafFlags perm < 1024 := by
  have hlt : leafFlags perm < 2 ^ 8 := by
    refine Nat.or_lt_two_pow (Nat.or_lt_two_pow (Nat.or_lt_two_pow h (by decide)) (by decide)) ?_
    split <;> decide
  exact lt_trans hlt (by decide)

theorem leafFlags_valid (perm : ℕ) : leafFlags perm &&& pteV ≠ 0 := by
  intro h
  have hbit : (leafFlags perm &&& pteV).testBit 0 = true := by
    simp [leafFlags]
  rw [h] at hbit
  cases hbit

theorem leafPte_valid (h : Holds pa) (hp : perm < 256) : leafPte pa perm &&& pteV ≠ 0 := by
  rw [leafPte_eq, and_eq_flags (by decide), pteFlags_or h (leafFlags_lt hp)]
  exact leafFlags_valid perm

/-! ## Indices -/

theorem px_val (level va : ℕ) : (px level va : ℕ) = va / 2 ^ (12 + 9 * level) % 512 := by
  have hmod : (va >>> pxShift level) &&& 0x1ff = (va >>> pxShift level) % 512 :=
    Nat.and_two_pow_sub_one_eq_mod _ 9
  change (va >>> pxShift level) &&& 0x1ff = _
  rw [hmod, Nat.shiftRight_eq_div_pow]
  rfl

/-- The number of the page that an address selects in a table. -/
def vpn (va : ℕ) : ℕ := va / pageSize % 2 ^ 27

/-- The addresses of a page. -/
abbrev AtPage (va va' : ℕ) : Prop := vpn va' = vpn va

theorem px_eq_iff : (px 2 va = px 2 va' ∧ px 1 va = px 1 va' ∧ px 0 va = px 0 va') ↔
    vpn va = vpn va' := by
  have hsplit : ∀ a, vpn a = (px 2 a : ℕ) * 2 ^ 18 + (px 1 a : ℕ) * 512 + (px 0 a : ℕ) := by
    intro a
    rw [px_val, px_val, px_val, vpn]
    norm_num
    omega
  constructor
  · rintro ⟨h2, h1, h0⟩
    rw [hsplit va, hsplit va', h2, h1, h0]
  · intro h
    rw [hsplit va, hsplit va'] at h
    refine ⟨Fin.ext ?_, Fin.ext ?_, Fin.ext ?_⟩ <;> omega

theorem vpn_add {i : ℕ} (hva : pageSize ∣ va) (h : va + i * pageSize < vmEnd) :
    vpn (va + i * pageSize) = va / pageSize + i := by
  obtain ⟨k, rfl⟩ := hva
  unfold vpn
  norm_num at h ⊢
  omega

/-! ## The tree of a page table

A page table is a radix tree of depth two whose leaves are the entries of the pages. -/

open Library Library.Radix Function

/-- The table below an entry. -/
def pteChild (pte : ℕ) : Option ℕ := if pte &&& pteV ≠ 0 then some (pte2pa pte) else none

theorem pteChild_of_valid {pte : ℕ} (h : pte &&& pteV ≠ 0) : pteChild pte = some (pte2pa pte) :=
  if_pos h

theorem pteChild_of_invalid {pte : ℕ} (h : pte &&& pteV = 0) : pteChild pte = none :=
  if_neg (not_not.mpr h)

/-- The indices of an address above level zero, from a level downward. -/
def indices (va : ℕ) : ℕ → List Index
  | 0 => []
  | level + 1 => px (level + 1) va :: indices va level

theorem indices_length (va level : ℕ) : (indices va level).length = level := by
  induction level with
  | zero => rfl
  | succ level ih => rw [indices, List.length_cons, ih]

/-- The pages of the tables below a root. -/
abbrev Owns (m : Memory) (root a : ℕ) : Prop := Below pteChild m.word root 2 a

/-- A well-formed page table: its tables are pages in use, each with one place in the tree, and
leaves are at level zero only. -/
structure Table (m : Memory) (root : ℕ) : Prop where
  separated : Separated pteChild m.word root 2
  pages : ∀ a, Owns m root a → IsPage a ∧ m.used a = true
  inner : ∀ path a i, path.length < 2 → descend pteChild m.word root path = some a →
    m.word a i &&& pteV ≠ 0 → ¬ IsLeaf (m.word a i)

variable {m m' m'' : Memory} {root pt a va va' level : ℕ} {path : List Index}

theorem IsPage.ne_zero (h : IsPage a) : a ≠ 0 := Nat.ne_of_gt (lt_of_lt_of_le (by decide) h.2.1)

theorem Table.root_ne_zero (h : Table m root) : root ≠ 0 := (h.pages root Below.self).1.ne_zero

/-! ## Lookups -/

theorem va2pteLevel_false (va level pt : ℕ) (m : Memory) : va2pteLevel va false level pt m =
    ((descend pteChild m.word pt (indices va level)).map (fun a => (a, px 0 va)), m) := by
  induction level generalizing pt with
  | zero => rfl
  | succ level ih =>
    unfold va2pteLevel
    by_cases hv : m.word pt (px (level + 1) va) &&& pteV ≠ 0
    · have hchild := pteChild_of_valid hv
      rw [if_pos hv, ih, indices, descend_cons_some hchild]
    · have hchild := pteChild_of_invalid (not_not.mp hv)
      rw [if_neg hv, indices, descend_cons_none hchild]
      rfl

theorem va2pte_false (root va : ℕ) (m : Memory) : va2pte root va false m =
    ((descend pteChild m.word root (indices va 2)).map (fun a => (a, px 0 va)), m) :=
  va2pteLevel_false va 2 root m

theorem pteOf_some (h : descend pteChild m.word root (indices va 2) = some a) :
    pteOf root va m = m.word a (px 0 va) := by
  rw [pteOf, va2pte_false, h]
  rfl

theorem pteOf_none (h : descend pteChild m.word root (indices va 2) = none) :
    pteOf root va m = 0 := by
  rw [pteOf, va2pte_false, h]
  rfl

theorem indices_eq_iff : (indices va 2 = indices va' 2 ∧ px 0 va = px 0 va') ↔
    vpn va = vpn va' := by
  rw [← px_eq_iff]
  simp [indices, and_assoc]

theorem pteOf_congr (h : vpn va = vpn va') : pteOf root va m = pteOf root va' m := by
  obtain ⟨hind, hpx⟩ := indices_eq_iff.mpr h
  rw [pteOf, pteOf, va2pte_false, va2pte_false, hind, hpx]

theorem pteOf_of_word (h : m'.word = m.word) : pteOf root va m' = pteOf root va m := by
  rw [pteOf, pteOf, va2pte_false, va2pte_false, h]

theorem owns_congr (h : ∀ b, Owns m root b → m'.word b = m.word b) :
    Owns m' root a ↔ Owns m root a :=
  below_congr (fun _ hlen => descend_congr_below h hlen)

theorem pteOf_same (hva : descend pteChild m'.word root (indices va 2) =
      descend pteChild m.word root (indices va 2))
    (h : ∀ b, descend pteChild m.word root (indices va 2) = some b →
      m'.word b (px 0 va) = m.word b (px 0 va)) : pteOf root va m' = pteOf root va m := by
  cases hb : descend pteChild m.word root (indices va 2) with
  | none => rw [pteOf_none hb, pteOf_none (hva.trans hb)]
  | some b => rw [pteOf_some hb, pteOf_some (hva.trans hb), h b hb]

theorem pteOf_owned (h : ∀ b, Owns m root b → m'.word b = m.word b) (va : ℕ) :
    pteOf root va m' = pteOf root va m := by
  have hlen := (indices_length va 2).le
  exact pteOf_same (descend_congr_below h hlen) fun b hb => by rw [h b ⟨_, hlen, hb⟩]

theorem ne_of_used {b : ℕ} (hu : m.used a = true) (hfree : m.used b = false) : a ≠ b := by
  rintro rfl
  rw [hu] at hfree
  cases hfree

/-! ## Changes of a table -/

/-- The table has changed at the pages in `P` only, and has taken no page that was in use. -/
structure Edited (root : ℕ) (P : ℕ → Prop) (m m' : Memory) : Prop where
  table : Table m' root
  same : ∀ va, ¬ P va → pteOf root va m' = pteOf root va m
  frame : ∀ a, m.used a = true → ¬ Owns m root a → m'.word a = m.word a
  used : ∀ a, m.used a = true → m'.used a = true
  fresh : ∀ a, Owns m' root a → Owns m root a ∨ m.used a = false

namespace Edited

variable {P P' : ℕ → Prop}

theorem refl (h : Table m root) : Edited root P m m :=
  ⟨h, fun _ _ => rfl, fun _ _ _ => rfl, fun _ hu => hu, fun _ ho => Or.inl ho⟩

variable (h : Edited root P m m')

include h

theorem mono (hP : ∀ va, P va → P' va) : Edited root P' m m' :=
  ⟨h.table, fun va hva => h.same va (fun hp => hva (hP va hp)), h.frame, h.used, h.fresh⟩

theorem notOwns (hu : m.used a = true) (hnot : ¬ Owns m root a) :
    ¬ Owns m' root a := by
  intro hown
  rcases h.fresh a hown with hold | hfree
  · exact hnot hold
  · exact ne_of_used hu hfree rfl

theorem unused (hfree : m'.used a = false) : m.used a = false := by
  rw [← Bool.not_eq_true]
  exact fun hu => ne_of_used (h.used a hu) hfree rfl

theorem trans (h' : Edited root P m' m'') : Edited root P m m'' := by
  refine ⟨h'.table, ?_, ?_, fun a hu => h'.used a (h.used a hu), ?_⟩
  · intro va hva
    rw [h'.same va hva, h.same va hva]
  · intro a hu ho
    rw [h'.frame a (h.used a hu) (h.notOwns hu ho), h.frame a hu ho]
  · intro a ho
    rcases h'.fresh a ho with hown | hfree
    · exact h.fresh a hown
    · exact Or.inr (h.unused hfree)

end Edited

theorem Table.other (h : Table m root)
    (hsame : ∀ a, Owns m root a → m'.word a = m.word a ∧ m'.used a = true) : Table m' root := by
  have hword : ∀ a, Owns m root a → m'.word a = m.word a := fun a ha => (hsame a ha).1
  refine ⟨h.separated.congr (fun _ hlen => descend_congr_below hword hlen), ?_, ?_⟩
  · intro a ha
    have hold := (owns_congr hword).mp ha
    exact ⟨(h.pages a hold).1, (hsame a hold).2⟩
  · intro path a i hlen hpath
    rw [descend_congr_below hword hlen.le] at hpath
    rw [hword a ⟨path, hlen.le, hpath⟩]
    exact h.inner path a i hlen hpath

theorem Edited.of_outside {P : ℕ → Prop} (h : Table m root)
    (hword : ∀ a, m.used a = true → m'.word a = m.word a)
    (hused : ∀ a, m.used a = true → m'.used a = true) : Edited root P m m' := by
  have hown : ∀ a, Owns m root a → m'.word a = m.word a := fun a ha => hword a (h.pages a ha).2
  exact ⟨h.other (fun a ha => ⟨hown a ha, hused a (h.pages a ha).2⟩),
    fun va _ => pteOf_owned hown va, fun a hu _ => hword a hu, hused,
    fun a ha => Or.inl ((owns_congr hown).mp ha)⟩

theorem Edited.kfree {P : ℕ → Prop} (h : Edited root P m m') (hfree : m.used a = false)
    (hnot : ¬ Owns m' root a) : Edited root P m (kfree a m') := by
  refine ⟨⟨h.table.separated, ?_, h.table.inner⟩, ?_, h.frame, ?_, h.fresh⟩
  · intro b hb
    have hba : b ≠ a := fun he => hnot (he ▸ hb)
    obtain ⟨hpage, hu⟩ := h.table.pages b hb
    exact ⟨hpage, (update_of_ne hba _ _).trans hu⟩
  · intro va hva
    have hword : (Vm.kfree a m').word = m'.word := rfl
    rw [pteOf_of_word hword, h.same va hva]
  · intro b hu
    exact (update_of_ne (ne_of_used hu hfree) _ _).trans (h.used b hu)

/-- Besides, the pages that have come into use are tables, and no table was given up. -/
structure Grown (root : ℕ) (P : ℕ → Prop) (m m' : Memory) : Prop extends Edited root P m m' where
  owns : ∀ a, Owns m root a → Owns m' root a
  tables : ∀ a, m'.used a = true → m.used a = true ∨ Owns m' root a

namespace Grown

variable {P P' : ℕ → Prop}

theorem of_word (h : Table m root) (hword : m'.word = m.word) (hused : m'.used = m.used) :
    Grown root P m m' := by
  refine ⟨.of_outside h (fun a _ => by rw [hword]) fun a hu => by rwa [hused], fun a ha => ?_,
    fun a ha => ?_⟩
  · rwa [Owns, hword]
  · rw [hused] at ha
    exact Or.inl ha

theorem refl (h : Table m root) : Grown root P m m := of_word h rfl rfl

theorem mono (h : Grown root P m m') (hP : ∀ va, P va → P' va) : Grown root P' m m' :=
  ⟨h.toEdited.mono hP, h.owns, h.tables⟩

theorem trans (h : Grown root P m m') (h' : Grown root P m' m'') : Grown root P m m'' := by
  refine ⟨h.toEdited.trans h'.toEdited, fun a ha => h'.owns a (h.owns a ha), fun a ha => ?_⟩
  rcases h'.tables a ha with hu | hown
  · exact (h.tables a hu).imp_right (h'.owns a)
  · exact Or.inr hown

section

variable (h : Grown root (fun _ => False) m m')

include h

theorem any : Grown root P m m' := h.mono (fun _ hf => hf.elim)

theorem pteOf_eq (va : ℕ) : pteOf root va m' = pteOf root va m := h.same va (fun hf => hf)

end

end Grown

/-! ## A leaf is written -/

theorem setPte_word_ne {loc : ℕ × Index} {v : ℕ} (ha : a ≠ loc.1) :
    (setPte loc v m).word a = m.word a :=
  update_of_ne ha _ _

theorem Table.setPte (h : Table m root) (v : ℕ)
    (ha : descend pteChild m.word root (indices va 2) = some a) :
    Grown root (AtPage va) m (setPte (a, px 0 va) v m) ∧
      pteOf root va (setPte (a, px 0 va) v m) = v := by
  have hdesc : ∀ path : List Index, path.length ≤ 2 →
      descend pteChild (Vm.setPte (a, px 0 va) v m).word root path =
        descend pteChild m.word root path :=
    h.separated.write_leaf (indices_length va 2) ha (fun b hb => setPte_word_ne hb)
  have howns : ∀ b, Owns (Vm.setPte (a, px 0 va) v m) root b ↔ Owns m root b :=
    fun b => below_congr hdesc
  have hown : Owns m root a := ⟨indices va 2, (indices_length va 2).le, ha⟩
  have hleaf : ∀ va', descend pteChild (Vm.setPte (a, px 0 va) v m).word root (indices va' 2) =
      descend pteChild m.word root (indices va' 2) :=
    fun va' => hdesc _ (indices_length va' 2).le
  refine ⟨⟨⟨⟨h.separated.congr hdesc, ?_, ?_⟩, ?_, ?_, fun _ hu => hu, ?_⟩,
    fun b hb => (howns b).mpr hb, fun _ hu => Or.inl hu⟩, ?_⟩
  · intro b hb
    exact h.pages b ((howns b).mp hb)
  · intro path b i hlen hpath
    rw [hdesc path hlen.le] at hpath
    have hba : b ≠ a := by
      rintro rfl
      have heq := h.separated _ _ b hlen.le (indices_length va 2).le hpath ha
      rw [heq, indices_length] at hlen
      exact lt_irrefl _ hlen
    rw [setPte_word_ne hba]
    exact h.inner path b i hlen hpath
  · intro va' hne
    refine pteOf_same (hleaf va') fun b hb => ?_
    by_cases hba : b = a
    · subst hba
      have hpath : indices va' 2 = indices va 2 := h.separated _ _ b
        (indices_length va' 2).le (indices_length va 2).le hb ha
      have hpx : px 0 va' ≠ px 0 va := fun hpx => hne (indices_eq_iff.mp ⟨hpath, hpx⟩)
      simp [Vm.setPte, hpx]
    · rw [setPte_word_ne hba]
  · intro b _ hb
    refine setPte_word_ne ?_
    rintro rfl
    exact hb hown
  · intro b hb
    exact Or.inl ((howns b).mp hb)
  · rw [pteOf_some ((hleaf va).trans ha)]
    simp [Vm.setPte]

/-! ## A table is added -/

/-- The memory after a page was taken. -/
abbrev Memory.take (m : Memory) (page : ℕ) (answers : List ℕ) : Memory :=
  ⟨update m.word page (fun _ => 0), update m.used page true, answers⟩

theorem kzalloc_cases (m : Memory) :
    (∃ answers, kzalloc m = (none, { m with answers })) ∨
      ∃ pa answers, IsPage pa ∧ m.used pa = false ∧ kzalloc m = (some pa, m.take pa answers) := by
  unfold kzalloc
  cases hans : m.answers with
  | nil => exact Or.inl ⟨m.answers, rfl⟩
  | cons pa answers =>
    by_cases hpa : IsPage pa ∧ m.used pa = false
    · exact Or.inr ⟨pa, answers, hpa.1, hpa.2, by simp only [if_pos hpa]⟩
    · exact Or.inl ⟨answers, by simp only [if_neg hpa]⟩

theorem Table.notOwns (h : Table m root) (hfree : m.used a = false) : ¬ Owns m root a := by
  intro ho
  exact ne_of_used (h.pages a ho).2 hfree rfl

section

variable (hempty : m.word pt i &&& pteV = 0) (hpage : IsPage page)
  (hm' : m' = Vm.setPte (pt, i) (pa2pte page ||| pteV) (m.take page answers))

include hempty hpage hm'

theorem linked_setPte (hne : pt ≠ page) :
    m'.word = update (update m.word page (fun _ => 0)) pt
      (update (m.word pt) i (pa2pte page ||| pteV)) ∧
      Linked pteChild m.word m'.word pt page i := by
  have hword : m'.word = update (update m.word page (fun _ => 0)) pt
      (update (m.word pt) i (pa2pte page ||| pteV)) := by
    rw [hm', Vm.setPte]
    simp [hne]
  have hentry : pteChild (pa2pte page ||| pteV) = some page := by
    have hvalid : (pa2pte page ||| pteV) &&& pteV ≠ 0 := by
      rw [and_eq_flags (by decide), pteFlags_or hpage.holds (by decide)]
      decide
    rw [pteChild, if_pos hvalid, pte2pa_or hpage.holds (by decide)]
  refine ⟨hword, ?_, ?_, ?_, ?_, ?_⟩
  · rw [pteChild, if_neg (not_not.mpr hempty)]
  · rw [hword]
    simpa using hentry
  · intro j
    rw [hword, update_of_ne hne.symm, update_self]
    rfl
  · intro j hj
    rw [hword]
    simp [hj]
  · intro c hc hc'
    rw [hword, update_of_ne hc, update_of_ne hc']

theorem Table.link (h : Table m root) (hpath : descend pteChild m.word root path = some pt)
    (hlen : path.length < 2) (hfree : m.used page = false) :
    Grown root (fun _ => False) m m' ∧
      descend pteChild m'.word root (path ++ [i]) = some page := by
  have hown : Owns m root pt := ⟨path, hlen.le, hpath⟩
  have hnot : ¬ Owns m root page := h.notOwns hfree
  have hne : pt ≠ page := fun he => hnot (he ▸ hown)
  have hinner : ¬ IsLeaf (pa2pte page ||| pteV) := by
    rw [IsLeaf, and_eq_flags (by decide), pteFlags_or hpage.holds (by decide)]
    decide
  obtain ⟨hword, hlinked⟩ := linked_setPte hempty hpage hm' hne
  have hused : m'.used = update m.used page true := by
    rw [hm']
    rfl
  have hdesc := hlinked.descend_eq h.separated hpath hlen hnot
  have hbelow : ∀ b, Owns m' root b → b = page ∨ Owns m root b :=
    fun b hb => hlinked.below h.separated hpath hlen hnot hb
  have hnew : descend pteChild m'.word root (path ++ [i]) = some page := by
    rw [hdesc (path ++ [i]) (by simp; omega), if_pos rfl]
  refine ⟨⟨⟨⟨hlinked.separated h.separated hpath hlen hnot, ?_, ?_⟩, ?_, ?_, ?_, ?_⟩,
    fun b hb => hlinked.below_mono h.separated hpath hlen hnot hb, ?_⟩, hnew⟩
  · intro b hb
    rw [hused]
    rcases hbelow b hb with rfl | hold
    · exact ⟨hpage, update_self _ _ _⟩
    · obtain ⟨hb, hu⟩ := h.pages b hold
      have hbpage : b ≠ page := fun he => hnot (he ▸ hold)
      exact ⟨hb, by rwa [update_of_ne hbpage]⟩
  · intro path' b j hlen' hpath' hv
    rw [hdesc path' hlen'.le] at hpath'
    by_cases hnew : path' = path ++ [i]
    · rw [if_pos hnew] at hpath'
      obtain rfl : page = b := Option.some.inj hpath'
      rw [hword, update_of_ne hne.symm, update_self] at hv
      exact absurd rfl hv
    · rw [if_neg hnew] at hpath'
      have hbpage : b ≠ page := fun he => hnot ⟨path', hlen'.le, he ▸ hpath'⟩
      by_cases hbpt : b = pt
      · subst hbpt
        rw [hword, update_self] at hv ⊢
        by_cases hij : j = i
        · rw [hij, update_self]
          exact hinner
        · rw [update_of_ne hij] at hv ⊢
          exact h.inner path' b j hlen' hpath' hv
      · rw [hlinked.other b hbpt hbpage] at hv ⊢
        exact h.inner path' b j hlen' hpath' hv
  · intro va _
    have hva := hdesc (indices va 2) (indices_length va 2).le
    by_cases hnew : indices va 2 = path ++ [i]
    · rw [if_pos hnew] at hva
      have hold : descend pteChild m.word root (indices va 2) = none := by
        rw [hnew, descend_snoc hpath]
        exact hlinked.empty
      rw [pteOf_some hva, pteOf_none hold, hword, update_of_ne hne.symm, update_self]
    · rw [if_neg hnew] at hva
      refine pteOf_same hva fun b hb => ?_
      have hbpt : b ≠ pt := by
        rintro rfl
        have heq := h.separated _ _ b (indices_length va 2).le hlen.le hb hpath
        rw [← heq, indices_length] at hlen
        exact lt_irrefl _ hlen
      have hbpage : b ≠ page := by
        rintro rfl
        exact hnot ⟨_, (indices_length va 2).le, hb⟩
      rw [hlinked.other b hbpt hbpage]
  · intro b hu ho
    have hbpt : b ≠ pt := fun he => ho (he ▸ hown)
    exact hlinked.other b hbpt (ne_of_used hu hfree)
  · intro b hu
    rw [hused]
    by_cases hb : b = page
    · subst hb
      simp
    · rwa [update_of_ne hb]
  · intro b hb
    rcases hbelow b hb with rfl | hold
    · exact Or.inr hfree
    · exact Or.inl hold
  · intro b hb
    by_cases hbpage : b = page
    · rw [hbpage]
      exact Or.inr ⟨path ++ [i], by simp; omega, hnew⟩
    · rw [hused, update_of_ne hbpage] at hb
      exact Or.inl hb

end

/-! ## `va2pte` with allocation -/

theorem va2pteLevel_spec (va level : ℕ) : ∀ (m : Memory) (path : List Index) (pt : ℕ),
    Table m root → descend pteChild m.word root path = some pt → path.length + level = 2 →
    ∃ r m', va2pteLevel va true level pt m = (r, m') ∧ Grown root (fun _ => False) m m' ∧
      ∀ loc, r = some loc → loc.2 = px 0 va ∧
        descend pteChild m'.word root (path ++ indices va level) = some loc.1 := by
  induction level with
  | zero =>
    intro m path pt h hpath _
    refine ⟨some (pt, px 0 va), m, rfl, Grown.refl h, ?_⟩
    intro loc hloc
    cases hloc
    rw [indices, List.append_nil]
    exact ⟨rfl, hpath⟩
  | succ level ih =>
    intro m path pt h hpath hlen
    unfold va2pteLevel
    have hassoc : path ++ indices va (level + 1) =
        (path ++ [px (level + 1) va]) ++ indices va level := by
      simp [indices]
    rw [hassoc]
    by_cases hv : m.word pt (px (level + 1) va) &&& pteV ≠ 0
    · rw [if_pos hv]
      refine ih m _ _ h ?_ (by simp; omega)
      rw [descend_snoc hpath]
      exact if_pos hv
    · rw [if_neg hv]
      rcases kzalloc_cases m with ⟨answers, hnone⟩ | ⟨page, answers, hpage, hfree, hsome⟩
      · rw [hnone]
        refine ⟨none, _, rfl, Grown.of_word h rfl rfl, ?_⟩
        intro loc hloc
        cases hloc
      · rw [hsome]
        obtain ⟨hedit, hnew⟩ := h.link (not_not.mp hv) hpage rfl hpath (by omega) hfree
        obtain ⟨r, m', hr, hedit', hloc⟩ := ih _ _ _ hedit.table hnew (by simp; omega)
        exact ⟨r, m', hr, hedit.trans hedit', hloc⟩

/-- `va2pte` with allocation changes no entry, and the entry that it finds can be written. -/
theorem Table.va2pte (h : Table m root) (va : ℕ) :
    ∃ r m', va2pte root va true m = (r, m') ∧ Grown root (fun _ => False) m m' ∧
      ∀ loc, r = some loc → m'.word loc.1 loc.2 = pteOf root va m ∧ ∀ v,
        Grown root (AtPage va) m (Vm.setPte loc v m') ∧
          pteOf root va (Vm.setPte loc v m') = v := by
  obtain ⟨r, m', hr, hgrown, hloc⟩ := va2pteLevel_spec va 2 m [] root h rfl rfl
  refine ⟨r, m', hr, hgrown, ?_⟩
  rintro ⟨a, i⟩ hsome
  obtain ⟨rfl, hdesc⟩ := hloc _ hsome
  refine ⟨by rw [← hgrown.pteOf_eq, pteOf_some hdesc], fun v => ?_⟩
  obtain ⟨hset, hnew⟩ := hgrown.table.setPte v hdesc
  exact ⟨hgrown.any.trans hset, hnew⟩

theorem Table.findPte (h : Table m root) (va : ℕ) :
    (Vm.va2pte root va false m = (none, m) ∧ pteOf root va m = 0) ∨
      ∃ loc, Vm.va2pte root va false m = (some loc, m) ∧ m.word loc.1 loc.2 = pteOf root va m ∧
        ∀ v, Grown root (AtPage va) m (Vm.setPte loc v m) ∧
          pteOf root va (Vm.setPte loc v m) = v := by
  rw [va2pte_false]
  cases ha : descend pteChild m.word root (indices va 2) with
  | none => exact Or.inl ⟨rfl, pteOf_none ha⟩
  | some a => exact Or.inr ⟨_, rfl, (pteOf_some ha).symm, fun v => h.setPte v ha⟩

/-! ## Mapping and unmapping -/

open Nat

variable {n i : ℕ}

/-- The pages of a range of virtual addresses. -/
def InRange (va n va' : ℕ) : Prop := ∃ i < n, vpn va' = vpn (va + i * pageSize)

/-- A page-aligned range inside the virtual address space. -/
def InVm (va n : ℕ) : Prop := pageSize ∣ va ∧ va + n * pageSize ≤ vmEnd

/-- A page-aligned range inside the physical address space. -/
def InPm (pa n : ℕ) : Prop := pageSize ∣ pa ∧ pageSize ≤ pa ∧ pa + n * pageSize ≤ pmEnd

theorem InVm.tail (h : InVm va (n + 1)) : InVm (va + pageSize) n := by
  refine ⟨Nat.dvd_add h.1 (dvd_refl _), ?_⟩
  have hle := h.2
  rw [succ_mul] at hle
  omega

theorem InPm.tail (h : InPm pa (n + 1)) : InPm (pa + pageSize) n := by
  refine ⟨Nat.dvd_add h.1 (dvd_refl _), le_trans h.2.1 (Nat.le_add_right _ _), ?_⟩
  have hle := h.2.2
  rw [succ_mul] at hle
  omega

theorem InPm.holds (h : InPm pa n) (hi : i < n) : Holds (pa + i * pageSize) := by
  refine ⟨Nat.dvd_add h.1 (Dvd.intro_left i rfl), ?_⟩
  have hle := h.2.2
  have hmul : i * pageSize ≤ n * pageSize := mul_le_mul_right _ hi.le
  have hpm : pmEnd < 2 ^ 56 := by decide
  omega

theorem InVm.vpn (h : InVm va n) (hi : i < n) : Vm.vpn (va + i * pageSize) = va / pageSize + i := by
  refine vpn_add h.1 (lt_of_lt_of_le ?_ h.2)
  have hmul : i * pageSize < n * pageSize := mul_lt_mul_of_pos_right hi (by decide)
  omega

theorem InVm.vpn_inj {j : ℕ} (h : InVm va n) (hi : i < n) (hj : j < n)
    (heq : Vm.vpn (va + i * pageSize) = Vm.vpn (va + j * pageSize)) : i = j := by
  rw [h.vpn hi, h.vpn hj] at heq
  exact add_left_cancel heq

theorem range_succ (va i : ℕ) : va + pageSize + i * pageSize = va + (i + 1) * pageSize := by
  rw [succ_mul]
  omega

theorem InRange.tail (h : InRange (va + pageSize) n va') : InRange va (n + 1) va' := by
  obtain ⟨i, hi, heq⟩ := h
  exact ⟨i + 1, succ_lt_succ hi, by rw [heq, range_succ]⟩

theorem InRange.head (h : vpn va' = vpn va) : InRange va (n + 1) va' :=
  ⟨0, succ_pos n, by simpa using h⟩

theorem InVm.notInRange_tail (h : InVm va (n + 1)) : ¬ InRange (va + pageSize) n va := by
  rintro ⟨i, hi, heq⟩
  rw [range_succ] at heq
  have hzero : Vm.vpn (va + 0 * pageSize) = Vm.vpn (va + (i + 1) * pageSize) := by
    simpa using heq
  have := h.vpn_inj (succ_pos n) (succ_lt_succ hi) hzero
  omega

theorem InVm.notInRange (h : InVm va n) (hva' : va' < vmEnd)
    (hout : ¬ (va ≤ va' ∧ va' < va + n * pageSize)) : ¬ InRange va n va' := by
  rintro ⟨i, hi, heq⟩
  rw [h.vpn hi] at heq
  apply hout
  obtain ⟨⟨k, rfl⟩, hle⟩ := h
  unfold Vm.vpn at heq
  have hpos : 0 < pageSize := by decide
  have hvpn : va' / pageSize < 2 ^ 27 := by
    norm_num at hva' ⊢
    omega
  rw [Nat.mod_eq_of_lt hvpn] at heq
  norm_num at heq ⊢
  omega

/-! ## `mappages` -/

/-- The entries after a call that maps pages: some of them are new, and all if it succeeds. -/
structure Maps (root va pa n perm : ℕ) (m : Memory) (r : ℤ) (m' : Memory) : Prop where
  grown : Grown root (InRange va n) m m'
  entries : ∀ va', pteOf root va' m' = pteOf root va' m ∨
    ∃ i < n, pteOf root va' m' = leafPte (pa + i * pageSize) perm
  mapped : r = 0 → ∀ i < n, pteOf root (va + i * pageSize) m' = leafPte (pa + i * pageSize) perm ∧
    pteOf root (va + i * pageSize) m &&& pteV = 0

theorem mapLoop_spec (n : ℕ) : ∀ (m : Memory) (va pa : ℕ), Table m root → InVm va n →
    InPm pa n → perm < 256 →
    ∃ r m', mapLoop root n va pa perm m = (r, m') ∧ Maps root va pa n perm m r m' := by
  induction n with
  | zero =>
    intro m va pa h _ _ _
    refine ⟨0, m, rfl, Grown.refl h, fun _ => Or.inl rfl, ?_⟩
    intro _ i hi
    exact absurd hi (not_lt_zero i)
  | succ n ih =>
    intro m va pa h hva hpa hperm
    unfold mapLoop
    obtain ⟨r, m1, hr, hgrown, hloc⟩ := h.va2pte va
    rw [hr]
    cases r with
    | none =>
      exact ⟨-enomem, m1, rfl, hgrown.any, fun va' => Or.inl (hgrown.pteOf_eq va'),
        fun hzero => absurd hzero (by decide)⟩
    | some loc =>
      obtain ⟨hold, hwrite⟩ := hloc loc rfl
      dsimp only
      rw [hold]
      by_cases hv : pteOf root va m &&& pteV ≠ 0
      · rw [if_pos hv]
        exact ⟨-eaddrinuse, m1, rfl, hgrown.any, fun va' => Or.inl (hgrown.pteOf_eq va'),
          fun hzero => absurd hzero (by decide)⟩
      rw [if_neg hv]
      obtain ⟨hedit, hnew⟩ := hwrite (leafPte pa perm)
      have hvaw : (va + pageSize) % wordSize = va + pageSize := by
        refine Nat.mod_eq_of_lt (lt_of_le_of_lt (le_trans ?_ hva.2) (by decide))
        rw [succ_mul]
        omega
      have hpaw : (pa + pageSize) % wordSize = pa + pageSize := by
        refine Nat.mod_eq_of_lt (lt_of_le_of_lt (le_trans ?_ hpa.2.2) (by decide))
        rw [succ_mul]
        omega
      rw [hvaw, hpaw]
      obtain ⟨r, m', hr', hedit', hvalues, hmapped⟩ :=
        ih _ (va + pageSize) (pa + pageSize) hedit.table hva.tail hpa.tail hperm
      refine ⟨r, m', hr', ?_, ?_, ?_⟩
      · exact (hedit.mono (fun _ hp => InRange.head hp)).trans (hedit'.mono (fun _ hp => hp.tail))
      · intro va'
        rcases hvalues va' with hsame | ⟨i, hi, heq⟩
        · by_cases hvpn : Vm.vpn va' = Vm.vpn va
          · right
            refine ⟨0, succ_pos n, ?_⟩
            rw [hsame, pteOf_congr hvpn, hnew, zero_mul, add_zero]
          · left
            rw [hsame, hedit.same va' hvpn]
        · right
          exact ⟨i + 1, succ_lt_succ hi, by rw [heq, range_succ]⟩
      · intro hzero i hi
        cases i with
        | zero =>
          simp only [zero_mul, add_zero]
          rw [hedit'.same va hva.notInRange_tail, hnew]
          exact ⟨rfl, not_not.mp hv⟩
        | succ i =>
          obtain ⟨hentry, hinvalid⟩ := hmapped hzero i (lt_of_succ_lt_succ hi)
          rw [range_succ, range_succ] at hentry
          rw [range_succ] at hinvalid
          refine ⟨hentry, ?_⟩
          have hne : ¬ Vm.vpn (va + (i + 1) * pageSize) = Vm.vpn va := by
            intro heq
            have hzero' : Vm.vpn (va + (i + 1) * pageSize) =
                Vm.vpn (va + 0 * pageSize) := by simpa using heq
            have := hva.vpn_inj hi (succ_pos n) hzero'
            omega
          rwa [hedit.same _ hne] at hinvalid

theorem permMask_lt (perm : ℕ) : perm &&& permMask < 256 :=
  lt_of_le_of_lt and_le_right (by decide)

theorem mappages_eq (hroot : root ≠ 0) (hn : n ≠ 0) (hva : InVm va n) (hpa : InPm pa n) :
    mappages root va pa n perm m = mapLoop root n va pa (perm &&& permMask) m := by
  have hva' := (pageAligned_iff va).mpr hva.1
  have hpa' := (pageAligned_iff pa).mpr hpa.1
  have hvle : (va + n * pageSize) % wordSize ≤ vmEnd := le_trans (mod_le _ _) hva.2
  have hple : (pa + n * pageSize) % wordSize ≤ pmEnd := le_trans (mod_le _ _) hpa.2.2
  rw [mappages, if_neg hroot, if_neg (by simp [hva', hpa']), if_neg hn, if_neg (not_lt.mpr hvle),
    if_neg (not_lt.mpr hple)]

theorem Table.mappages (h : Table m root) (hva : InVm va n) (hpa : InPm pa n) (perm : ℕ) :
    ∃ r m', mappages root va pa n perm m = (r, m') ∧
      Maps root va pa n (perm &&& permMask) m r m' := by
  by_cases hn : n = 0
  · subst hn
    have hva' := (pageAligned_iff va).mpr hva.1
    have hpa' := (pageAligned_iff pa).mpr hpa.1
    refine ⟨0, m, ?_, Grown.refl h, fun _ => Or.inl rfl, fun _ i hi => absurd hi (not_lt_zero i)⟩
    simp [Vm.mappages, h.root_ne_zero, hva', hpa']
  · rw [mappages_eq h.root_ne_zero hn hva hpa]
    exact mapLoop_spec n m va pa h hva hpa (permMask_lt perm)

/-! ## `unmappages` -/

theorem unmapLoop_spec (n : ℕ) : ∀ (m : Memory) (va : ℕ), Table m root → InVm va n →
    Grown root (InRange va n) m (unmapLoop root n va m) ∧
      ∀ i < n, pteOf root (va + i * pageSize) (unmapLoop root n va m) &&& pteV = 0 := by
  induction n with
  | zero =>
    intro m va h _
    exact ⟨Grown.refl h, fun i hi => absurd hi (not_lt_zero i)⟩
  | succ n ih =>
    intro m va h hva
    -- one page becomes invalid, and the rest of the loop does not touch it
    have hstep : ∀ m1, Grown root (AtPage va) m m1 →
        pteOf root va m1 &&& pteV = 0 →
        Grown root (InRange va (n + 1)) m (unmapLoop root n (va + pageSize) m1) ∧
          ∀ i < n + 1, pteOf root (va + i * pageSize)
            (unmapLoop root n (va + pageSize) m1) &&& pteV = 0 := by
      intro m1 hedit hinvalid
      obtain ⟨hedit', hinvalid'⟩ := ih m1 (va + pageSize) hedit.table hva.tail
      refine ⟨(hedit.mono (fun _ hp => InRange.head hp)).trans
        (hedit'.mono (fun _ hp => hp.tail)), ?_⟩
      intro i hi
      cases i with
      | zero =>
        simp only [zero_mul, add_zero]
        rw [hedit'.same va hva.notInRange_tail]
        exact hinvalid
      | succ i =>
        have hi' := hinvalid' i (lt_of_succ_lt_succ hi)
        rwa [range_succ] at hi'
    unfold unmapLoop
    rcases h.findPte va with ⟨hnone, hzero⟩ | ⟨loc, hsome, hold, hwrite⟩
    · rw [hnone]
      refine hstep m (Grown.refl h) ?_
      rw [hzero]
      rfl
    · rw [hsome]
      dsimp only
      rw [hold]
      split
      · refine hstep _ (hwrite 0).1 ?_
        rw [(hwrite 0).2]
        rfl
      · rename_i hv
        exact hstep m (Grown.refl h) (not_not.mp hv)

theorem Table.unmappages (h : Table m root) (hva : InVm va n) :
    ∃ m', unmappages root va n m = (0, m') ∧ Grown root (InRange va n) m m' ∧
      ∀ i < n, pteOf root (va + i * pageSize) m' &&& pteV = 0 := by
  obtain ⟨hdvd, hle⟩ := hva
  have hword : va + n * pageSize < wordSize := lt_of_le_of_lt hle (by decide)
  have hstart : alignDown va pageSize = va := by
    rw [alignDown_two_pow (lt_of_le_of_lt (Nat.le_add_right _ _) hword) (by decide)]
    exact Nat.div_mul_cancel hdvd
  have hcount : ((va + n * pageSize) % wordSize - va) / pageSize = n := by
    rw [Nat.mod_eq_of_lt hword, Nat.add_sub_cancel_left]
    exact Nat.mul_div_cancel n (by decide)
  unfold Vm.unmappages
  simp only [hstart, hcount]
  exact ⟨_, rfl, unmapLoop_spec n m va h ⟨hdvd, hle⟩⟩

/-! ## `walkaddr` -/

/-- Entries through which user code can reach a page. -/
def UserPte (pte : ℕ) : Prop :=
  pte &&& pteV ≠ 0 ∧ pte &&& pteU ≠ 0 ∧ pte &&& (pteR ||| pteW ||| pteX) ≠ 0

instance (pte : ℕ) : Decidable (UserPte pte) := inferInstanceAs (Decidable (_ ∧ _ ∧ _))

theorem walkaddr_eq (hva : va < vmEnd) : walkaddr root va m =
    if UserPte (pteOf root va m) then pte2pa (pteOf root va m) else 0 := by
  unfold walkaddr
  rw [if_neg (not_le.mpr hva), va2pte_false]
  cases ha : descend pteChild m.word root (indices va 2) with
  | none =>
    rw [pteOf_none ha, if_neg (by decide)]
    rfl
  | some a =>
    rw [pteOf_some ha]
    simp only [Option.map_some, UserPte]
    split_ifs <;> simp_all

/-! ## Runs -/

/-- A page table from its creation on. In between, other code changes the memory outside the
tables and leaves the tables in use. -/
inductive Run (root : ℕ) : Memory → Prop
  | create {m0 m : Memory} : pagetableCreate m0 = (some root, m) → Run root m
  | map {m m' : Memory} (va pa n perm : ℕ) (r : ℤ) : Run root m → InVm va n → InPm pa n →
      mappages root va pa n perm m = (r, m') → Run root m'
  | unmap {m m' : Memory} (va n : ℕ) (r : ℤ) : Run root m → InVm va n →
      unmappages root va n m = (r, m') → Run root m'
  | other {m m' : Memory} : Run root m →
      (∀ a, Owns m root a → m'.word a = m.word a ∧ m'.used a = true) → Run root m'

theorem Table.create {m0 : Memory} (h : pagetableCreate m0 = (some root, m)) :
    Table m root ∧ (∀ va, pteOf root va m = 0) ∧ ∀ a, Owns m root a → a = root := by
  unfold pagetableCreate at h
  rcases kzalloc_cases m0 with ⟨answers, hnone⟩ | ⟨page, answers, hpage, -, hsome⟩
  · rw [hnone] at h
    cases h
  rw [hsome] at h
  cases h
  have hchild : ∀ i, pteChild (update m0.word root (fun _ => 0) root i) = none := by
    intro i
    rw [update_self]
    rfl
  have hdesc : ∀ path a, descend pteChild (update m0.word root (fun _ => 0)) root path =
      some a → path = [] ∧ a = root := by
    intro path a hpath
    cases path with
    | nil => exact ⟨rfl, (Option.some.inj hpath).symm⟩
    | cons i path =>
      rw [descend_cons_none (hchild i)] at hpath
      cases hpath
  refine ⟨⟨?_, ?_, ?_⟩, ?_, fun a ⟨path, _, hpath⟩ => (hdesc path a hpath).2⟩
  · intro path path' a _ _ hpath hpath'
    rw [(hdesc path a hpath).1, (hdesc path' a hpath').1]
  · rintro a ⟨path, -, hpath⟩
    obtain ⟨-, rfl⟩ := hdesc path a hpath
    exact ⟨hpage, update_self _ _ _⟩
  · intro path a i _ hpath hv
    obtain ⟨-, rfl⟩ := hdesc path a hpath
    dsimp only at hv
    rw [update_self] at hv
    exact absurd rfl hv
  · intro va
    exact pteOf_none (descend_cons_none (hchild _))

theorem Run.table (h : Run root m) :
    Table m root ∧ ∀ va, pteOf root va m &&& pteV ≠ 0 → pageSize ≤ pte2pa (pteOf root va m) := by
  induction h with
  | create hcreate =>
    obtain ⟨htable, hzero, -⟩ := Table.create hcreate
    refine ⟨htable, fun va hva => ?_⟩
    rw [hzero va] at hva
    exact absurd rfl hva
  | map va pa n perm r _ hva hpa hr ih =>
    obtain ⟨htable, hvalid⟩ := ih
    obtain ⟨r', m', hr', hedit, hvalues, -⟩ := htable.mappages hva hpa perm
    rw [hr] at hr'
    cases hr'
    refine ⟨hedit.table, fun va' hva' => ?_⟩
    rcases hvalues va' with hsame | ⟨i, hi, heq⟩
    · rw [hsame] at hva' ⊢
      exact hvalid va' hva'
    · rw [heq, leafPte_eq, pte2pa_or (hpa.holds hi) (leafFlags_lt (permMask_lt perm))]
      exact le_trans hpa.2.1 (Nat.le_add_right _ _)
  | unmap va n r _ hva hr ih =>
    obtain ⟨htable, hvalid⟩ := ih
    obtain ⟨m', hr', hedit, hinvalid⟩ := htable.unmappages hva
    rw [hr] at hr'
    cases hr'
    refine ⟨hedit.table, fun va' hva' => ?_⟩
    by_cases hin : InRange va n va'
    · obtain ⟨i, hi, heq⟩ := hin
      rw [pteOf_congr heq] at hva'
      exact absurd (hinvalid i hi) hva'
    · rw [hedit.same va' hin] at hva' ⊢
      exact hvalid va' hva'
  | other _ hsame ih =>
    obtain ⟨htable, hvalid⟩ := ih
    have htable' := htable.other hsame
    have hpte := pteOf_owned (fun a ha => (hsame a ha).1)
    refine ⟨htable', fun va hva => ?_⟩
    rw [hpte va] at hva ⊢
    exact hvalid va hva

/-- `mappages`, `unmappages` and `walkaddr` on every page table that they build. -/
theorem page_table_map (h : Run root m) :
    (∀ va pa n perm, InVm va n → InPm pa n → ∃ r m', mappages root va pa n perm m = (r, m') ∧
      (r = 0 → ∀ i < n, pteOf root (va + i * pageSize) m' &&& pteV ≠ 0 ∧
        pte2pa (pteOf root (va + i * pageSize) m') = pa + i * pageSize ∧
        pteFlags (pteOf root (va + i * pageSize) m') = (perm &&& 0xff) ||| pteV ||| pteA |||
          (if perm &&& pteW ≠ 0 then pteD else 0) ∧
        pteOf root (va + i * pageSize) m &&& pteV = 0) ∧
      ∀ va' < vmEnd, ¬ (va ≤ va' ∧ va' < va + n * pageSize) →
        pteOf root va' m' = pteOf root va' m) ∧
    (∀ va n, InVm va n → ∃ m', unmappages root va n m = (0, m') ∧
      (∀ i < n, pteOf root (va + i * pageSize) m' &&& pteV = 0) ∧
      ∀ va' < vmEnd, ¬ (va ≤ va' ∧ va' < va + n * pageSize) →
        pteOf root va' m' = pteOf root va' m) ∧
    ∀ va < vmEnd, (UserPte (pteOf root va m) →
        walkaddr root va m = pte2pa (pteOf root va m) ∧ walkaddr root va m ≠ 0) ∧
      (¬ UserPte (pteOf root va m) → walkaddr root va m = 0) := by
  obtain ⟨htable, hvalid⟩ := h.table
  refine ⟨?_, ?_, ?_⟩
  · intro va pa n perm hva hpa
    obtain ⟨r, m', hr, hedit, -, hmapped⟩ := htable.mappages hva hpa perm
    refine ⟨r, m', hr, ?_, fun va' hlt hout => hedit.same va' (hva.notInRange hlt hout)⟩
    intro hzero i hi
    obtain ⟨hentry, hinvalid⟩ := hmapped hzero i hi
    have hholds := hpa.holds hi
    have hflags := leafFlags_lt (permMask_lt perm)
    rw [hentry]
    refine ⟨leafPte_valid hholds (permMask_lt perm), ?_, ?_, hinvalid⟩
    · rw [leafPte_eq, pte2pa_or hholds hflags]
    · have hw : (perm &&& permMask) &&& pteW = perm &&& pteW := by
        rw [Nat.and_assoc]
        rfl
      rw [leafPte_eq, pteFlags_or hholds hflags, leafFlags, hw, show permMask = 0xff by decide]
  · intro va n hva
    obtain ⟨m', hr, hedit, hinvalid⟩ := htable.unmappages hva
    exact ⟨m', hr, hinvalid, fun va' hlt hout => hedit.same va' (hva.notInRange hlt hout)⟩
  · intro va hva
    rw [walkaddr_eq hva]
    constructor
    · intro huser
      rw [if_pos huser]
      have hpage := hvalid va huser.1
      exact ⟨rfl, ne_of_gt (lt_of_lt_of_le (by decide) hpage)⟩
    · intro huser
      rw [if_neg huser]

/-- Three pages become the tables of the first address, and a page is mapped there. -/
theorem page_table_map_first : ∃ root m m', Run root m ∧
    mappages root 0 pmStart 1 (pteR ||| pteW) m = (0, m') ∧
      pte2pa (pteOf root (0 + 0 * pageSize) m') = pmStart + 0 * pageSize := by
  set m0 : Memory := ⟨fun _ _ => 0, fun _ => false,
    [pmStart + pageSize, pmStart + 2 * pageSize, pmStart + 3 * pageSize]⟩
  have hcreate : pagetableCreate m0 = (some (pmStart + pageSize), (pagetableCreate m0).2) :=
    Prod.ext (by decide +kernel) rfl
  have hrun : Run (pmStart + pageSize) (pagetableCreate m0).2 := .create hcreate
  have hva : InVm 0 1 := ⟨by decide, by decide⟩
  have hpa : InPm pmStart 1 := ⟨by decide, by decide, by decide⟩
  obtain ⟨r, m', hr, hmapped, -⟩ := (page_table_map hrun).1 0 pmStart 1 (pteR ||| pteW) hva hpa
  have hzero : (mappages (pmStart + pageSize) 0 pmStart 1 (pteR ||| pteW)
      (pagetableCreate m0).2).1 = 0 := by decide +kernel
  rw [hr] at hzero
  obtain rfl : r = 0 := hzero
  exact ⟨_, _, m', hrun, hr, (hmapped rfl 0 (by decide)).2.1⟩

end NoobKernel.Vm
