import NoobKernel.Model.RadixTree
import Mathlib.Data.Fintype.Basic
import Mathlib.Data.Finset.Lattice.Fold

/-! # Radix trees are finite maps -/

namespace NoobKernel.Rxtree

open Function

variable {P : Key → Prop} {depth n value : ℕ} {key k k' : Key} {i : Fin 4} {c : Fin 4 → Node}
  {t child : Node} {mem : List Bool}

def find : Node → Key → ℕ → Option ℕ
  | .null, _, _ => none
  | .leaf key' value, key, _ => if key' = key then some value else none
  | .inner children, key, depth => find (children (index key depth)) key (depth + 1)

theorem lookupNode_eq (t : Node) (key : Key) (depth : ℕ) :
    lookupNode t key depth = (find t key depth).getD 0 := by
  induction t generalizing depth with
  | null => rfl
  | leaf key' value => by_cases h : key' = key <;> simp [lookupNode, find, h]
  | inner c ih => exact ih _ _

/-! ## Digits -/

theorem testBit_index (key : Key) {j : ℕ} (hj : j < 64) :
    (index key (31 - j / 2)).val.testBit (j % 2) = key.getLsbD j := by
  have hshift : 64 - (31 - j / 2 + 1) * 2 = j - j % 2 := by omega
  have hbit : (3#64).getLsbD (j % 2) = true := by
    rcases Nat.mod_two_eq_zero_or_one j with h | h <;> simp [h]
  simp only [index, hshift, Fin.ofNat]
  rw [show 4 = 2 ^ 2 from rfl, Nat.testBit_mod_two_pow, BitVec.testBit_toNat,
    BitVec.getLsbD_ushiftRight, BitVec.getLsbD_and, BitVec.getLsbD_shiftLeft]
  have hlt : j % 2 < 2 := Nat.mod_lt _ (by decide)
  rw [show j - j % 2 + j % 2 = j by omega, show j - (j - j % 2) = j % 2 by omega, hbit]
  simp [hj, hlt]

theorem eq_of_index (h : ∀ d < 32, index k d = index k' d) : k = k' := by
  apply BitVec.eq_of_getLsbD_eq
  intro j hj
  rw [← testBit_index k hj, h _ (by omega), testBit_index k' hj]

/-- The keys of a subtree have the same first digits. -/
def Agree (P : Key → Prop) (depth : ℕ) : Prop :=
  ∀ k k', P k → P k' → ∀ d < depth, index k d = index k' d

/-- The keys of a child. -/
def Branch (P : Key → Prop) (depth : ℕ) (i : Fin 4) (k : Key) : Prop := P k ∧ index k depth = i

theorem Agree.branch (h : Agree P depth) : Agree (Branch P depth i) (depth + 1) := by
  intro k k' hk hk' d hd
  rcases Nat.lt_succ_iff_lt_or_eq.mp hd with hlt | rfl
  · exact h k k' hk.1 hk'.1 d hlt
  · rw [hk.2, hk'.2]

theorem Agree.lt (h : Agree P depth) (hk : P k) (hk' : P k') (hne : k ≠ k') : depth < 32 := by
  by_contra hle
  exact hne (eq_of_index fun d hd => h k k' hk hk' d (by omega))

/-! ## Trees -/

/-- Each key lies where its digits lead. -/
def Placed : (Key → Prop) → ℕ → Node → Prop
  | _, _, .null => True
  | P, _, .leaf k _ => P k
  | P, depth, .inner c => depth < 32 ∧ ∀ i, Placed (Branch P depth i) (depth + 1) (c i)

theorem placed_update (hc : Placed P depth (.inner c))
    (hchild : Placed (Branch P depth i) (depth + 1) child) :
    Placed P depth (.inner (update c i child)) := by
  refine ⟨hc.1, fun j => ?_⟩
  by_cases hj : j = i
  · subst hj
    simpa using hchild
  · simpa [hj] using hc.2 j

theorem find_update (k : Key) : find (.inner (update c i child)) k depth =
    if index k depth = i then find child k (depth + 1) else find (.inner c) k depth := by
  by_cases hi : index k depth = i <;> simp [find, hi]

theorem placed_noChildren (h : depth < 32) : Placed P depth (.inner noChildren) :=
  ⟨h, fun _ => True.intro⟩

/-! ## Insertion -/

/-- What an insertion does: it fails and changes nothing, or the key has the value. -/
def Inserted (P : Key → Prop) (depth : ℕ) (t : Node) (key : Key) (value : ℕ)
    (x : Option (ℤ × Node × List Bool)) : Prop :=
  ∃ r t' mem, x = some (r, t', mem) ∧ (r = -enomem ∧ t' = t ∨ r = 0 ∧ Placed P depth t' ∧
    ∀ k, P k → find t' k depth = if key = k then some value else find t k depth)

theorem Inserted.failed : Inserted P depth t key value (some (-enomem, t, mem)) :=
  ⟨_, _, _, rfl, Or.inl ⟨rfl, rfl⟩⟩

theorem insertNode_spec (hn : n + depth = levels) (hdepth : depth ≤ 32) (hagree : Agree P depth)
    (ht : Placed P depth t) (hkey : P key) :
    Inserted P depth t key value (insertNode n t key value depth mem) := by
  induction n generalizing P depth t key value mem with
  | zero => exact absurd (Nat.zero_add depth ▸ hn) (by simp only [levels]; omega)
  | succ n ih =>
    cases t with
    | null =>
      rw [insertNode]
      generalize alloc mem = a
      obtain ⟨ok, mem⟩ := a
      cases ok with
      | false => exact Inserted.failed
      | true => exact ⟨_, _, _, rfl, Or.inr ⟨rfl, hkey, fun k _ => rfl⟩⟩
    | leaf key' value' =>
      rw [insertNode]
      by_cases heq : key' = key
      · subst heq
        rw [if_pos rfl]
        refine ⟨_, _, _, rfl, Or.inr ⟨rfl, hkey, fun k _ => ?_⟩⟩
        by_cases hk : key' = k <;> simp [find, hk]
      have hlt := hagree.lt ht hkey heq
      rw [if_neg heq]
      dsimp only
      generalize alloc mem = a
      obtain ⟨ok, mem⟩ := a
      cases ok with
      | false => exact Inserted.failed
      | true =>
        rw [if_neg (by simp)]
        by_cases hi : index key depth = index key' depth
        · -- the two keys go down together
          rw [if_pos hi]
          have hfirst : Inserted _ _ _ _ value (insertNode n .null key value (depth + 1) mem) :=
            ih (by omega) hlt hagree.branch True.intro ⟨hkey, rfl⟩
          obtain ⟨r, child, mem, hrun, hres⟩ := hfirst
          simp only [hrun, Option.bind_eq_bind, Option.bind_some]
          rcases hres with ⟨rfl, -⟩ | ⟨rfl, hplaced, hfind⟩
          · exact Inserted.failed
          have hsecond : Inserted _ _ _ _ value' (insertNode n child key' value' (depth + 1) mem) :=
            ih (by omega) hlt hagree.branch hplaced ⟨ht, hi.symm⟩
          obtain ⟨r, child', mem, hrun, hres⟩ := hsecond
          simp only [hrun, Option.bind_some]
          rcases hres with ⟨rfl, -⟩ | ⟨rfl, hplaced', hfind'⟩
          · exact Inserted.failed
          refine ⟨_, _, _, rfl, Or.inr ⟨rfl, placed_update (placed_noChildren hlt) hplaced', ?_⟩⟩
          intro k hk
          rw [find_update]
          by_cases hik : index k depth = index key depth
          · rw [if_pos hik, hfind' k ⟨hk, hik⟩, hfind k ⟨hk, hik⟩]
            grind [find]
          · grind [find, noChildren]
        · rw [if_neg hi]
          split
          · exact Inserted.failed
          refine ⟨_, _, _, rfl, Or.inr ⟨rfl, ?_, fun k hk => ?_⟩⟩
          · exact placed_update (placed_update (placed_noChildren hlt) ⟨hkey, rfl⟩) ⟨ht, rfl⟩
          · rw [find_update, find_update]
            grind [find, noChildren]
    | inner c =>
      obtain ⟨hlt, hc⟩ := ht
      have hchild : Inserted _ _ _ _ value (insertNode n _ key value (depth + 1) mem) :=
        ih (by omega) hlt hagree.branch (hc (index key depth)) ⟨hkey, rfl⟩
      obtain ⟨r, child, mem', hrun, hres⟩ := hchild
      rw [insertNode]
      simp only [hrun, Option.bind_eq_bind, Option.bind_some]
      refine ⟨_, _, _, rfl, ?_⟩
      rcases hres with ⟨rfl, rfl⟩ | ⟨rfl, hplaced, hfind⟩
      · exact Or.inl ⟨rfl, by rw [update_eq_self]⟩
      refine Or.inr ⟨rfl, placed_update ⟨hlt, hc⟩ hplaced, fun k hk => ?_⟩
      rw [find_update]
      by_cases hi : index k depth = index key depth
      · rw [if_pos hi, hfind k ⟨hk, hi⟩, find, hi]
      · rw [if_neg hi, if_neg fun heq => hi (by rw [heq])]

/-! ## Deletion -/

theorem eq_null_of_isNull (h : t.isNull = true) : t = .null := by
  cases t <;> first | rfl | cases h

/-- A node is replaced by nothing or by its only leaf. -/
theorem collapse_spec (hc : Placed P depth (.inner c)) : Placed P depth (collapse c) ∧
    ∀ k, P k → find (collapse c) k depth = find (.inner c) k depth := by
  have hnull : ∀ j, j ∉ (List.finRange 4).filter (fun i => !(c i).isNull) → c j = .null := by
    intro j hj
    exact eq_null_of_isNull (by simpa using hj)
  unfold collapse
  split
  next hnil =>
    refine ⟨True.intro, fun k _ => ?_⟩
    rw [find, find, hnull _ (by simp [hnil]), find]
  next i hone =>
    split
    next key value hleaf =>
      have hkey : Branch P depth i key := by simpa [hleaf, Placed] using hc.2 i
      refine ⟨hkey.1, fun k _ => ?_⟩
      by_cases hi : index k depth = i
      · rw [find, find, hi, hleaf, find]
      · rw [find, find, hnull _ (by simp [hone, hi]), find, if_neg]
        rintro rfl
        exact hi hkey.2
    · exact ⟨hc, fun _ _ => rfl⟩
  · exact ⟨hc, fun _ _ => rfl⟩

theorem deleteNode_spec (key : Key) (ht : Placed P depth t) (hkey : P key) :
    (deleteNode t key depth).1 = -einval ∧ (deleteNode t key depth).2 = t ∧
        find t key depth = none ∨
      (deleteNode t key depth).1 = 0 ∧ (find t key depth).isSome ∧
        Placed P depth (deleteNode t key depth).2 ∧
        ∀ k, P k → find (deleteNode t key depth).2 k depth =
          if key = k then none else find t k depth := by
  induction t generalizing P depth with
  | null => exact Or.inl ⟨rfl, rfl, rfl⟩
  | leaf key' value =>
    rw [deleteNode]
    by_cases heq : key' = key
    · subst heq
      rw [if_pos rfl]
      refine Or.inr ⟨rfl, by simp [find], True.intro, fun k _ => ?_⟩
      by_cases hk : key' = k <;> simp [find, hk]
    · rw [if_neg heq]
      exact Or.inl ⟨rfl, rfl, if_neg heq⟩
  | inner c ih =>
    have hchild := ih (index key depth) (ht.2 _) ⟨hkey, rfl⟩
    rw [deleteNode]
    generalize deleteNode (c (index key depth)) key (depth + 1) = x at hchild
    obtain ⟨r, child⟩ := x
    dsimp only at hchild ⊢
    rcases hchild with ⟨rfl, rfl, hnone⟩ | ⟨rfl, hsome, hplaced, hfind⟩
    · rw [if_neg (by decide), update_eq_self]
      exact Or.inl ⟨rfl, rfl, hnone⟩
    rw [if_pos rfl]
    obtain ⟨hplaced', hfind'⟩ := collapse_spec (placed_update ht hplaced)
    refine Or.inr ⟨rfl, hsome, hplaced', fun k hk => ?_⟩
    rw [hfind' k hk, find_update]
    by_cases hi : index k depth = index key depth
    · rw [if_pos hi, hfind k ⟨hk, hi⟩, find, hi]
    · rw [if_neg hi, if_neg fun heq => hi (by rw [heq])]

/-! ## Runs -/

/-- The map after a call with the given result. -/
def Op.apply (r : ℤ) (f : Key → Option ℕ) : Op → Key → Option ℕ
  | .insert key value _ => if r = 0 then update f key (some value) else f
  | .delete key => if r = 0 then update f key none else f

/-- The trees after any calls, with the map of the successful ones. -/
inductive Run : Node → (Key → Option ℕ) → Prop where
  | init : Run .null (fun _ => none)
  | call {t t' : Node} {f : Key → Option ℕ} {op : Op} {r : ℤ} (h : Run t f)
      (hop : op.run t = some (r, t')) : Run t' (op.apply r f)

/-- The nodes above the deepest leaf. -/
def Node.height : Node → ℕ
  | .inner c => (Finset.univ.sup fun i => (c i).height) + 1
  | _ => 0

theorem Placed.height_le (h : Placed P depth t) (hdepth : depth ≤ 32) : t.height ≤ 32 - depth := by
  induction t generalizing P depth with
  | null | leaf => exact Nat.zero_le _
  | inner c ih =>
    have hlt := h.1
    have hsup : (Finset.univ.sup fun i => (c i).height) ≤ 32 - (depth + 1) :=
      Finset.sup_le fun i _ => ih i (h.2 i) hlt
    change (Finset.univ.sup fun i => (c i).height) + 1 ≤ _
    omega

theorem rxtreeInsert_spec (h : Placed (fun _ => True) 0 t) (key : Key) (value : ℕ)
    (mem : List Bool) :
    Inserted (fun _ => True) 0 t key value (rxtreeInsert t key value mem) :=
  insertNode_spec rfl (by decide) (fun _ _ _ _ d hd => absurd hd (Nat.not_lt_zero d)) h True.intro

theorem Run.spec {f : Key → Option ℕ} (h : Run t f) :
    Placed (fun _ => True) 0 t ∧ ∀ k, find t k 0 = f k := by
  induction h with
  | init => exact ⟨True.intro, fun _ => rfl⟩
  | @call t t' f op r _ hop ih =>
    obtain ⟨hplaced, hfind⟩ := ih
    cases op with
    | insert key value mem =>
      obtain ⟨r', t1, mem', hrun, hres⟩ := rxtreeInsert_spec hplaced key value mem
      rw [Op.run, hrun] at hop
      obtain ⟨rfl, rfl⟩ := Prod.mk.inj (Option.some.inj hop)
      rcases hres with ⟨rfl, rfl⟩ | ⟨rfl, hplaced', hfind'⟩
      · exact ⟨hplaced, hfind⟩
      · refine ⟨hplaced', fun k => ?_⟩
        rw [hfind' k True.intro, hfind, Op.apply, if_pos rfl, update_apply]
        simp [eq_comm]
    | delete key =>
      obtain ⟨rfl, rfl⟩ := Prod.mk.inj (Option.some.inj hop)
      rcases deleteNode_spec key hplaced True.intro with
        ⟨hr, ht, -⟩ | ⟨hr, -, hplaced', hfind'⟩
      · simp only [Op.apply, hr, ht]
        exact ⟨hplaced, hfind⟩
      refine ⟨hplaced', fun k => ?_⟩
      simp only [Op.apply, hr, if_true, update_apply]
      rw [hfind' k True.intro, hfind]
      simp [eq_comm]

/-- A tree refines the map of the successful calls, and no call goes below the last digit. -/
theorem rxtree_refines_map {f : Key → Option ℕ} (h : Run t f) :
    (∀ key, rxtreeLookup t key = (f key).getD 0) ∧
      (∀ key, (rxtreeDelete t key).1 = 0 ↔ (f key).isSome) ∧
      (∀ key value mem, ∃ r t' mem', rxtreeInsert t key value mem = some (r, t', mem') ∧
        (r = 0 ∨ r = -enomem ∧ ∀ k, rxtreeLookup t' k = rxtreeLookup t k)) ∧
      t.height ≤ 32 := by
  obtain ⟨hplaced, hfind⟩ := h.spec
  refine ⟨fun key => ?_, fun key => ?_, fun key value mem => ?_, hplaced.height_le (by decide)⟩
  · rw [rxtreeLookup, lookupNode_eq, hfind]
  · rw [← hfind, rxtreeDelete]
    rcases deleteNode_spec key hplaced True.intro with ⟨hr, -, hnone⟩ | ⟨hr, hsome, -⟩
    · rw [hr, hnone]
      decide
    · exact iff_of_true hr hsome
  · obtain ⟨r, t', mem', hrun, hres⟩ := rxtreeInsert_spec hplaced key value mem
    refine ⟨r, t', mem', hrun, ?_⟩
    rcases hres with ⟨rfl, rfl⟩ | ⟨rfl, -⟩
    · exact Or.inr ⟨rfl, fun _ => rfl⟩
    · exact Or.inl rfl

/-- Two keys that differ only in their last digit. -/
theorem rxtree_refines_map_two : ∃ t f, Run t f ∧ rxtreeLookup t 4 = 7 ∧ rxtreeLookup t 5 = 9 ∧
    (rxtreeDelete t 4).1 = 0 := by
  obtain ⟨t, h⟩ : ∃ t, Run t (Op.apply 0 (Op.apply 0 (fun _ => none) (.insert 4 7 [true]))
      (.insert 5 9 (.replicate 99 true))) := ⟨_, (Run.init.call rfl).call rfl⟩
  have hspec := rxtree_refines_map h
  exact ⟨_, _, h, hspec.1 4, hspec.1 5, (hspec.2.1 4).mpr rfl⟩

end NoobKernel.Rxtree
