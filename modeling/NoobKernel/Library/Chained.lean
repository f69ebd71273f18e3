import Mathlib.Algebra.BigOperators.Group.Finset.Basic
import Mathlib.Data.List.Sigma

/-! # Chained hash tables

Nodes with a key and a value in buckets, which are chosen by a hash of the key. A node that has
the key of a new value is used again. A table stands for a partial map from keys to values. -/

namespace NoobKernel.Library

open List Function

variable {κ ν : Type} [DecidableEq κ]

/-! ## Chains -/

namespace Chain

variable {l : List (Σ _ : κ, ν)} {k k' : κ} {v w : ν} {n : ℕ}

theorem kreplace_cons_eq : kreplace k v (⟨k, w⟩ :: l) = ⟨k, v⟩ :: l :=
  lookmap_cons_some _ l (by simp)

theorem kreplace_cons_ne (h : k ≠ k') : kreplace k v (⟨k', w⟩ :: l) = ⟨k', w⟩ :: kreplace k v l :=
  lookmap_cons_none _ l (by simp [h])

theorem dlookup_kreplace (h : k ∈ l.keys) :
    (kreplace k v l).dlookup k' = if k' = k then some v else l.dlookup k' := by
  induction l with
  | nil => simp at h
  | cons x l ih =>
    obtain ⟨a, w⟩ := x
    by_cases ha : k = a
    · subst ha
      rw [kreplace_cons_eq]
      by_cases hk : k' = k
      · subst hk
        simp
      · rw [if_neg hk, dlookup_cons_ne _ _ hk, dlookup_cons_ne _ _ hk]
    rw [kreplace_cons_ne ha]
    by_cases ha' : k' = a
    · subst ha'
      simp [Ne.symm ha]
    · rw [dlookup_cons_ne _ _ ha', dlookup_cons_ne _ _ ha', ih (by simpa [ha] using h)]

/-- The number of values with a property in a chain. -/
abbrev count (P : ν → Bool) (l : List (Σ _ : κ, ν)) : ℕ := l.countP (fun x => P x.2)

/-- One or nothing, for a value that may be there. -/
abbrev one (P : ν → Bool) (v : Option ν) : ℕ := (v.map fun v => (P v).toNat).getD 0

omit [DecidableEq κ] in
theorem count_cons (P : ν → Bool) : count P (⟨k, v⟩ :: l) = count P l + one P (some v) := by
  cases hv : P v <;> simp [count, one, hv]

theorem count_kreplace (P : ν → Bool) (h : k ∈ l.keys) :
    count P (kreplace k v l) + one P (l.dlookup k) = count P l + one P (some v) := by
  induction l with
  | nil => simp at h
  | cons x l ih =>
    obtain ⟨a, w⟩ := x
    by_cases ha : k = a
    · subst ha
      rw [kreplace_cons_eq, dlookup_cons_eq, count_cons, count_cons]
      omega
    have hl : k ∈ l.keys := by simpa [ha] using h
    rw [kreplace_cons_ne ha, dlookup_cons_ne _ _ ha, count_cons, count_cons]
    have := ih hl
    omega

theorem count_kerase (P : ν → Bool) : count P (kerase k l) + one P (l.dlookup k) = count P l := by
  induction l with
  | nil => rfl
  | cons x l ih =>
    obtain ⟨a, w⟩ := x
    by_cases ha : k = a
    · subst ha
      have herase : kerase k (⟨k, w⟩ :: l) = l := kerase_cons_eq rfl
      rw [herase, dlookup_cons_eq, count_cons]
    · rw [kerase_cons_ne ha, dlookup_cons_ne _ _ ha, count_cons, count_cons, ← ih]
      omega

end Chain

/-! ## Tables -/

abbrev Buckets (κ ν : Type) := ℕ → List (Σ _ : κ, ν)

namespace Buckets

variable (hash : κ → ℕ)

def find (k : κ) (t : Buckets κ ν) : Option ν := (t (hash k)).dlookup k

def insert (k : κ) (v : ν) (t : Buckets κ ν) : Buckets κ ν :=
  update t (hash k)
    (if (t.find hash k).isSome then (t (hash k)).kreplace k v else ⟨k, v⟩ :: t (hash k))

def erase (k : κ) (t : Buckets κ ν) : Buckets κ ν := update t (hash k) ((t (hash k)).kerase k)

/-- The nodes are in the buckets of their keys, and no key occurs twice. -/
structure Wf (hash : κ → ℕ) (t : Buckets κ ν) : Prop where
  placed : ∀ b, ∀ x ∈ t b, hash x.1 = b
  nodup : ∀ b, (t b).NodupKeys

variable {hash} {t : Buckets κ ν} {k k' : κ} {v : ν} {b : ℕ}

omit [DecidableEq κ] in
theorem wf_empty : Wf hash (fun _ => [] : Buckets κ ν) := ⟨by simp, by simp⟩

theorem Wf.mem_iff (h : Wf hash t) : ⟨k, v⟩ ∈ t b ↔ b = hash k ∧ t.find hash k = some v := by
  constructor
  · intro hmem
    obtain rfl := h.placed b _ hmem
    exact ⟨rfl, mem_dlookup (h.nodup _) hmem⟩
  · rintro ⟨rfl, hfind⟩
    exact of_mem_dlookup hfind

theorem mem_keys_of_find (h : (t.find hash k).isSome) : k ∈ (t (hash k)).keys := dlookup_isSome.mp h

theorem notMem_keys_of_find (h : ¬(t.find hash k).isSome) : k ∉ (t (hash k)).keys :=
  fun hmem => h (dlookup_isSome.mpr hmem)

theorem find_insert (k' : κ) :
    (t.insert hash k v).find hash k' = if k' = k then some v else t.find hash k' := by
  by_cases hb : hash k' = hash k
  · rw [find, insert, hb, update_self, find, find, hb]
    split
    next h => exact Chain.dlookup_kreplace (mem_keys_of_find h)
    · by_cases hk : k' = k
      · subst hk
        simp
      · rw [if_neg hk, dlookup_cons_ne _ _ hk]
  · rw [find, insert, update_of_ne hb, if_neg fun hk => hb (congrArg hash hk), find]

theorem Wf.find_erase (h : Wf hash t) (k' : κ) :
    (t.erase hash k).find hash k' = if k' = k then none else t.find hash k' := by
  by_cases hb : hash k' = hash k
  · rw [find, erase, hb, update_self, find, hb]
    split
    next hk => exact hk ▸ dlookup_kerase k (h.nodup _)
    next hk => exact dlookup_kerase_ne hk
  · rw [find, erase, update_of_ne hb, if_neg fun hk => hb (congrArg hash hk), find]

omit [DecidableEq κ] in
theorem Wf.update (h : Wf hash t) (hplaced : ∀ x ∈ l, hash x.1 = b) (hnodup : l.NodupKeys) :
    Wf hash (update t b l) := by
  refine ⟨fun b' => ?_, fun b' => ?_⟩
  all_goals
    by_cases hb : b' = b
    · subst hb
      rwa [update_self]
    rw [update_of_ne hb]
  · exact h.placed b'
  · exact h.nodup b'

theorem Wf.insert (h : Wf hash t) : Wf hash (t.insert hash k v) := by
  have hkey : ∀ x ∈ t (hash k), hash x.1 = hash k := h.placed _
  refine h.update ?_ ?_
  · intro x hx
    split at hx
    · have hmem : x.1 ∈ (t (hash k)).keys := by
        rw [← keys_kreplace k v]
        exact mem_keys_of_mem hx
      obtain ⟨w, hw⟩ := exists_of_mem_keys hmem
      exact hkey ⟨x.1, w⟩ hw
    · rcases List.mem_cons.mp hx with rfl | hx
      · rfl
      · exact hkey x hx
  · split
    · exact (kreplace_nodupKeys k v).mpr (h.nodup _)
    next hnone => exact nodupKeys_cons.mpr ⟨notMem_keys_of_find hnone, h.nodup _⟩

theorem Wf.erase (h : Wf hash t) : Wf hash (t.erase hash k) :=
  h.update (fun x hx => h.placed _ x ((kerase_sublist k _).subset hx)) ((h.nodup _).kerase k)

/-! ## Numbers of values -/

/-- The number of values with a property in the first `n` buckets. -/
def count (n : ℕ) (P : ν → Bool) (t : Buckets κ ν) : ℕ := ∑ b ∈ Finset.range n, Chain.count P (t b)

omit [DecidableEq κ] in
theorem count_update (hb : b < n) (P : ν → Bool) (l : List (Σ _ : κ, ν)) :
    count n P (update t b l) + Chain.count P (t b) = count n P t + Chain.count P l := by
  have hmem : b ∈ Finset.range n := Finset.mem_range.mpr hb
  rw [count, count, ← Finset.add_sum_erase _ _ hmem, ← Finset.add_sum_erase _ (fun b => _) hmem,
    update_self]
  have hsum : ∑ b' ∈ (Finset.range n).erase b, Chain.count P (update t b l b') =
      ∑ b' ∈ (Finset.range n).erase b, Chain.count P (t b') :=
    Finset.sum_congr rfl fun b' hb' => by rw [update_of_ne (Finset.ne_of_mem_erase hb')]
  rw [hsum]
  omega

theorem count_insert (hn : hash k < n) (P : ν → Bool) :
    count n P (t.insert hash k v) + Chain.one P (t.find hash k) =
      count n P t + Chain.one P (some v) := by
  have hcount := count_update (t := t) hn P
    (if (t.find hash k).isSome then (t (hash k)).kreplace k v else ⟨k, v⟩ :: t (hash k))
  rw [insert]
  split at hcount
  next h =>
    have hchain := Chain.count_kreplace (v := v) P (mem_keys_of_find h)
    rw [if_pos h]
    rw [find]
    omega
  next h =>
    have hnone : t.find hash k = none := by simpa using h
    rw [if_neg h, hnone]
    rw [Chain.count_cons] at hcount
    simp only [Chain.one, Option.map_none, Option.getD_none] at hcount ⊢
    omega

theorem count_erase (hn : hash k < n) (P : ν → Bool) :
    count n P (t.erase hash k) + Chain.one P (t.find hash k) = count n P t := by
  have hcount := count_update (t := t) hn P ((t (hash k)).kerase k)
  have hchain := Chain.count_kerase (l := t (hash k)) (k := k) P
  rw [erase, find]
  omega

omit [DecidableEq κ] in
theorem count_congr {P P' : ν → Bool} (h : ∀ b, ∀ x ∈ t b, P x.2 = P' x.2) :
    count n P t = count n P' t :=
  Finset.sum_congr rfl fun b _ => List.countP_congr fun x hx => by rw [h b x hx]

end Buckets

end NoobKernel.Library
