import Mathlib.Data.List.Induction
import Mathlib.Order.Nat

/-! # Radix trees in memory

A node is an address, its entries are words of a memory, and a word may point to another
node. A tree of depth `d` has its leaves in the entries of the nodes at distance `d`. -/

namespace NoobKernel.Library.Radix

open Nat

variable {ν ι ε : Type*} (child : ε → Option ν)

/-- The node at the end of a path of indices. -/
def descend (mem : ν → ι → ε) : ν → List ι → Option ν
  | n, [] => some n
  | n, i :: path => (child (mem n i)).bind (fun next => descend mem next path)

/-- A node is at most `d` steps below another one. -/
def Below (mem : ν → ι → ε) (n : ν) (d : ℕ) (a : ν) : Prop :=
  ∃ path, path.length ≤ d ∧ descend child mem n path = some a

/-- No node down to depth `d` is reached by two paths. -/
def Separated (mem : ν → ι → ε) (n : ν) (d : ℕ) : Prop :=
  ∀ path path' a, path.length ≤ d → path'.length ≤ d → descend child mem n path = some a →
    descend child mem n path' = some a → path = path'

variable {child} {mem mem' : ν → ι → ε} {n next a b : ν} {d : ℕ} {i j : ι}
  {path path' : List ι}

@[simp] theorem descend_nil : descend child mem n [] = some n := rfl

theorem descend_cons : descend child mem n (i :: path) =
    (child (mem n i)).bind (fun next => descend child mem next path) := rfl

theorem descend_cons_some (h : child (mem n i) = some next) :
    descend child mem n (i :: path) = descend child mem next path := by
  rw [descend_cons, h, Option.bind_some]

theorem descend_cons_none (h : child (mem n i) = none) :
    descend child mem n (i :: path) = none := by
  rw [descend_cons, h, Option.bind_none]

theorem descend_append : descend child mem n (path ++ path') =
    (descend child mem n path).bind (fun a => descend child mem a path') := by
  induction path generalizing n with
  | nil => simp
  | cons i path ih =>
    cases hi : child (mem n i) with
    | none => simp [descend_cons, hi]
    | some next => simp [descend_cons, hi, ih]

theorem descend_snoc (h : descend child mem n path = some a) :
    descend child mem n (path ++ [i]) = child (mem a i) := by
  rw [descend_append, h, Option.bind_some, descend_cons]
  cases child (mem a i) <;> rfl

theorem Below.self : Below child mem n d n := ⟨[], by simp, rfl⟩

theorem Below.cons (hi : child (mem n i) = some next) (h : Below child mem next d a) :
    Below child mem n (d + 1) a := by
  obtain ⟨path, hlen, hpath⟩ := h
  exact ⟨i :: path, by simpa using hlen, by rw [descend_cons_some hi, hpath]⟩

theorem below_succ_iff : Below child mem n (d + 1) a ↔
    a = n ∨ ∃ i next, child (mem n i) = some next ∧ Below child mem next d a := by
  constructor
  · rintro ⟨path, hlen, hpath⟩
    cases path with
    | nil => exact Or.inl (Option.some.inj hpath).symm
    | cons i path =>
      cases hi : child (mem n i) with
      | none =>
        rw [descend_cons_none hi] at hpath
        cases hpath
      | some next =>
        rw [descend_cons_some hi] at hpath
        exact Or.inr ⟨i, next, hi, path, by simpa using hlen, hpath⟩
  · rintro (rfl | ⟨i, next, hi, hbelow⟩)
    · exact Below.self
    · exact hbelow.cons hi

section

variable (h : Separated child mem n (d + 1)) (hi : child (mem n i) = some next)

include h hi

theorem Separated.below_child : Separated child mem next d := by
  intro path path' a hlen hlen' hpath hpath'
  have heq := h (i :: path) (i :: path') a (by simpa using hlen) (by simpa using hlen')
    (by rw [descend_cons_some hi, hpath]) (by rw [descend_cons_some hi, hpath'])
  exact (List.cons.inj heq).2

theorem Separated.not_below_child : ¬ Below child mem next d n := by
  rintro ⟨path, hlen, hpath⟩
  have heq := h (i :: path) [] n (by simpa using hlen) (by simp)
    (by rw [descend_cons_some hi, hpath]) rfl
  cases heq

theorem Separated.child_eq {next' : ν} (hj : child (mem n j) = some next')
    (ha : Below child mem next d a) (ha' : Below child mem next' d a) : i = j := by
  obtain ⟨path, hlen, hpath⟩ := ha
  obtain ⟨path', hlen', hpath'⟩ := ha'
  have heq := h (i :: path) (j :: path') a (by simpa using hlen) (by simpa using hlen')
    (by rw [descend_cons_some hi, hpath]) (by rw [descend_cons_some hj, hpath'])
  exact (List.cons.inj heq).1

end

/-- Descents read the nodes above the last one only. -/
theorem descend_congr (h : ∀ path a, path.length < d → descend child mem n path = some a →
    mem' a = mem a) (path : List ι) (hlen : path.length ≤ d) :
    descend child mem' n path = descend child mem n path := by
  induction path using List.reverseRecOn with
  | nil => rfl
  | append_singleton path i ih =>
    rw [List.length_append, List.length_singleton] at hlen
    have hsame := ih (by omega)
    cases hc : descend child mem n path with
    | none => rw [descend_append, hsame, descend_append, hc, Option.bind_none, Option.bind_none]
    | some c => rw [descend_snoc (hsame.trans hc), descend_snoc hc, h path c hlen hc]

theorem descend_congr_below (h : ∀ a, Below child mem n d a → mem' a = mem a)
    (hlen : path.length ≤ d) : descend child mem' n path = descend child mem n path :=
  descend_congr (fun p a hp hdesc => h a ⟨p, hp.le, hdesc⟩) path hlen

theorem Separated.congr (h : Separated child mem n d)
    (hsame : ∀ path, path.length ≤ d → descend child mem' n path = descend child mem n path) :
    Separated child mem' n d := by
  intro path path' a hlen hlen' hpath hpath'
  rw [hsame path hlen] at hpath
  rw [hsame path' hlen'] at hpath'
  exact h path path' a hlen hlen' hpath hpath'

theorem below_congr (hsame : ∀ path, path.length ≤ d →
    descend child mem' n path = descend child mem n path) :
    Below child mem' n d a ↔ Below child mem n d a := by
  constructor
  · rintro ⟨path, hlen, hpath⟩
    exact ⟨path, hlen, by rw [← hsame path hlen, hpath]⟩
  · rintro ⟨path, hlen, hpath⟩
    exact ⟨path, hlen, by rw [hsame path hlen, hpath]⟩

theorem Separated.write_leaf (h : Separated child mem n d) (hlen : path.length = d)
    (hpath : descend child mem n path = some a) (hother : ∀ b, b ≠ a → mem' b = mem b) :
    ∀ path, path.length ≤ d → descend child mem' n path = descend child mem n path := by
  refine descend_congr (fun path' b hlen' hpath' => hother b ?_)
  rintro rfl
  have heq := h path' path b hlen'.le hlen.le hpath' hpath
  rw [heq, hlen] at hlen'
  exact lt_irrefl _ hlen'

section Link

variable [DecidableEq ι]

/-- The memory after an empty entry of `a` was linked to the fresh node `b`. -/
structure Linked (child : ε → Option ν) (mem mem' : ν → ι → ε) (a b : ν) (i : ι) : Prop where
  empty : child (mem a i) = none
  entry : child (mem' a i) = some b
  fresh : ∀ j, child (mem' b j) = none
  row : ∀ j, j ≠ i → mem' a j = mem a j
  other : ∀ c, c ≠ a → c ≠ b → mem' c = mem c

section

variable (hl : Linked child mem mem' a b i) (h : Separated child mem n d)
  (hpath : descend child mem n path = some a) (hlen : path.length < d)
  (hb : ¬ Below child mem n d b)

include hl h hpath hlen hb

theorem Linked.descend_eq (path' : List ι) (hlen' : path'.length ≤ d) :
    descend child mem' n path' =
      if path' = path ++ [i] then some b else descend child mem n path' := by
  induction path' using List.reverseRecOn with
  | nil => simp
  | append_singleton p j ih =>
    rw [List.length_append, List.length_singleton] at hlen'
    have ih := ih (by omega)
    by_cases hnew : p = path ++ [i]
    · subst hnew
      have hold : descend child mem n (path ++ [i]) = none := by rw [descend_snoc hpath, hl.empty]
      rw [if_pos rfl] at ih
      rw [descend_snoc ih, hl.fresh, descend_append, hold, if_neg (by simp), Option.bind_none]
    rw [if_neg hnew] at ih
    cases hc : descend child mem n p with
    | none =>
      have hne : p ≠ path := by
        rintro rfl
        cases hpath.symm.trans hc
      rw [descend_append, ih, descend_append, hc, if_neg (by simp [hne]), Option.bind_none,
        Option.bind_none]
    | some c =>
      have hcb : c ≠ b := by
        rintro rfl
        exact hb ⟨p, by omega, hc⟩
      rw [descend_snoc (ih.trans hc), descend_snoc hc]
      by_cases hca : c = a
      · subst hca
        obtain rfl := h p path c (by omega) hlen.le hc hpath
        by_cases hj : j = i
        · rw [hj, if_pos rfl, hl.entry]
        · rw [hl.row j hj, if_neg (by simp [hj])]
      · have hne : p ≠ path := by
          rintro rfl
          exact hca (Option.some.inj (hc.symm.trans hpath))
        rw [hl.other c hca hcb, if_neg (by simp [hne])]

theorem Linked.separated : Separated child mem' n d := by
  have hdesc := hl.descend_eq h hpath hlen hb
  intro p q c hp hq hpc hqc
  rw [hdesc p hp] at hpc
  rw [hdesc q hq] at hqc
  split at hpc
  · rename_i hpi
    split at hqc
    · rename_i hqi
      rw [hpi, hqi]
    · cases hpc
      exact absurd ⟨q, hq, hqc⟩ hb
  · split at hqc
    · cases hqc
      exact absurd ⟨p, hp, hpc⟩ hb
    · exact h p q c hp hq hpc hqc

theorem Linked.below {c : ν} (hc : Below child mem' n d c) : c = b ∨ Below child mem n d c := by
  obtain ⟨p, hp, hpc⟩ := hc
  rw [hl.descend_eq h hpath hlen hb p hp] at hpc
  split at hpc
  · cases hpc
    exact Or.inl rfl
  · exact Or.inr ⟨p, hp, hpc⟩

theorem Linked.below_mono {c : ν} (hc : Below child mem n d c) : Below child mem' n d c := by
  obtain ⟨p, hp, hpc⟩ := hc
  refine ⟨p, hp, ?_⟩
  have hne : p ≠ path ++ [i] := by
    rintro rfl
    rw [descend_snoc hpath, hl.empty] at hpc
    cases hpc
  rw [hl.descend_eq h hpath hlen hb p hp, if_neg hne, hpc]

end

end Link

end NoobKernel.Library.Radix
