import Mathlib.Data.List.Chain
import Mathlib.Data.List.Nodup
import Mathlib.Data.Set.Basic

/-! # Circular doubly linked lists

Nodes carry a forward and a backward link, and a list is a ring through a head
node that carries no element. The edits are the usual ones: link a node between
two neighbours, unlink a node, and their compositions. A family of rings that
share no node is closed under edits of one member. -/

namespace NoobKernel.Library

open Function List

/-- The forward and backward links of all nodes. -/
structure Links (ν : Type*) where
  next : ν → ν
  prev : ν → ν

namespace Links

variable {ν : Type*} [DecidableEq ν]

/-- A node that points at itself in both directions: an empty ring. -/
def init (L : Links ν) (n : ν) : Links ν := ⟨update L.next n n, update L.prev n n⟩

/-- Link `new` between `before` and `after`, in the order of the four stores. -/
def link (L : Links ν) (new before after : ν) : Links ν :=
  ⟨update (update L.next new after) before new, update (update L.prev after new) new before⟩

def add (L : Links ν) (new head : ν) : Links ν := L.link new head (L.next head)

def addTail (L : Links ν) (new head : ν) : Links ν := L.link new (L.prev head) head

/-- Join the neighbours of `n`. The links of `n` itself keep their old values. -/
def del (L : Links ν) (n : ν) : Links ν :=
  ⟨update L.next (L.prev n) (L.next n), update L.prev (L.next n) (L.prev n)⟩

def move (L : Links ν) (n head : ν) : Links ν := (L.del n).add n head

def isEmpty (L : Links ν) (head : ν) : Bool := L.next head = head

end Links

/-- Neighbouring nodes agree on the link between them. -/
def Neighbours {ν : Type*} (L : Links ν) (x y : ν) : Prop := L.next x = y ∧ L.prev y = x

/-- The ring through `head` visits the nodes `xs` in forward order. -/
structure Ring {ν : Type*} (L : Links ν) (head : ν) (xs : List ν) : Prop where
  nodup : (head :: xs).Nodup
  chain : (head :: (xs ++ [head])).IsChain (Neighbours L)

instance {ν : Type*} [DecidableEq ν] {L : Links ν} : DecidableRel (Neighbours L) :=
  fun _ _ => inferInstanceAs (Decidable (_ ∧ _))

namespace Ring

variable {ν : Type*} {L L' : Links ν} {head x y : ν} {xs ys : List ν}

instance [DecidableEq ν] : Decidable (Ring L head xs) :=
  decidable_of_iff (_ ∧ _) ⟨fun h => Ring.mk h.1 h.2, fun h => ⟨h.nodup, h.chain⟩⟩

theorem head_notMem (h : Ring L head xs) : head ∉ xs := (nodup_cons.mp h.nodup).1

theorem nodup_tail (h : Ring L head xs) : xs.Nodup := (nodup_cons.mp h.nodup).2

/-- A ring only depends on the links of its own nodes. -/
theorem congr (h : Ring L head xs)
    (hnext : ∀ n ∈ head :: xs, L'.next n = L.next n)
    (hprev : ∀ n ∈ head :: xs, L'.prev n = L.prev n) : Ring L' head xs := by
  refine ⟨h.nodup, h.chain.imp_of_mem_imp ?_⟩
  intro a b ha hb hab
  have hmem : ∀ n ∈ head :: (xs ++ [head]), n ∈ head :: xs := by
    intro n hn
    simpa [or_comm] using hn
  exact ⟨(hnext a (hmem a ha)).trans hab.1, (hprev b (hmem b hb)).trans hab.2⟩

theorem of_self (hnext : L.next head = head) (hprev : L.prev head = head) : Ring L head [] :=
  ⟨by simp, by simp [Neighbours, hnext, hprev]⟩

theorem next_head {after : ν} {back : List ν} (h : Ring L head xs)
    (hback : xs ++ [head] = after :: back) : L.next head = after := by
  have hc := h.chain
  rw [hback, isChain_cons_cons] at hc
  exact hc.1.1

theorem isEmpty_iff [DecidableEq ν] (h : Ring L head xs) : L.isEmpty head = true ↔ xs = [] := by
  unfold Links.isEmpty
  cases xs with
  | nil => simp [h.next_head rfl]
  | cons x xs =>
    have hne : x ≠ head := by
      intro he
      exact h.head_notMem (by simp [he])
    simp [h.next_head rfl, hne]

/-! ## Rotations -/

/-- Every node of a ring can be taken as its head. -/
theorem rotate (h : Ring L head (x :: xs)) : Ring L x (xs ++ [head]) := by
  obtain ⟨hlink, hchain⟩ := isChain_cons_cons.mp h.chain
  refine ⟨(perm_append_singleton head (x :: xs)).nodup_iff.mpr h.nodup, ?_⟩
  have hlist : x :: (xs ++ [head] ++ [x]) = x :: xs ++ head :: x :: [] := by simp
  rw [hlist, isChain_append_cons_cons]
  exact ⟨hchain, hlink, .singleton x⟩

theorem swap (h : Ring L head (xs ++ x :: ys)) : Ring L x (ys ++ head :: xs) := by
  induction xs generalizing head ys with
  | nil => exact h.rotate
  | cons y xs ih =>
    have hrotated : Ring L y (xs ++ x :: (ys ++ [head])) := by simpa using h.rotate
    simpa using ih hrotated

theorem prev_head {before : ν} (front : List ν) (h : Ring L head xs)
    (hfront : head :: xs = front ++ [before]) : L.prev head = before := by
  have hc := h.chain
  rw [← cons_append, hfront, append_assoc] at hc
  exact (isChain_append_cons_cons.mp hc).2.1.2

theorem exists_before (head : ν) (xs : List ν) :
    ∃ front before, head :: xs = front ++ [before] := by
  rcases eq_nil_or_concat (head :: xs) with he | ⟨front, before, he⟩
  · simp at he
  · exact ⟨front, before, by simpa using he⟩

theorem exists_after (head : ν) (ys : List ν) : ∃ after back, ys ++ [head] = after :: back :=
  exists_cons_of_ne_nil (by simp)

end Ring

/-! ## Edits

A segment is a run of nodes linked in both directions. An edit next to the head changes the links
only at the ends of the segment that the other nodes form. -/

section Segment

variable {ν : Type*} {L L' : Links ν} {l : List ν}

/-- A segment reads the forward links of all nodes but the last and the backward
links of all nodes but the first. -/
theorem segment_congr (h : l.IsChain (Neighbours L))
    (hnext : ∀ a ∈ l.dropLast, L'.next a = L.next a)
    (hprev : ∀ b ∈ l.tail, L'.prev b = L.prev b) : l.IsChain (Neighbours L') := by
  induction l with
  | nil => exact .nil
  | cons a l ih =>
    cases l with
    | nil => exact .singleton a
    | cons b l =>
      rw [isChain_cons_cons] at h ⊢
      have ha : L'.next a = L.next a := hnext a (by simp)
      have hb : L'.prev b = L.prev b := hprev b (by simp)
      refine ⟨⟨ha.trans h.1.1, hb.trans h.1.2⟩, ih h.2 ?_ ?_⟩
      · intro c hc
        exact hnext c (by simp [hc])
      · intro c hc
        exact hprev c (mem_of_mem_tail hc)

end Segment

namespace Ring

variable {ν : Type*} [DecidableEq ν] {L : Links ν} {head new x y : ν} {xs ys : List ν}

theorem add (h : Ring L head xs) (hnew : new ∉ head :: xs) :
    Ring (L.add new head) head (new :: xs) := by
  obtain ⟨after, back, hback⟩ := exists_after head xs
  have hnodup : (after :: back).Nodup := by
    rw [← hback]
    exact (perm_append_singleton head xs).nodup_iff.mpr h.nodup
  have hmem : ∀ n ∈ after :: back, n ≠ new := by
    rintro n hn rfl
    rw [← hback] at hn
    exact hnew ((perm_append_singleton head xs).mem_iff.mp hn)
  have hhead : head ≠ new := fun he => hnew (by simp [he])
  have hc := h.chain
  rw [hback, isChain_cons_cons] at hc
  have hadd : L.add new head = L.link new head after := by rw [Links.add, hc.1.1]
  refine ⟨?_, ?_⟩
  · exact (List.Perm.swap new head xs).nodup_iff.mpr (nodup_cons.mpr ⟨hnew, h.nodup⟩)
  · rw [hadd, cons_append, hback, isChain_cons_cons, isChain_cons_cons]
    refine ⟨⟨by simp [Links.link], by simp [Links.link]⟩, ⟨?_, ?_⟩, segment_congr hc.2 ?_ ?_⟩
    · simp [Links.link, hhead.symm]
    · simp [Links.link, hmem after mem_cons_self]
    · intro a ha
      have hne : a ≠ new := hmem a (dropLast_subset _ ha)
      rw [← hback, dropLast_concat] at ha
      have hah : a ≠ head := fun he => h.head_notMem (he ▸ ha)
      simp [Links.link, hne, hah]
    · intro b hb
      have hba : b ≠ after := fun he => (nodup_cons.mp hnodup).1 (he ▸ hb)
      simp [Links.link, hba, hmem b (mem_of_mem_tail hb)]

/-- Behind the last node is in front of the head. -/
theorem addTail (h : Ring L head xs) (hnew : new ∉ head :: xs) :
    Ring (L.addTail new head) head (xs ++ [new]) := by
  rcases eq_nil_or_concat xs with rfl | ⟨ys, last, rfl⟩
  · have hadd : L.addTail new head = L.add new head := by
      rw [Links.addTail, Links.add, h.next_head rfl, h.prev_head [] rfl]
    rw [hadd]
    exact h.add hnew
  · rw [concat_eq_append] at h hnew ⊢
    have hlast : Ring L last (head :: ys) := h.swap
    have hadd : L.addTail new head = L.add new last := by
      rw [Links.addTail, Links.add, hlast.next_head rfl, h.prev_head (head :: ys) rfl]
    have hring : Ring (L.add new last) last ([new] ++ head :: ys) :=
      hlast.add (by simpa [or_comm, or_left_comm] using hnew)
    rw [hadd, append_assoc]
    exact hring.swap

theorem del_head (h : Ring L x (y :: ys)) : Ring (L.del x) y ys := by
  obtain ⟨front, before, hfront⟩ := exists_before y ys
  have hnodup : (y :: ys).Nodup := h.nodup_tail
  have hprev : L.prev x = before := h.prev_head (x :: front) (by rw [hfront]; rfl)
  have hdel : L.del x = ⟨update L.next before y, update L.prev y before⟩ := by
    rw [Links.del, h.next_head rfl, hprev]
  have hc : (y :: ys ++ [x]).IsChain (Neighbours L) := (isChain_cons_cons.mp h.chain).2
  rw [hfront, append_assoc] at hc
  have hlist : y :: (ys ++ [y]) = front ++ before :: y :: [] := by
    rw [← cons_append, hfront, append_assoc]
    rfl
  refine ⟨hnodup, ?_⟩
  rw [hlist, isChain_append_cons_cons, hdel]
  refine ⟨segment_congr (isChain_append_cons_cons.mp hc).1 ?_ ?_, ⟨by simp, by simp⟩, .singleton y⟩
  · intro a ha
    rw [dropLast_concat] at ha
    rw [hfront] at hnodup
    have hne : a ≠ before := by
      rintro rfl
      exact disjoint_of_nodup_append hnodup ha (by simp)
    simp [hne]
  · intro b hb
    rw [← hfront, tail_cons] at hb
    have hne : b ≠ y := fun he => (nodup_cons.mp hnodup).1 (he ▸ hb)
    simp [hne]

theorem del (h : Ring L head (xs ++ x :: ys)) : Ring (L.del x) head (xs ++ ys) := by
  have hswap := h.swap
  cases ys with
  | nil => simpa using hswap.del_head
  | cons y ys => exact hswap.del_head.swap

end Ring

/-! ## Which nodes an edit touches -/

namespace Ring

variable {ν : Type*} {L : Links ν} {head new x n : ν} {xs ys : List ν}

theorem next_head_mem (h : Ring L head xs) : L.next head ∈ head :: xs := by
  obtain ⟨after, back, hback⟩ := exists_after head xs
  rw [h.next_head hback, ← (perm_append_singleton head xs).mem_iff, hback]
  exact mem_cons_self

theorem prev_head_mem (h : Ring L head xs) : L.prev head ∈ head :: xs := by
  obtain ⟨front, before, hfront⟩ := exists_before head xs
  rw [h.prev_head front hfront, hfront]
  simp

/-- The successor of a node is the next node of the ring, or the head. -/
theorem next_eq {after : ν} {back : List ν} (h : Ring L head (xs ++ x :: ys))
    (hback : ys ++ [head] = after :: back) : L.next x = after := by
  have hlist : ys ++ head :: xs ++ [x] = after :: (back ++ (xs ++ [x])) := by
    rw [← cons_append, ← hback]
    simp
  exact h.swap.next_head hlist

theorem eq_of_ring (h : Ring L head xs) (h' : Ring L head ys) : xs = ys := by
  classical
  induction xs generalizing L head ys with
  | nil => exact (h'.isEmpty_iff.mp (h.isEmpty_iff.mpr rfl)).symm
  | cons x xs ih =>
    cases ys with
    | nil => exact h.isEmpty_iff.mp (h'.isEmpty_iff.mpr rfl)
    | cons y ys =>
      obtain rfl : x = y := (h.next_head rfl).symm.trans (h'.next_head rfl)
      rw [ih h.del_head h'.del_head]

theorem mem_swap : n ∈ x :: (ys ++ head :: xs) ↔ n ∈ head :: (xs ++ x :: ys) := by
  simp only [mem_cons, mem_append]
  tauto

variable [DecidableEq ν]

theorem del_frame (h : Ring L head (xs ++ x :: ys)) (hn : n ∉ head :: (xs ++ x :: ys)) :
    (L.del x).next n = L.next n ∧ (L.del x).prev n = L.prev n := by
  have hp : n ≠ L.prev x := fun he => hn (he ▸ mem_swap.mp h.swap.prev_head_mem)
  have hx : n ≠ L.next x := fun he => hn (he ▸ mem_swap.mp h.swap.next_head_mem)
  simp [Links.del, hp, hx]

theorem add_frame (h : Ring L head xs) (hn : n ∉ head :: xs) (hne : n ≠ new) :
    (L.add new head).next n = L.next n ∧ (L.add new head).prev n = L.prev n := by
  have hh : n ≠ head := fun he => hn (by simp [he])
  have hx : n ≠ L.next head := fun he => hn (he ▸ h.next_head_mem)
  simp [Links.add, Links.link, hh, hx, hne]

theorem addTail_frame (h : Ring L head xs) (hn : n ∉ head :: xs) (hne : n ≠ new) :
    (L.addTail new head).next n = L.next n ∧ (L.addTail new head).prev n = L.prev n := by
  have hh : n ≠ head := fun he => hn (by simp [he])
  have hx : n ≠ L.prev head := fun he => hn (he ▸ h.prev_head_mem)
  simp [Links.addTail, Links.link, hh, hx, hne]

end Ring

/-! ## Families of rings -/

/-- The rings of the heads in `I` share no node. -/
structure Rings {ι ν : Type*} (L : Links ν) (head : ι → ν) (I : Set ι)
    (lists : ι → List ν) : Prop where
  ring : ∀ i ∈ I, Ring L (head i) (lists i)
  apart : ∀ i ∈ I, ∀ j ∈ I, i ≠ j → ∀ n ∈ head i :: lists i, n ∉ head j :: lists j

namespace Rings

variable {ι ν : Type*} [DecidableEq ι] {L L' : Links ν} {head : ι → ν} {I : Set ι}
  {lists : ι → List ν} {i : ι} {l xs ys : List ν} {new x : ν}
  (h : Rings L head I lists) (hi : i ∈ I)

include h hi

theorem edit (hring : Ring L' (head i) l)
    (hnodes : ∀ n ∈ l, n ∈ lists i ∨ ∀ j ∈ I, n ∉ head j :: lists j)
    (hframe : ∀ j ∈ I, j ≠ i → ∀ n ∈ head j :: lists j,
      L'.next n = L.next n ∧ L'.prev n = L.prev n) :
    Rings L' head I (update lists i l) := by
  have hcross : ∀ j ∈ I, j ≠ i → ∀ n ∈ head i :: l, n ∉ head j :: lists j := by
    intro j hj hji n hn
    rcases mem_cons.mp hn with rfl | hn
    · exact h.apart i hi j hj hji.symm (head i) (by simp)
    · rcases hnodes n hn with hold | hnew
      · exact h.apart i hi j hj hji.symm n (by simp [hold])
      · exact hnew j hj
  refine ⟨?_, ?_⟩
  · intro j hj
    by_cases hji : j = i
    · subst hji
      simpa using hring
    · rw [update_of_ne hji]
      exact (h.ring j hj).congr (fun n hn => (hframe j hj hji n hn).1)
        (fun n hn => (hframe j hj hji n hn).2)
  · intro j hj k hk hjk n hn
    by_cases hji : j = i
    · subst hji
      rw [update_self] at hn
      rw [update_of_ne hjk.symm]
      exact hcross k hk hjk.symm n hn
    · rw [update_of_ne hji] at hn
      by_cases hki : k = i
      · subst hki
        rw [update_self]
        exact fun hm => hcross j hj hji n hm hn
      · rw [update_of_ne hki]
        exact h.apart j hj k hk hjk n hn

theorem notMem_del (hl : lists i = xs ++ x :: ys) :
    ∀ j ∈ I, x ∉ head j :: update lists i (xs ++ ys) j := by
  intro j hj
  have hx : x ∈ head i :: lists i := by simp [hl]
  by_cases hji : j = i
  · subst hji
    have hnodup := (h.ring j hj).nodup
    rw [hl, ← cons_append] at hnodup
    rw [update_self, ← cons_append]
    exact (nodup_cons.mp (perm_middle.nodup_iff.mp hnodup)).1
  · rw [update_of_ne hji]
    exact h.apart i hi j hj (Ne.symm hji) x hx

variable [DecidableEq ν]

theorem del (hl : lists i = xs ++ x :: ys) :
    Rings (L.del x) head I (update lists i (xs ++ ys)) := by
  have hring := h.ring i hi
  rw [hl] at hring
  refine h.edit hi hring.del ?_ ?_
  · intro n hn
    rw [hl]
    simp only [mem_append, mem_cons] at hn ⊢
    tauto
  · intro j hj hji n hn
    refine hring.del_frame ?_
    rw [← hl]
    exact h.apart j hj i hi hji n hn

theorem add (hnew : ∀ j ∈ I, new ∉ head j :: lists j) :
    Rings (L.add new (head i)) head I (update lists i (new :: lists i)) := by
  have hring := h.ring i hi
  refine h.edit hi (hring.add (hnew i hi)) ?_ ?_
  · intro n hn
    rcases mem_cons.mp hn with rfl | hn
    · exact Or.inr hnew
    · exact Or.inl hn
  · intro j hj hji n hn
    exact hring.add_frame (h.apart j hj i hi hji n hn) (fun he => hnew j hj (he ▸ hn))

theorem addTail (hnew : ∀ j ∈ I, new ∉ head j :: lists j) :
    Rings (L.addTail new (head i)) head I (update lists i (lists i ++ [new])) := by
  have hring := h.ring i hi
  refine h.edit hi (hring.addTail (hnew i hi)) ?_ ?_
  · intro n hn
    rcases mem_append.mp hn with hn | hn
    · exact Or.inl hn
    · rw [mem_singleton] at hn
      exact Or.inr (hn ▸ hnew)
  · intro j hj hji n hn
    exact hring.addTail_frame (h.apart j hj i hi hji n hn) (fun he => hnew j hj (he ▸ hn))

theorem move {j : ι} (hj : j ∈ I) (hij : j ≠ i) (hl : lists i = xs ++ x :: ys) :
    Rings (L.move x (head j)) head I (update (update lists i (xs ++ ys)) j (x :: lists j)) := by
  have hadd := (h.del hi hl).add hj (h.notMem_del hi hl)
  rwa [update_of_ne hij] at hadd

end Rings

end NoobKernel.Library
