import NoobKernel.Model.FdTable
import Mathlib.Algebra.BigOperators.Group.List.Basic
import Mathlib.Algebra.Order.Group.Multiset
import Mathlib.Tactic.Abel

/-! # What the descriptor operations do to a table -/

namespace NoobKernel.Files

open Library List Outcome FdTable

variable {fdt fdt' : FdTable} {i k fd f newMax : ℕ} {s s' : Slot} {l : List Slot} {n : ℤ}

def Slot.files : Slot → Multiset ℕ
  | .file f => {f}
  | _ => 0

@[simp] theorem Slot.files_null : Slot.null.files = 0 := rfl
@[simp] theorem Slot.files_reserved : Slot.reserved.files = 0 := rfl
@[simp] theorem Slot.files_file (f : ℕ) : (Slot.file f).files = {f} := rfl

theorem Slot.files_of_ne (h : ∀ f, s ≠ .file f) : s.files = 0 := by
  cases s with
  | null | reserved => rfl
  | file f => exact absurd rfl (h f)

def FdTable.files (fdt : FdTable) : Multiset ℕ := (fdt.fds.map Slot.files).sum

/-- The array has the size that the table notes, which is one that doubling reaches, and the
open descriptors are counted. -/
structure FdTable.Wf (fdt : FdTable) : Prop where
  size : fdt.fds.length = fdt.maxFds
  pow : ∃ k ≤ 5, fdt.maxFds = nrOpenDefault * 2 ^ k
  count : fdt.openFds = Multiset.card fdt.files

/-! ## Slots -/

theorem sum_files_set (h : l[i]? = some s) (s' : Slot) :
    ((l.set i s').map Slot.files).sum + s.files = (l.map Slot.files).sum + s'.files := by
  induction l generalizing i with
  | nil => cases h
  | cons a l ih =>
    cases i with
    | zero =>
      obtain rfl : a = s := Option.some.inj h
      rw [set_cons_zero, map_cons, map_cons, sum_cons, sum_cons]
      abel
    | succ i =>
      rw [set_cons_succ, map_cons, map_cons, sum_cons, sum_cons, add_assoc, ih h, add_assoc]

theorem mem_sum_files (h : l[i]? = some (.file f)) : f ∈ (l.map Slot.files).sum := by
  induction l generalizing i with
  | nil => cases h
  | cons a l ih =>
    rw [map_cons, sum_cons, Multiset.mem_add]
    cases i with
    | zero =>
      obtain rfl : a = .file f := Option.some.inj h
      exact Or.inl (Multiset.mem_singleton_self f)
    | succ i => exact Or.inr (ih h)

theorem FdTable.mem_files (h : fdt.fds[i]? = some (.file f)) : f ∈ fdt.files := mem_sum_files h

theorem FdTable.slot_eq (h : fdt.fds[i]? = some s) : fdt.slot i = .ok s := by
  rw [slot, h]

theorem lt_length (h : fdt.fds[i]? = some s) : i < fdt.fds.length :=
  (List.getElem?_eq_some_iff.mp h).1

theorem FdTable.store_eq (h : fdt.fds[i]? = some s) :
    fdt.store i s' = .ok { fdt with fds := fdt.fds.set i s' } :=
  if_pos (lt_length h)

theorem FdTable.Wf.pos (h : fdt.Wf) : nrOpenDefault ≤ fdt.maxFds := by
  obtain ⟨k, -, hk⟩ := h.pow
  rw [hk]
  exact Nat.le_mul_of_pos_right _ (Nat.two_pow_pos k)

theorem FdTable.Wf.exists_slot (h : fdt.Wf) (hn : ¬ fdt.Refuses n) :
    ∃ s, fdt.fds[n.toNat]? = some s := by
  rw [FdTable.Refuses, not_or, not_le] at hn
  exact ⟨_, List.getElem?_eq_getElem (h.size.symm ▸ hn.2)⟩

theorem FdTable.Wf.not_refuses (h : fdt.Wf) (hs : fdt.fds[i]? = some s) :
    ¬ fdt.Refuses (i : ℤ) := by
  have hlt := lt_length hs
  rw [h.size] at hlt
  rw [FdTable.Refuses, not_or, Int.toNat_natCast, not_le]
  exact ⟨by omega, hlt⟩

/-- The descriptors as a map, with nothing beyond the array. -/
def FdTable.view (fdt : FdTable) (i : ℕ) : Slot := fdt.fds[i]?.getD .null

theorem FdTable.view_eq (h : fdt.fds[i]? = some s) : fdt.view i = s := by simp [view, h]

theorem FdTable.getElem?_of_view (hlt : i < fdt.fds.length) : fdt.fds[i]? = some (fdt.view i) := by
  simp [view, hlt]

/-- Descriptor `fd` has become `s`, in a table that may have grown. -/
structure Sets (fdt : FdTable) (fd : ℕ) (s : Slot) (fdt' : FdTable) : Prop where
  wf : fdt'.Wf
  max_le : fdt.maxFds ≤ fdt'.maxFds
  lt : fd < fdt'.maxFds
  view : fdt'.view = Function.update fdt.view fd s

theorem Sets.slot (h : Sets fdt fd s fdt') : fdt'.fds[fd]? = some s := by
  rw [getElem?_of_view (h.wf.size.symm ▸ h.lt), h.view, Function.update_self]

theorem Sets.others (hwf : fdt.Wf) (h : Sets fdt fd s fdt') (hi : fdt.fds[i]? = some s')
    (hne : i ≠ fd) :
    fdt'.fds[i]? = some s' := by
  have hlt := lt_length hi
  rw [hwf.size] at hlt
  rw [getElem?_of_view (h.wf.size.symm ▸ hlt.trans_le h.max_le), h.view, Function.update_of_ne hne,
    view_eq hi]

theorem FdTable.Wf.set (h : fdt.Wf) (hs : fdt.fds[i]? = some s) {n : ℕ}
    (hn : n + Multiset.card s.files = fdt.openFds + Multiset.card s'.files) :
    Sets fdt i s' { fdt with fds := fdt.fds.set i s', openFds := n } where
  wf := by
    refine ⟨length_set.trans h.size, h.pow, ?_⟩
    have hcard := congrArg Multiset.card (sum_files_set hs s')
    rw [Multiset.card_add, Multiset.card_add] at hcard
    have hcount := h.count
    rw [files] at hcount ⊢
    dsimp only
    omega
  max_le := le_rfl
  lt := h.size ▸ lt_length hs
  view := by
    funext j
    by_cases hj : j = i
    · subst hj
      simp [FdTable.view, lt_length hs]
    · simp [FdTable.view, hj, Ne.symm hj]

/-! ## Setting a slot aside -/

/-- An empty slot, or a new one, is set aside. -/
structure Reserves (fdt : FdTable) (fd : ℕ) (fdt' : FdTable) : Prop extends
    Sets fdt fd .reserved fdt' where
  files : fdt'.files = fdt.files
  free : fdt.view fd = .null

theorem FdTable.Wf.reserves (h : fdt.Wf) (hs : fdt.fds[fd]? = some .null) :
    Reserves fdt fd { fdt with fds := fdt.fds.set fd .reserved } where
  toSets := h.set hs rfl
  files := by
    have hsum := sum_files_set hs .reserved
    rwa [Slot.files_null, Slot.files_reserved, add_zero, add_zero] at hsum
  free := view_eq hs

/-- The result of a search for a descriptor. -/
def Allots (fdt : FdTable) (r : Outcome (ℤ × FdTable)) : Prop :=
  r = .ok (-emfile, fdt) ∨
    ∃ (fd : ℕ) (fdt' : FdTable), r = .ok ((fd : ℤ), fdt') ∧ Reserves fdt fd fdt'

theorem Reserves.ne {fdt'' : FdTable} {fd' : ℕ} (h : Reserves fdt fd fdt')
    (h' : Reserves fdt' fd' fdt'') : fd ≠ fd' := by
  rintro rfl
  cases (view_eq h.slot).symm.trans h'.free

theorem firstFree_eq (fdt : FdTable) (l : List ℕ) (hl : ∀ i ∈ l, i < fdt.fds.length) :
    firstFree fdt l = .ok (l.find? fun i => fdt.view i = .null) := by
  induction l with
  | nil => rfl
  | cons i l ih =>
    rw [firstFree, slot_eq (getElem?_of_view (hl i mem_cons_self)), ok_bind,
      ih fun j hj => hl j (mem_cons_of_mem i hj), List.find?_cons]
    by_cases hnull : fdt.view i = .null <;> simp [hnull]

/-! ## Growth -/

/-- The table has become larger and is otherwise the same. -/
structure Grows (fdt : FdTable) (newMax : ℕ) (fdt' : FdTable) : Prop where
  wf : fdt'.Wf
  files : fdt'.files = fdt.files
  max : fdt'.maxFds = newMax
  view : fdt'.view = fdt.view

theorem sum_files_replicate (n : ℕ) : ((List.replicate n Slot.null).map Slot.files).sum = 0 := by
  rw [map_replicate, Slot.files_null, sum_replicate, nsmul_zero]

theorem FdTable.Wf.grow (h : fdt.Wf) (hle : fdt.maxFds ≤ newMax) (hk : k ≤ 5)
    (hpow : newMax = nrOpenDefault * 2 ^ k) :
    ∃ fdt', fdt.grow newMax = .ok fdt' ∧ Grows fdt newMax fdt' := by
  have htake : fdt.fds.take fdt.maxFds = fdt.fds := take_of_length_le h.size.le
  have hfiles : ((fdt.fds ++ List.replicate (newMax - fdt.maxFds) Slot.null).map Slot.files).sum =
      fdt.files := by
    rw [map_append, sum_append, sum_files_replicate, add_zero]
    rfl
  refine ⟨_, if_pos ⟨h.size.ge, hle⟩, ⟨?_, ⟨k, hk, hpow⟩, ?_⟩, ?_, rfl, ?_⟩
  · dsimp only
    rw [htake, length_append, length_replicate, h.size, Nat.add_sub_cancel' hle]
  · dsimp only [files]
    rw [htake, hfiles]
    exact h.count
  · dsimp only [files]
    rw [htake, hfiles]
    rfl
  · funext i
    simp only [view, htake, List.getElem?_append, List.getElem?_replicate]
    split
    · rfl
    · rename_i hi
      rw [List.getElem?_eq_none (not_lt.mp hi)]
      split <;> rfl

theorem FdTable.Wf.double (h : fdt.Wf) (hlt : fdt.maxFds < nrOpenMax) :
    ∃ k ≤ 5, fdt.maxFds * 2 = nrOpenDefault * 2 ^ k := by
  obtain ⟨k, hk, hmax⟩ := h.pow
  refine ⟨k + 1, ?_, by rw [hmax, pow_succ, mul_assoc]⟩
  by_contra hnot
  obtain rfl : k = 5 := by omega
  rw [hmax] at hlt
  exact absurd hlt (by decide)

theorem le_nrOpenMax (hk : k ≤ 5) : nrOpenDefault * 2 ^ k ≤ nrOpenMax :=
  Nat.mul_le_mul_left nrOpenDefault (Nat.pow_le_pow_right (by decide) hk)

/-- `fd_alloc` takes the first empty slot. It fails if all are taken and the table cannot grow. -/
theorem fdAlloc_cases (h : fdt.Wf) (room : Bool) :
    (fdAlloc room fdt = .ok (-emfile, fdt) ∧ (∀ i < fdt.maxFds, fdt.view i ≠ .null) ∧
      (fdt.maxFds < nrOpenMax → room = false)) ∨
    ∃ (fd : ℕ) (fdt' : FdTable), fdAlloc room fdt = .ok ((fd : ℤ), fdt') ∧ Reserves fdt fd fdt' ∧
      ∀ i < fd, fdt.view i ≠ .null := by
  unfold fdAlloc
  rw [firstFree_eq fdt _ fun i hi => h.size.symm ▸ mem_range.mp hi, ok_bind]
  cases hfind : (List.range fdt.maxFds).find? fun i => fdt.view i = .null with
  | some i =>
    obtain ⟨hnull, hi, hfirst⟩ := List.find?_range_eq_some.mp hfind
    have hslot := getElem?_of_view (h.size.symm ▸ mem_range.mp hi)
    rw [of_decide_eq_true hnull] at hslot
    dsimp only
    rw [store_eq hslot]
    exact Or.inr ⟨i, _, rfl, h.reserves hslot, fun j hj => by simpa using hfirst j hj⟩
  | none =>
    have hfull : ∀ i < fdt.maxFds, fdt.view i ≠ .null := by simpa using hfind
    dsimp only
    by_cases hroom : fdt.maxFds < nrOpenMax ∧ room
    · -- the first new slot is the middle of the new array
      obtain ⟨k, hk, hpow⟩ := h.double hroom.1
      have hmin : min (fdt.maxFds * 2) nrOpenMax = fdt.maxFds * 2 := by
        rw [hpow]
        exact min_eq_left (le_nrOpenMax hk)
      have hpos : 0 < fdt.maxFds := lt_of_lt_of_le (by decide) h.pos
      obtain ⟨fdt', hgrow, hgrows⟩ := h.grow (by omega) hk hpow
      have hfree : fdt.view fdt.maxFds = .null := by simp [view, h.size]
      have hnew : fdt'.fds[fdt.maxFds]? = some .null := by
        rw [getElem?_of_view (by rw [hgrows.wf.size, hgrows.max]; omega), hgrows.view, hfree]
      have hhalf : fdt'.maxFds / 2 = fdt.maxFds := by rw [hgrows.max]; omega
      have hres := hgrows.wf.reserves hnew
      rw [if_pos hroom, hmin, hgrow, ok_bind, hhalf, store_eq hnew, ok_bind]
      refine Or.inr ⟨fdt.maxFds, _, rfl, ⟨⟨hres.wf, ?_, hres.lt, ?_⟩, hres.files.trans hgrows.files,
        hfree⟩, hfull⟩
      · exact le_trans (by rw [hgrows.max]; omega) hres.max_le
      · rw [hres.view, hgrows.view]
    · rw [if_neg hroom]
      exact Or.inl ⟨rfl, hfull, fun hlt => by simpa [hlt] using hroom⟩

theorem fdAlloc_spec (h : fdt.Wf) (room : Bool) : Allots fdt (fdAlloc room fdt) := by
  rcases fdAlloc_cases h room with ⟨hrun, -⟩ | ⟨fd, fdt', hrun, hres, -⟩
  · exact Or.inl hrun
  · exact Or.inr ⟨fd, fdt', hrun, hres⟩

theorem dupfdAlloc_spec (h : fdt.Wf) (minfd : ℕ) : Allots fdt (dupfdAlloc minfd fdt) := by
  have hin : ∀ i ∈ List.range' minfd (fdt.maxFds - minfd), i < fdt.fds.length := by
    intro i hi
    have hi' := mem_range'_1.mp hi
    rw [h.size]
    omega
  unfold dupfdAlloc
  rw [firstFree_eq fdt _ hin, ok_bind]
  cases hfind : (List.range' minfd (fdt.maxFds - minfd)).find? fun i => fdt.view i = .null with
  | some i =>
    have hnull : fdt.view i = .null := by simpa using List.find?_some hfind
    have hslot := getElem?_of_view (hin i (mem_of_find?_eq_some hfind))
    rw [hnull] at hslot
    dsimp only
    rw [store_eq hslot]
    exact Or.inr ⟨i, _, rfl, h.reserves hslot⟩
  | none => exact Or.inl rfl

theorem doubleUntil_pow (newfd : ℕ) (hk : k ≤ 5) (fuel : ℕ) :
    ∃ k' ≤ 5, doubleUntil newfd fuel (nrOpenDefault * 2 ^ k) = nrOpenDefault * 2 ^ k' ∧ k ≤ k' := by
  induction fuel generalizing k with
  | zero => exact ⟨k, hk, rfl, le_rfl⟩
  | succ fuel ih =>
    rw [doubleUntil]
    split
    · rename_i hcond
      have hk' : k + 1 ≤ 5 := by
        by_contra hnot
        obtain rfl : k = 5 := by omega
        exact absurd hcond.2 (by decide)
      obtain ⟨k', hle, hdouble, hkk⟩ := ih hk'
      rw [mul_assoc, ← pow_succ]
      exact ⟨k', hle, hdouble, by omega⟩
    · exact ⟨k, hk, rfl, le_rfl⟩

theorem dup3Grow_spec (h : fdt.Wf) (room : Bool) (newfd : ℕ) :
    (∃ r < 0, dup3Grow room newfd fdt = .ok (r, fdt)) ∨
      ∃ fdt', dup3Grow room newfd fdt = .ok (0, fdt') ∧ fdt'.Wf ∧ fdt'.files = fdt.files ∧
        fdt'.view = fdt.view := by
  unfold dup3Grow
  by_cases hlt : newfd < fdt.maxFds
  · rw [if_pos hlt]
    exact Or.inr ⟨fdt, rfl, h, rfl, rfl⟩
  rw [if_neg hlt]
  dsimp only
  split
  · exact Or.inl ⟨-ebadf, by decide, rfl⟩
  rename_i hin
  split
  · by_cases hlast : fdt.maxFds < nrOpenMax
    · obtain ⟨k, hk, hpow⟩ := h.double hlast
      obtain ⟨k', hk', hdouble, hkk⟩ := doubleUntil_pow newfd hk nrOpenMax
      rw [hpow, hdouble, min_eq_left (le_nrOpenMax hk')] at hin ⊢
      have hle : fdt.maxFds ≤ nrOpenDefault * 2 ^ k' := by
        omega
      obtain ⟨fdt', hgrow, hgrows⟩ := h.grow hle hk' rfl
      rw [hgrow]
      exact Or.inr ⟨fdt', rfl, hgrows.wf, hgrows.files, hgrows.view⟩
    · -- a table of the largest size does not grow
      omega
  · exact Or.inl ⟨-enomem, by decide, rfl⟩

/-! ## Installing and closing -/

/-- A file is installed. -/
structure Installs (fdt : FdTable) (fd f : ℕ) (fdt' : FdTable) : Prop extends
    Sets fdt fd (.file f) fdt' where
  files : fdt'.files = f ::ₘ fdt.files

theorem fdInstall_spec (h : fdt.Wf) (hs : fdt.fds[fd]? = some s) (hfile : ∀ g, s ≠ .file g)
    (f : ℕ) : ∃ fdt', fdInstall fd f fdt = .ok (0, fdt') ∧ Installs fdt fd f fdt' := by
  have hzero := Slot.files_of_ne hfile
  have hrun : fdInstall fd f fdt =
      .ok (0, { fdt with fds := fdt.fds.set fd (.file f), openFds := fdt.openFds + 1 }) := by
    rw [fdInstall, if_neg (h.not_refuses hs), Int.toNat_natCast, slot_eq hs, ok_bind]
    cases s with
    | file g => exact absurd rfl (hfile g)
    | null | reserved => dsimp only; rw [store_eq hs]; rfl
  refine ⟨_, hrun, h.set hs (by rw [hzero]; rfl), ?_⟩
  have hsum := sum_files_set hs (.file f)
  rw [hzero, add_zero, Slot.files_file, add_comm, Multiset.singleton_add] at hsum
  exact hsum

/-- `fd_install` refuses descriptors outside of the table and open ones. -/
theorem fdInstall_cases (h : fdt.Wf) (n : ℤ) (f : ℕ) :
    (∃ r < 0, fdInstall n f fdt = .ok (r, fdt) ∧ ∀ i : ℕ, n = i → fdt.fds[i]? ≠ some .reserved) ∨
      ∃ (fd : ℕ) (fdt' : FdTable), fdInstall n f fdt = .ok (0, fdt') ∧ n = fd ∧
        Installs fdt fd f fdt' := by
  by_cases hn : fdt.Refuses n
  · refine Or.inl ⟨-einval, by decide, if_pos hn, ?_⟩
    rintro i rfl hs
    exact h.not_refuses hs hn
  obtain ⟨s, hs⟩ := h.exists_slot hn
  obtain ⟨fd, rfl⟩ : ∃ fd : ℕ, n = fd := ⟨n.toNat, by
    rw [FdTable.Refuses, not_or] at hn
    omega⟩
  rw [Int.toNat_natCast] at hs
  by_cases hfile : ∃ g, s = .file g
  · obtain ⟨g, rfl⟩ := hfile
    refine Or.inl ⟨-ebadf, by decide, ?_, fun i hi hres => ?_⟩
    · rw [fdInstall, if_neg hn, Int.toNat_natCast, slot_eq hs]
      rfl
    · obtain rfl := Int.ofNat.inj hi
      cases hres.symm.trans hs
  · obtain ⟨fdt', hrun, hinst⟩ := fdInstall_spec h hs (fun g hg => hfile ⟨g, hg⟩) f
    exact Or.inr ⟨fd, fdt', hrun, rfl, hinst⟩

/-- A descriptor is closed that holds the reference `s`. -/
structure Closes (fdt : FdTable) (fd : ℕ) (s : Slot) (fdt' : FdTable) : Prop extends
    Sets fdt fd .null fdt' where
  files : fdt.files = s.files + fdt'.files

def Slot.put : Slot → Heap → Outcome Heap
  | .file f, h => filePut f h
  | _, h => .ok h

theorem fdFree_slot (h : fdt.Wf) (hs : fdt.fds[fd]? = some s) :
    ∃ fdt', Closes fdt fd s fdt' ∧
      ∀ heap, fdFree fd fdt heap = s.put heap >>= fun heap => .ok (fdt', heap) := by
  have hsum := sum_files_set hs .null
  rw [Slot.files_null, add_zero] at hsum
  have hcount := h.count
  have hcard := congrArg Multiset.card hsum
  rw [Multiset.card_add] at hcard
  refine ⟨{ fdt with
    fds := fdt.fds.set fd .null, openFds := fdt.openFds - Multiset.card s.files },
    ⟨h.set hs ?_, hsum.symm.trans (add_comm _ _)⟩, fun heap => ?_⟩
  · rw [Slot.files_null, Multiset.card_zero]
    rw [files] at hcount
    omega
  · rw [fdFree, if_neg (h.not_refuses hs), Int.toNat_natCast, slot_eq hs, ok_bind]
    cases s with
    | null | reserved =>
      rw [store_eq hs]
      rfl
    | file f =>
      have hs' : ({ fdt with openFds := fdt.openFds - 1 } : FdTable).fds[fd]? = some (.file f) := hs
      rw [store_eq hs']
      rfl

/-- `fd_free` closes a descriptor and gives the reference back. -/
theorem fdFree_spec (h : fdt.Wf) (n : ℤ) :
    (∀ heap, fdFree n fdt heap = .ok (fdt, heap)) ∨
      ∃ fd s fdt', Closes fdt fd s fdt' ∧
        ∀ heap, fdFree n fdt heap = s.put heap >>= fun heap => .ok (fdt', heap) := by
  by_cases hn : fdt.Refuses n
  · exact Or.inl fun heap => if_pos hn
  · obtain ⟨s, hs⟩ := h.exists_slot hn
    lift n to ℕ using not_lt.mp (not_or.mp hn).1
    exact Or.inr ⟨n, s, fdFree_slot h hs⟩

theorem fdGet_spec (h : fdt.Wf) (n : ℤ) :
    (∀ heap, fdGet n fdt heap = .ok (none, heap)) ∨
      ∃ f, fdt.fds[n.toNat]? = some (.file f) ∧
        ∀ heap, fdGet n fdt heap = fileGet f heap >>= fun heap => .ok (some f, heap) := by
  by_cases hn : fdt.Refuses n
  · exact Or.inl fun heap => if_pos hn
  obtain ⟨s, hs⟩ := h.exists_slot hn
  cases s with
  | null | reserved =>
    refine Or.inl fun heap => ?_
    rw [fdGet, if_neg hn, slot_eq hs, ok_bind]
  | file f =>
    refine Or.inr ⟨f, hs, fun heap => ?_⟩
    rw [fdGet, if_neg hn, slot_eq hs, ok_bind]

/-! ## Copies of descriptor tables -/

open Heap

variable {h h' : Heap} {n : ℕ}

def Heap.gets (refs : Multiset ℕ) (h : Heap) : Heap :=
  { h with file := fun f =>
      (h.file f).map (fun file => { file with refcnt := file.refcnt + refs.count f }) }

theorem Heap.gets_zero (h : Heap) : h.gets 0 = h := by
  have hfile : (h.gets 0).file = h.file := by
    simp [gets]
  exact congrArg (fun file => ({ h with file := file } : Heap)) hfile

theorem Heap.gets_gets (refs refs' : Multiset ℕ) (h : Heap) :
    (h.gets refs).gets refs' = h.gets (refs + refs') := by
  have hfile : ((h.gets refs).gets refs').file = (h.gets (refs + refs')).file := by
    funext f
    simp only [gets, Option.map_map, Multiset.count_add]
    congr 1
    funext file
    simp [add_assoc]
  exact congrArg (fun file => ({ h with file := file } : Heap)) hfile

theorem Heap.gets_live (refs : Multiset ℕ) (hf : h.file f ≠ none) : (h.gets refs).file f ≠ none :=
  fun hnone => hf (Option.map_eq_none_iff.mp hnone)

theorem fileGet_eq (hf : h.file f ≠ none) : fileGet f h = .ok (h.gets {f}) := by
  obtain ⟨file, hfile⟩ := Option.ne_none_iff_exists'.mp hf
  have hset : Function.update h.file f (some { file with refcnt := file.refcnt + 1 }) =
      (h.gets {f}).file := by
    funext g
    by_cases hg : g = f
    · subst hg
      simp [gets, hfile]
    · simp [gets, hg]
  rw [fileGet, hfile]
  exact congrArg (fun file => Except.ok ({ h with file := file } : Heap)) hset

/-! ## The loop -/

/-- What `fd_table_dup` makes of a slot. -/
def Slot.copy : Slot → Slot
  | .file f => .file f
  | _ => .null

@[simp] theorem Slot.files_copy (s : Slot) : s.copy.files = s.files := by
  cases s <;> rfl

/-- What a part of the loop has done. -/
structure CopiedSlots (fdt : FdTable) (i n : ℕ) (new new' : FdTable) : Prop where
  max : new'.maxFds = new.maxFds
  count : new'.openFds = new.openFds + Multiset.card (((fdt.fds.drop i).take n).map Slot.files).sum
  inside : ∀ j : ℕ, i ≤ j → j < i + n → new'.fds[j]? = (fdt.fds[j]?).map Slot.copy
  outside : ∀ j : ℕ, j < i ∨ i + n ≤ j → new'.fds[j]? = new.fds[j]?

theorem dupSlots_cons {is : List ℕ} {new : FdTable} {s : Slot} (hs : fdt.fds[i]? = some s)
    (hnull : new.fds[i]? = some .null) (hlive : ∀ f ∈ fdt.files, h.file f ≠ none) :
    dupSlots fdt (i :: is) new h = dupSlots fdt is { new with
      fds := new.fds.set i s.copy, openFds := new.openFds + Multiset.card s.files }
        (h.gets s.files) := by
  rw [dupSlots, slot_eq hs, ok_bind]
  cases s with
  | file f =>
    dsimp only
    rw [fileGet_eq (hlive f (mem_files hs)), ok_bind, store_eq hnull]
    rfl
  | null | reserved =>
    have hsame : new.fds.set i .null = new.fds := by
      obtain ⟨_, hget⟩ := List.getElem?_eq_some_iff.mp hnull
      rw [← hget, set_getElem_self]
    simp [Slot.copy, gets_zero, hsame]

theorem dupSlots_spec (n : ℕ) : ∀ (i : ℕ) (new : FdTable) (h : Heap), i + n ≤ fdt.fds.length →
    (∀ j : ℕ, i ≤ j → j < i + n → new.fds[j]? = some .null) →
    (∀ f ∈ fdt.files, h.file f ≠ none) →
    ∃ new', dupSlots fdt (range' i n) new h =
        .ok (new', h.gets (((fdt.fds.drop i).take n).map Slot.files).sum) ∧
      CopiedSlots fdt i n new new' := by
  induction n with
  | zero =>
    intro i new h _ _ _
    refine ⟨new, ?_, rfl, rfl, fun j hi hj => by omega, fun _ _ => rfl⟩
    rw [take_zero, map_nil, sum_nil, gets_zero]
    rfl
  | succ n ih =>
    intro i new h hlen hnull hlive
    have hlt : i < fdt.fds.length := by omega
    have hslot := getElem?_eq_getElem hlt
    have hhead : (fdt.fds.drop i).take (n + 1) = fdt.fds[i] :: (fdt.fds.drop (i + 1)).take n := by
      rw [drop_eq_getElem_cons hlt, take_succ_cons]
    have hfirst := hnull i le_rfl (by omega)
    obtain ⟨new', hrun, hcopied⟩ := ih (i + 1) { new with
        fds := new.fds.set i fdt.fds[i].copy,
        openFds := new.openFds + Multiset.card fdt.fds[i].files }
      (h.gets fdt.fds[i].files) (by omega)
      (fun j hi hj => by rw [getElem?_set_ne (by omega), hnull j (by omega) (by omega)])
      (fun g hg => gets_live _ (hlive g hg))
    refine ⟨new', ?_, hcopied.max, ?_, fun j hi hj => ?_, fun j hj => ?_⟩
    · rw [range'_succ, dupSlots_cons hslot hfirst hlive, hhead, map_cons, sum_cons, ← gets_gets]
      exact hrun
    · rw [hcopied.count, hhead, map_cons, sum_cons, Multiset.card_add, add_assoc]
    · by_cases heq : j = i
      · subst heq
        rw [hcopied.outside j (Or.inl (by omega)), hslot]
        exact getElem?_set_self (lt_length hfirst)
      · exact hcopied.inside j (by omega) (by omega)
    · rw [hcopied.outside j (by omega)]
      exact getElem?_set_ne (by omega)

/-- The references of the first `NR_OPEN_DEFAULT` descriptors. -/
def FdTable.kept (fdt : FdTable) : Multiset ℕ := ((fdt.fds.take nrOpenDefault).map Slot.files).sum

def FdTable.copy (fdt : FdTable) : FdTable :=
  ⟨(fdt.fds.take nrOpenDefault).map Slot.copy, nrOpenDefault, Multiset.card fdt.kept⟩

theorem FdTable.files_copy (fdt : FdTable) : fdt.copy.files = fdt.kept := by
  rw [files, FdTable.copy, map_map]
  exact congrArg List.sum (map_congr_left fun s _ => s.files_copy)

theorem FdTable.Wf.copy (hwf : fdt.Wf) : fdt.copy.Wf where
  size := by
    rw [FdTable.copy, length_map, length_take, hwf.size]
    exact min_eq_left hwf.pos
  pow := ⟨0, by decide, rfl⟩
  count := by rw [fdt.files_copy]; rfl

/-- `fd_table_dup` copies the first `NR_OPEN_DEFAULT` descriptors. -/
theorem fdTableDup_spec (hwf : fdt.Wf) (hlive : ∀ f ∈ fdt.files, h.file f ≠ none) :
    fdTableDup true fdt h = .ok (some fdt.copy, h.gets fdt.kept) := by
  have hmin : min fdt.maxFds nrOpenDefault = nrOpenDefault := min_eq_right hwf.pos
  obtain ⟨new, hrun, hcopied⟩ := dupSlots_spec nrOpenDefault 0
    ⟨List.replicate nrOpenDefault .null, nrOpenDefault, 0⟩ h
      (by rw [hwf.size, zero_add]; exact hwf.pos)
    (fun j _ hj => getElem?_replicate_of_lt (by omega)) hlive
  have hnew : new = fdt.copy := by
    obtain ⟨fds, maxFds, openFds⟩ := new
    obtain rfl : maxFds = nrOpenDefault := hcopied.max
    obtain rfl : openFds = Multiset.card fdt.kept := by
      have hcount := hcopied.count
      rw [drop_zero, zero_add] at hcount
      exact hcount
    congr 1
    apply ext_getElem?
    intro j
    rw [getElem?_map, getElem?_take]
    by_cases hj : j < nrOpenDefault
    · rw [if_pos hj]
      exact hcopied.inside j (Nat.zero_le j) (by omega)
    · rw [if_neg hj, hcopied.outside j (Or.inr (by omega))]
      exact getElem?_eq_none (by rw [length_replicate]; omega)
  rw [hnew] at hrun
  rw [fdTableDup, fdTableAlloc, if_pos rfl]
  dsimp only
  rw [hmin, range_eq_range', hrun]
  rfl

theorem fdTableDup_failed : fdTableDup false fdt h = .ok (none, h) := rfl

/-! ## Reachable tables -/

theorem wf_fdTableAlloc (hr : fdTableAlloc true = some fdt) : fdt.Wf := by
  obtain rfl := Option.some.inj hr
  exact ⟨rfl, ⟨0, by decide, rfl⟩, rfl⟩

theorem fdInstall_wf (hwf : fdt.Wf) {fd r : ℤ} (hr : fdInstall fd f fdt = .ok (r, fdt')) :
    fdt'.Wf := by
  rcases fdInstall_cases hwf fd f with ⟨r', -, hrun, -⟩ | ⟨n, fdt1, hrun, -, hinst⟩
  · obtain ⟨-, rfl⟩ := ok_mk_inj (hrun.symm.trans hr)
    exact hwf
  · obtain ⟨-, rfl⟩ := ok_mk_inj (hrun.symm.trans hr)
    exact hinst.wf

theorem fdFree_wf (hwf : fdt.Wf) {fd : ℤ} (hr : fdFree fd fdt h = .ok (fdt', h')) : fdt'.Wf := by
  rcases fdFree_spec hwf fd with hrun | ⟨_, s, fdt1, hcloses, hrun⟩
  · rw [hrun] at hr
    obtain ⟨rfl, -⟩ := ok_mk_inj hr
    exact hwf
  rw [hrun, bind_eq_ok] at hr
  obtain ⟨h1, -, hr⟩ := hr
  obtain ⟨rfl, -⟩ := ok_mk_inj hr
  exact hcloses.wf

theorem Allots.wf (hwf : fdt.Wf) {alloc : Outcome (ℤ × FdTable)} {r : ℤ}
    (hspec : Allots fdt alloc) (hr : alloc = .ok (r, fdt')) : fdt'.Wf := by
  rcases hspec with hrun | ⟨fd, fdt1, hrun, hres⟩
  · obtain ⟨-, rfl⟩ := ok_mk_inj (hrun.symm.trans hr)
    exact hwf
  · obtain ⟨-, rfl⟩ := ok_mk_inj (hrun.symm.trans hr)
    exact hres.wf

theorem Reachable.wf (hr : Reachable fdt) : fdt.Wf := by
  induction hr with
  | fdTableAlloc hr => exact wf_fdTableAlloc hr
  | @fdAlloc fdt fdt' room r _ hr ih => exact (fdAlloc_spec ih room).wf ih hr
  | fdInstall _ hr ih => exact fdInstall_wf ih hr
  | fdFree _ hr ih => exact fdFree_wf ih hr
  | @dup3Grow fdt fdt' room newfd r _ hr ih =>
    rcases dup3Grow_spec ih room newfd with ⟨r', -, hrun⟩ | ⟨fdt1, hrun, hwf, -⟩
    · rw [hrun] at hr
      obtain ⟨-, rfl⟩ := ok_mk_inj hr
      exact ih
    · rw [hrun] at hr
      obtain ⟨-, rfl⟩ := ok_mk_inj hr
      exact hwf
  | @dupfdAlloc fdt fdt' minfd r _ hr ih => exact (dupfdAlloc_spec ih minfd).wf ih hr

/-! ## Descriptors of a copy -/

/-- A copy has the open descriptors of a table, each with a reference of its own. -/
structure Duplicate (fdt : FdTable) (h : Heap) (fdt' : FdTable) (h' : Heap) : Prop where
  same : ∀ (fd f : ℕ), fdt.fds[fd]? = some (.file f) → fdt'.fds[fd]? = some (.file f)
  free : ∀ fd : ℕ, (∀ f, fdt.fds[fd]? ≠ some (.file f)) → ∀ s ∈ fdt'.fds[fd]?, s = .null
  count : fdt'.openFds = Multiset.card fdt'.files
  refs : ∀ f file, h.file f = some file →
    h'.file f = some { file with refcnt := file.refcnt + fdt.files.count f }

theorem FdTable.files_eq (fdt : FdTable) :
    fdt.files = fdt.kept + ((fdt.fds.drop nrOpenDefault).map Slot.files).sum := by
  rw [kept, ← sum_append, ← map_append, take_append_drop]
  rfl

theorem FdTable.files_eq_kept
    (hlow : ∀ fd f : ℕ, nrOpenDefault ≤ fd → fdt.fds[fd]? ≠ some (.file f)) :
    fdt.files = fdt.kept := by
  rw [fdt.files_eq, sum_eq_zero, add_zero]
  intro refs hrefs
  obtain ⟨s, hs, rfl⟩ := mem_map.mp hrefs
  obtain ⟨j, hj⟩ := mem_iff_getElem?.mp hs
  refine Slot.files_of_ne (fun f hf => ?_)
  subst hf
  rw [getElem?_drop] at hj
  exact hlow _ f (Nat.le_add_right _ _) hj

/-- `fd_table_dup` copies all descriptors when those from `NR_OPEN_DEFAULT` on are not open. -/
theorem fdTableDup_duplicate_iff (hr : Reachable fdt) (hlive : ∀ f ∈ fdt.files, h.file f ≠ none) :
    ∃ fdt' h', fdTableDup true fdt h = .ok (some fdt', h') ∧
      (Duplicate fdt h fdt' h' ↔
        ∀ fd f : ℕ, nrOpenDefault ≤ fd → fdt.fds[fd]? ≠ some (.file f)) := by
  have hwf := hr.wf
  refine ⟨_, _, fdTableDup_spec hwf hlive, fun hdup => ?_, fun hlow => ?_⟩
  · intro fd f hfd hopen
    have hcopy := lt_length (hdup.same fd f hopen)
    rw [hwf.copy.size, FdTable.copy] at hcopy
    dsimp only at hcopy
    omega
  · have hslot : ∀ fd : ℕ, fd < nrOpenDefault →
        fdt.copy.fds[fd]? = (fdt.fds[fd]?).map Slot.copy := by
      intro fd hfd
      rw [FdTable.copy, getElem?_map, getElem?_take_of_lt hfd]
    refine ⟨?_, ?_, hwf.copy.count, ?_⟩
    · intro fd f hopen
      have hfd : fd < nrOpenDefault := by
        by_contra hge
        exact hlow fd f (not_lt.mp hge) hopen
      rw [hslot fd hfd, hopen]
      rfl
    · intro fd hnot s hs
      have hfd : fd < nrOpenDefault := by
        have hlt := lt_length hs
        rwa [hwf.copy.size] at hlt
      rw [hslot fd hfd] at hs
      obtain ⟨s', hs', rfl⟩ := Option.map_eq_some_iff.mp hs
      cases s' with
      | null | reserved => rfl
      | file f => exact absurd hs' (hnot f)
    · intro f file hfile
      rw [files_eq_kept hlow]
      exact congrArg (Option.map _) hfile

/-- A table with one open descriptor. -/
theorem fdTableDup_duplicate_one : ∃ fdt h fdt' h', Reachable fdt ∧
    fdt.fds[0]? = some (.file 0) ∧ fdTableDup true fdt h = .ok (some fdt', h') ∧
    Duplicate fdt h fdt' h' := by
  have hinstall : fdInstall 0 0 ⟨List.replicate nrOpenDefault .null, nrOpenDefault, 0⟩ =
      .ok (0, ⟨(List.replicate nrOpenDefault .null).set 0 (.file 0), nrOpenDefault, 1⟩) := rfl
  have hr := Reachable.fdInstall (.fdTableAlloc rfl) hinstall
  obtain ⟨fdt', h', hrun, hiff⟩ := fdTableDup_duplicate_iff hr
    (h := ⟨fun _ => some ⟨1, .other⟩, fun _ => none⟩) (fun f _ => nofun)
  refine ⟨_, _, fdt', h', hr, rfl, hrun, hiff.mpr (fun fd f hfd => ?_)⟩
  have hne : 0 ≠ fd := fun hzero => absurd (hzero ▸ hfd) (by decide)
  rw [getElem?_set_ne hne, getElem?_eq_none (by rwa [length_replicate])]
  nofun

/-- A descriptor that `sys_dup3` has placed behind the first ones is lost. -/
theorem fdTableDup_loses_descriptor : ∃ fdt h fdt' h', Reachable fdt ∧
    (∀ f ∈ fdt.files, h.file f ≠ none) ∧ fdTableDup true fdt h = .ok (some fdt', h') ∧
    fdt.fds[32]? = some (.file 0) ∧ fdt'.fds[32]? = none ∧ ¬ Duplicate fdt h fdt' h' := by
  have hgrow : dup3Grow true 32 ⟨List.replicate nrOpenDefault .null, nrOpenDefault, 0⟩ =
      .ok (0, ⟨List.replicate 64 .null, 64, 0⟩) := rfl
  have hinstall : fdInstall 32 0 ⟨List.replicate 64 .null, 64, 0⟩ =
      .ok (0, ⟨(List.replicate 64 .null).set 32 (.file 0), 64, 1⟩) := rfl
  have hr := Reachable.fdInstall (.dup3Grow (.fdTableAlloc rfl) hgrow) hinstall
  have hlive : ∀ f, (⟨fun _ => some ⟨1, .other⟩, fun _ => none⟩ : Heap).file f ≠ none :=
    fun f => nofun
  have hspec := fdTableDup_spec hr.wf (fun f _ => hlive f)
  refine ⟨_, _, _, _, hr, fun f _ => hlive f, hspec, rfl, rfl, fun hdup => ?_⟩
  exact absurd (hdup.same 32 0 rfl) (by decide)

/-! ## Descriptors that are handed out

The tables that `fd_alloc`, `fd_install`, `fd_free` and the growth in `sys_dup3` lead to, seen as maps
from descriptors to slots. -/

def Slot.isOpen : Slot → Bool
  | .file _ => true
  | _ => false

theorem card_sum_files (l : List Slot) :
    Multiset.card (l.map Slot.files).sum = l.countP Slot.isOpen := by
  induction l with
  | nil => rfl
  | cons s l ih =>
    rw [map_cons, sum_cons, Multiset.card_add, ih, countP_cons, add_comm]
    cases s <;> rfl

/-- What `fd_alloc` returns: the smallest descriptor whose slot is empty, which is set aside, or an
error, if all slots are taken and there cannot be more of them. -/
def AllocRight (fdt : FdTable) (room : Bool) : Prop :=
  (∃ (fd : ℕ) (fdt' : FdTable), fdAlloc room fdt = .ok ((fd : ℤ), fdt') ∧ fdt.view fd = .null ∧
    (∀ i < fd, fdt.view i ≠ .null) ∧ fdt'.view = Function.update fdt.view fd .reserved) ∨
  fdAlloc room fdt = .ok (-emfile, fdt) ∧ (∀ i < fdt.maxFds, fdt.view i ≠ .null) ∧
    (fdt.maxFds = nrOpenMax ∨ room = false)

theorem FdTable.Wf.allocRight (h : fdt.Wf) (room : Bool) : AllocRight fdt room := by
  rcases fdAlloc_cases h room with ⟨hrun, hfull, hroom⟩ | ⟨fd, fdt', hrun, hres, hfirst⟩
  · refine Or.inr ⟨hrun, hfull, ?_⟩
    obtain ⟨k, hk, hmax⟩ := h.pow
    exact (hmax.trans_le (le_nrOpenMax hk)).eq_or_lt.imp_right hroom
  · exact Or.inl ⟨fd, fdt', hrun, hres.free, hfirst, hres.view⟩

/-- `fd_get` finds the files of the slots that hold one. -/
theorem FdTable.Wf.fdGet_iff (h : fdt.Wf) {heap : Heap} (hlive : ∀ f ∈ fdt.files, heap.file f ≠ none)
    (n : ℤ) (f : ℕ) :
    (∃ heap', fdGet n fdt heap = .ok (some f, heap')) ↔ 0 ≤ n ∧ fdt.view n.toNat = .file f := by
  constructor
  · rintro ⟨heap', hrun⟩
    have hn : ¬ fdt.Refuses n := fun hn => by simp [fdGet, hn] at hrun
    rcases fdGet_spec h n with hnone | ⟨g, hslot, hget⟩
    · rw [hnone] at hrun
      cases hrun
    rw [hget] at hrun
    obtain ⟨heap1, -, hrun⟩ := bind_eq_ok.mp hrun
    cases hrun
    exact ⟨not_lt.mp (not_or.mp hn).1, view_eq hslot⟩
  · rintro ⟨hpos, hview⟩
    lift n to ℕ using hpos
    rw [Int.toNat_natCast] at hview
    have hslot : fdt.fds[n]? = some (.file f) := by
      unfold view at hview
      cases hget : fdt.fds[n]? with
      | none => simp [hget] at hview
      | some s => simpa [hget] using hview
    obtain ⟨file, hfile⟩ := Option.ne_none_iff_exists'.mp (hlive f (mem_files hslot))
    rw [fdGet, if_neg (h.not_refuses hslot), Int.toNat_natCast, slot_eq hslot, ok_bind]
    simp [fileGet, hfile]

/-- In every table that the operations lead to, descriptors are handed out in order, growth keeps all
slots, the open descriptors are counted, and exactly those are found. -/
theorem descriptors_right (h : Reachable fdt) :
    fdt.openFds = fdt.fds.countP Slot.isOpen ∧ (∀ room, AllocRight fdt room) ∧
    (∀ room newfd r fdt', dup3Grow room newfd fdt = .ok (r, fdt') → fdt'.view = fdt.view) ∧
    ∀ heap : Heap, (∀ f ∈ fdt.files, heap.file f ≠ none) → ∀ (n : ℤ) (f : ℕ),
      (∃ heap', fdGet n fdt heap = .ok (some f, heap')) ↔ 0 ≤ n ∧ fdt.view n.toNat = .file f := by
  refine ⟨h.wf.count.trans (card_sum_files _), h.wf.allocRight, fun room newfd r fdt' hrun => ?_,
    fun heap hlive => h.wf.fdGet_iff hlive⟩
  rcases dup3Grow_spec h.wf room newfd with ⟨r', -, heq⟩ | ⟨fdt1, heq, -, -, hview⟩
  · rw [heq] at hrun
    obtain ⟨-, rfl⟩ := ok_mk_inj hrun
    rfl
  · rw [heq] at hrun
    obtain ⟨-, rfl⟩ := ok_mk_inj hrun
    exact hview

theorem descriptors_right_open : AllocRight ⟨.file 7 :: .replicate 31 .null, 32, 1⟩ true :=
  (descriptors_right (.fdInstall (.fdAlloc (.fdTableAlloc rfl)
    (rfl : fdAlloc true _ = .ok (0, _))) (rfl : fdInstall 0 7 _ = .ok (0, _)))).2.1 true

end NoobKernel.Files
