import NoobKernel.Model.SyscallTable
import Mathlib.Data.List.Nodup
import Mathlib.Data.List.Perm.Subperm

/-! # System calls are found under their numbers -/

namespace NoobKernel.Syscall

open Function List

variable {t t' : Table} {calls done : List Entry} {c : Entry} {nr : BitVec 32} {i k fn : ℕ}

theorem slot_eq (nr : BitVec 32) (i : ℕ) : slot nr i = (scHash nr + i) % 256 :=
  Nat.and_two_pow_sub_one_eq_mod _ 8

theorem exists_slot_eq (nr : BitVec 32) (hk : k < scTableSize) :
    ∃ i < scTableSize, slot nr i = k := by
  refine ⟨(k + (scTableSize - scHash nr % scTableSize)) % scTableSize, Nat.mod_lt _ (by decide), ?_⟩
  rw [slot_eq]
  simp only [scTableSize] at *
  omega

/-! ## Registration -/

/-- The table holds the calls, and no empty slot comes before one in the rounds for its number. -/
structure Holds (t : Table) (calls : List Entry) : Prop where
  found : ∀ c ∈ calls, ∃ i < scTableSize, t (slot c.nr i) = c ∧ ∀ j ≤ i, (t (slot c.nr j)).fn ≠ 0
  member : ∀ k, (t k).fn ≠ 0 → t k ∈ calls
  slots : ∃ ks : List ℕ, ks.length = calls.length ∧ ∀ k, (t k).fn ≠ 0 → k ∈ ks

theorem holds_nil : Holds (fun _ => ⟨0, 0⟩) [] where
  found := by simp
  member k hk := absurd rfl hk
  slots := ⟨[], rfl, fun k hk => absurd rfl hk⟩

theorem Holds.register (h : Holds t calls) (hroom : calls.length < scTableSize) (hfn : c.fn ≠ 0) :
    ∃ t', syscallRegister c.nr c.fn t = some t' ∧ Holds t' (c :: calls) := by
  obtain ⟨ks, hlen, hks⟩ := h.slots
  cases hfind : (range scTableSize).find? (fun i => (t (slot c.nr i)).fn = 0) with
  | none =>
    have hsub : range scTableSize ⊆ ks := by
      intro k hk
      obtain ⟨i, hi, rfl⟩ := exists_slot_eq c.nr (mem_range.mp hk)
      exact hks _ (by simpa using find?_eq_none.mp hfind i (mem_range.mpr hi))
    have hle := (nodup_range.subperm hsub).length_le
    rw [length_range] at hle
    omega
  | some i =>
    obtain ⟨hempty, hi, hbefore⟩ := find?_range_eq_some.mp hfind
    simp only [decide_eq_true_eq, Bool.not_eq_true', decide_eq_false_iff_not] at hempty hbefore
    have hold : ∀ j, (t j).fn ≠ 0 → update t (slot c.nr i) c j = t j := by
      intro j hj
      refine update_of_ne ?_ _ _
      rintro rfl
      exact hj hempty
    refine ⟨update t (slot c.nr i) c, by rw [syscallRegister, hfind], fun c' hc' => ?_,
      fun j hj => ?_, slot c.nr i :: ks, by simp [hlen], fun j hj => ?_⟩
    · rcases mem_cons.mp hc' with rfl | hc'
      · refine ⟨i, mem_range.mp hi, update_self _ _ _, fun j hj => ?_⟩
        rcases hj.lt_or_eq with hlt | rfl
        · rw [hold _ (hbefore j hlt)]
          exact hbefore j hlt
        · rwa [update_self]
      · obtain ⟨i', hi', heq, hbelow⟩ := h.found c' hc'
        refine ⟨i', hi', (hold _ (hbelow i' le_rfl)).trans heq, fun j hj => ?_⟩
        rw [hold _ (hbelow j hj)]
        exact hbelow j hj
    all_goals
      by_cases hjk : j = slot c.nr i
      · simp [hjk]
      rw [update_of_ne hjk] at hj
    · rw [update_of_ne hjk]
      exact mem_cons_of_mem c (h.member j hj)
    · exact mem_cons_of_mem _ (hks j hj)

theorem Holds.registers (h : Holds t done) (hroom : done.length + calls.length ≤ scTableSize)
    (hfn : ∀ c ∈ calls, c.fn ≠ 0) :
    ∃ t', calls.foldlM (fun t c => syscallRegister c.nr c.fn t) t = some t' ∧
      Holds t' (calls.reverse ++ done) := by
  induction calls generalizing t done with
  | nil => exact ⟨t, rfl, h⟩
  | cons c calls ih =>
    rw [length_cons] at hroom
    obtain ⟨t1, hreg, h1⟩ := h.register (by omega) (hfn c mem_cons_self)
    obtain ⟨t', hrun, h'⟩ := ih h1 (by rw [length_cons]; omega)
      fun c' hc' => hfn c' (mem_cons_of_mem c hc')
    refine ⟨t', ?_, by simpa using h'⟩
    rw [foldlM_cons, hreg]
    exact hrun

/-! ## Lookup -/

theorem Holds.lookup_none (h : Holds t calls) (hnr : ∀ c ∈ calls, c.nr ≠ nr) :
    syscallLookup nr t = 0 := by
  unfold syscallLookup
  split
  · rfl
  next i hfind =>
    by_contra hne
    have hstop := (find?_range_eq_some.mp hfind).1
    simp only [hne, false_or, decide_eq_true_eq] at hstop
    exact hnr _ (h.member _ hne) hstop

theorem Holds.lookup_eq (h : Holds t calls) (hnodup : (calls.map Entry.nr).Nodup) (hc : c ∈ calls) :
    syscallLookup c.nr t = c.fn := by
  obtain ⟨i, hi, heq, hbelow⟩ := h.found c hc
  unfold syscallLookup
  split
  next hfind =>
    simpa [heq] using find?_eq_none.mp hfind i (mem_range.mpr hi)
  next j hfind =>
    obtain ⟨hstop, -, hbefore⟩ := find?_range_eq_some.mp hfind
    have hle : j ≤ i := by
      by_contra hlt
      simpa [heq] using hbefore i (by omega)
    have hne := hbelow j hle
    simp only [hne, false_or, decide_eq_true_eq] at hstop
    rw [inj_on_of_nodup_map hnodup (h.member _ hne) hc hstop]

/-- After any registrations that fit into the table, with distinct numbers, each number has its
handler, and no other number has one. -/
theorem registered_lookup (calls : List Entry) (hlen : calls.length ≤ scTableSize)
    (hnodup : (calls.map Entry.nr).Nodup) (hfn : ∀ c ∈ calls, c.fn ≠ 0) :
    ∃ t, registerAll calls = some t ∧ (∀ c ∈ calls, syscallLookup c.nr t = c.fn) ∧
      ∀ nr, nr ∉ calls.map Entry.nr → syscallLookup nr t = 0 := by
  obtain ⟨t, hrun, h⟩ := holds_nil.registers (by simpa using hlen) hfn
  rw [append_nil] at h
  refine ⟨t, hrun, fun c hc => ?_, fun nr hnr => ?_⟩
  · exact h.lookup_eq (by simpa using hnodup) (mem_reverse.mpr hc)
  · refine h.lookup_none fun c hc heq => hnr ?_
    exact heq ▸ mem_map_of_mem (mem_reverse.mp hc)

/-- The numbers `-1` and `255` have the same first slot, the last one. -/
theorem registered_lookup_wraps : ∃ t, registerAll [⟨-1, 7⟩, ⟨255, 8⟩] = some t ∧
    syscallLookup (-1) t = 7 ∧ syscallLookup 255 t = 8 ∧ syscallLookup 0 t = 0 := by
  obtain ⟨t, hrun, hfound, hnone⟩ := registered_lookup [⟨-1, 7⟩, ⟨255, 8⟩] (by decide) (by decide)
    (by decide)
  exact ⟨t, hrun, hfound ⟨-1, 7⟩ (by decide), hfound ⟨255, 8⟩ (by decide), hnone 0 (by decide)⟩

end NoobKernel.Syscall
