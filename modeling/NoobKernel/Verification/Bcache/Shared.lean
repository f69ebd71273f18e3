import NoobKernel.Model.SharedBuf

/-! # Updates of a shared buffer

A process that finds the buffer invalid reads the block without the lock. If another process does
the same, the contents that are read last overwrite what was changed in between. -/

namespace NoobKernel.Bcache

open Function

variable {ι : Type*} [DecidableEq ι] {change : ι → Change} {s s' : State ι} {i j : ι}

/-- A process has found the buffer invalid and has not made it valid yet. -/
def Point.Reads (p : Point) : Prop := p = .reading ∨ p = .read

instance (p : Point) : Decidable p.Reads := inferInstanceAs (Decidable (_ ∨ _))

/-- A process that finds the buffer invalid is the only one that did. -/
def Alone (i : ι) (s : State ι) : Prop :=
  s.point i = .got → s.buf.valid = true ∨ ∀ j, ¬(s.point j).Reads

instance (i : Bool) (s : State Bool) : Decidable (Alone i s) :=
  inferInstanceAs (Decidable (_ → _))

def Point.stage : Point → ℕ
  | .start => 0 | .got => 1 | .reading => 2 | .read => 3 | .held => 4
  | .changed => 5 | .writing => 6 | .written => 7 | .done => 8

structure Inv (change : ι → Change) (s : State ι) : Prop where
  hashed : ∀ i, s.point i ≠ .start → s.hashed = true
  lock : ∀ i, s.lock = some i ↔ s.point i = .held ∨ s.point i = .changed
  reads : ∀ i j, (s.point i).Reads → (s.point j).Reads → i = j
  invalid : ∀ i, (s.point i).Reads → s.buf.valid = false
  valid : ∀ i, 4 ≤ (s.point i).stage → s.buf.valid = true
  data : ∀ i, 5 ≤ (s.point i).stage → ∀ k, (change i).Covers k → s.buf.data k = (change i).bytes k
  dev : ∀ i, 7 ≤ (s.point i).stage → ∀ k, (change i).Covers k → s.dev k = (change i).bytes k

omit [DecidableEq ι] in
theorem Inv.early (h : Inv change s) (hi : (s.point i).Reads) (j : ι) : (s.point j).stage < 4 := by
  by_contra hj
  have hvalid := h.valid j (by omega)
  rw [h.invalid i hi] at hvalid
  cases hvalid

theorem Inv.next (hdisj : ∀ i j k, (change i).Covers k → (change j).Covers k → i = j)
    (h : Inv change s) (hok : Alone i s)
    (hmay : s.point i = .reading ∨ s.point i = .writing ∨ s.lock = none ∨ s.lock = some i) :
    Inv change (next change i s) := by
  obtain ⟨hhashed, hlock, hreads, hinvalid, hvalid, hdata, hdev⟩ := h
  cases hp : s.point i <;> simp only [Bcache.next, hp]
  case got => split <;> constructor <;> grind [Point.Reads, Point.stage, update_apply, Alone]
  case held => constructor <;> grind [Point.Reads, Point.stage, update_apply, Change.apply]
  case changed =>
    rw [if_pos (hvalid i (by rw [hp]; decide))]
    constructor <;> grind [Point.Reads, Point.stage, update_apply]
  case done => exact ⟨hhashed, hlock, hreads, hinvalid, hvalid, hdata, hdev⟩
  -- A read overwrites the contents, but no process has changed them yet.
  all_goals constructor <;> grind [Point.Reads, Point.stage, update_apply]

theorem step_eq_some : step change i s = some s' ↔ (s.point i = .reading ∨ s.point i = .writing ∨
    s.lock = none ∨ s.lock = some i) ∧ next change i s = s' := by
  rw [step]
  split <;> simp_all

theorem Run.inv (hdisj : ∀ i j k, (change i).Covers k → (change j).Covers k → i = j)
    (h : Run change Alone s) : Inv change s := by
  induction h with
  | init dev buf hashed => constructor <;> simp [Point.Reads, Point.stage]
  | step i _ hok hstep ih =>
    obtain ⟨hmay, rfl⟩ := step_eq_some.mp hstep
    exact ih.next hdisj hok hmay

theorem Inv.stable (h : Inv change s) (hi : s.lock = some i) (hij : i ≠ j)
    (hstep : step change j s = some s') : s'.buf.data = s.buf.data := by
  obtain ⟨hmay, rfl⟩ := step_eq_some.mp hstep
  rcases hmay with hj | hj | hj | hj
  · have hearly := h.early (Or.inl hj) i
    rcases (h.lock i).mp hi with hp | hp <;> rw [hp] at hearly <;> exact absurd hearly (by decide)
  · simp only [Bcache.next, hj]
  · cases hi.symm.trans hj
  · exact absurd (Option.mem_unique hi hj) hij

/-- If no process finds the buffer invalid while another one is reading the block, the changes of
the processes that are done are on the device, and the contents do not change under the lock. -/
theorem no_lost_update (hdisj : ∀ i j k, (change i).Covers k → (change j).Covers k → i = j)
    (h : Run change Alone s) :
    (∀ i, s.point i = .done → ∀ k, (change i).Covers k → s.dev k = (change i).bytes k) ∧
      ∀ i j s', s.lock = some i → i ≠ j → step change j s = some s' → s'.buf.data = s.buf.data := by
  have hinv := h.inv hdisj
  refine ⟨fun i hi => hinv.dev i (by rw [hi]; decide), fun i j s' hi hij hstep => ?_⟩
  exact hinv.stable hi hij hstep

/-- Two processes that change one byte each. -/
def twoBytes (i : Bool) : Change := ⟨i.toNat, 1, fun _ => 1⟩

theorem disjoint_twoBytes (i j : Bool) (k : Fin blockSize) (hi : (twoBytes i).Covers k)
    (hj : (twoBytes j).Covers k) : i = j := by
  obtain ⟨hi, hi'⟩ := hi
  obtain ⟨hj, hj'⟩ := hj
  cases i <;> cases j <;> simp_all [twoBytes]

def blank : State Bool := ⟨fun _ => 0, ⟨fun _ => 0, 0, false, false⟩, false, none, fun _ => .start⟩

def schedule (ok : Bool → State Bool → Bool) : List Bool → State Bool → Option (State Bool)
  | [], s => some s
  | i :: rest, s => if ok i s then step twoBytes i s >>= schedule ok rest else none

theorem Run.schedule {Ok : Bool → State Bool → Prop} {ok : Bool → State Bool → Bool}
    (hok : ∀ i s, ok i s = true → Ok i s) {l : List Bool} {s s' : State Bool}
    (h : Run twoBytes Ok s) (hs : schedule ok l s = some s') : Run twoBytes Ok s' := by
  induction l generalizing s with
  | nil => exact Option.some.inj hs ▸ h
  | cons i rest ih =>
    rw [Bcache.schedule, Option.ite_none_right_eq_some] at hs
    obtain ⟨s1, hstep, hrest⟩ := Option.bind_eq_some_iff.mp hs.2
    exact ih (h.step i (hok i s hs.1) hstep) hrest

theorem no_lost_update_two : ∃ s, Run twoBytes Alone s ∧ (∀ i, s.point i = .done) ∧
    s.dev 0 = 1 ∧ s.dev 1 = 1 := by
  obtain ⟨s, hs, hdone⟩ : ∃ s, schedule (fun i s => decide (Alone i s))
      (List.replicate 8 false ++ List.replicate 6 true) blank = some s ∧
        ∀ i, s.point i = .done := ⟨_, rfl, by decide⟩
  have hrun := (Run.init _ _ _).schedule (fun _ _ h => of_decide_eq_true h) hs
  have hdev := (no_lost_update disjoint_twoBytes hrun).1
  exact ⟨s, hrun, hdone, hdev false (hdone false) 0 (by decide),
    hdev true (hdone true) 1 (by decide)⟩

/-- Both processes find the buffer invalid, and the second one reads the block after the first
one has changed the buffer. -/
theorem second_read_loses_update : ∃ s, Run twoBytes (fun _ _ => True) s ∧
    (∀ i, s.point i = .done) ∧ (twoBytes false).Covers 0 ∧ s.dev 0 ≠ (twoBytes false).bytes 0 := by
  obtain ⟨s, hs, hdone, hdev⟩ : ∃ s, schedule (fun _ _ => true) [false, false, true, true,
      false, false, false, false, true, false, false, true, true, true, true, true] blank = some s ∧
        (∀ i, s.point i = .done) ∧ s.dev 0 = 0 := ⟨_, rfl, by decide, by decide⟩
  refine ⟨s, (Run.init _ _ _).schedule (fun _ _ _ => trivial) hs, hdone, by decide, ?_⟩
  rw [hdev]
  decide

end NoobKernel.Bcache
