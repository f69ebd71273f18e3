import Mathlib.Data.Nat.Notation

/-! # Results of kernel code

A computation returns a value or stops for good: it panics with a message, it
follows a pointer that designates no object, or it runs out of the fuel that bounds
its loops. -/

namespace NoobKernel.Library

/-- The ways in which a computation does not return. A panic carries its format
string and the numbers printed with it. -/
inductive Stop where
  | panic (format : String) (args : List ℕ)
  | wild
  | fuel
deriving DecidableEq, Repr

abbrev Outcome (α : Type*) := Except Stop α

namespace Outcome

universe u

variable {α β : Type u}

@[simp] theorem ok_bind (a : α) (f : α → Outcome β) : ((Except.ok a : Outcome α) >>= f) = f a := rfl

@[simp] theorem error_bind (e : Stop) (f : α → Outcome β) :
    ((Except.error e : Outcome α) >>= f) = Except.error e := rfl

theorem ok_mk_inj {ε : Type*} {a a' : α} {b b' : β} (h : (.ok (a, b) : Except ε _) = .ok (a', b')) :
    a = a' ∧ b = b' :=
  Prod.mk.inj (Except.ok.inj h)

theorem some_mk_inj {a a' : α} {b b' : β} (h : some (a, b) = some (a', b')) : a = a' ∧ b = b' :=
  Prod.mk.inj (Option.some.inj h)

/-- A composed computation returns only through a returned intermediate value. -/
theorem bind_eq_ok {ε : Type*} {x : Except ε α} {f : α → Except ε β} {b : β} :
    (x >>= f) = Except.ok b ↔ ∃ a, x = Except.ok a ∧ f a = Except.ok b := by
  cases x with
  | error e =>
    constructor
    · nofun
    · rintro ⟨a, h, -⟩
      cases h
  | ok a =>
    constructor
    · exact fun h => ⟨a, rfl, h⟩
    · rintro ⟨a', h, hf⟩
      cases h
      exact hf

theorem map_eq_ok {ε : Type*} {x : Except ε α} {f : α → β} {b : β} :
    (f <$> x) = Except.ok b ↔ ∃ a, x = Except.ok a ∧ f a = b := by
  rw [map_eq_pure_bind, bind_eq_ok]
  constructor
  · rintro ⟨a, h, hf⟩
    exact ⟨a, h, Except.ok.inj hf⟩
  · rintro ⟨a, h, rfl⟩
    exact ⟨a, h, rfl⟩

/-- A test of the value that a computation returns. -/
def checks (x : Outcome α) (P : α → Bool) : Bool :=
  match x with
  | .ok a => P a
  | .error _ => false

theorem exists_of_checks {x : Outcome α} {P : α → Bool} (h : x.checks P = true) :
    ∃ a, x = Except.ok a ∧ P a = true := by
  cases x with
  | error e => cases h
  | ok a => exact ⟨a, rfl, h⟩

theorem exists_of_decide {x : Outcome α} {P : α → Prop} [DecidablePred P]
    (h : x.checks (fun a => P a) = true) : ∃ a, x = Except.ok a ∧ P a := by
  obtain ⟨a, hx, ha⟩ := exists_of_checks h
  exact ⟨a, hx, of_decide_eq_true ha⟩

/-- A loop returns if its fuel is `enough`, and what it returns satisfies `P`. -/
structure Finishes (enough : Prop) (x : Outcome α) (P : α → Prop) : Prop where
  total : enough → ∃ r, x = Except.ok r
  spec : ∀ r, x = Except.ok r → P r

namespace Finishes

variable {enough enough' : Prop} {x : Outcome α} {P P' : α → Prop}

theorem ok {a : α} (h : P a) : Finishes enough (.ok a) P := by
  refine ⟨fun _ => ⟨a, rfl⟩, fun r hr => ?_⟩
  cases hr
  exact h

theorem fuel (h : ¬ enough) : Finishes enough (.error .fuel) P := ⟨fun he => absurd he h, nofun⟩

theorem mono (h : Finishes enough x P) (he : enough' → enough) (hP : ∀ r, P r → P' r) :
    Finishes enough' x P' :=
  ⟨fun he' => h.total (he he'), fun r hr => hP r (h.spec r hr)⟩

theorem map {f : α → β} {P' : β → Prop} (h : Finishes enough x P) (hP : ∀ r, P r → P' (f r)) :
    Finishes enough (x >>= fun r => .ok (f r)) P' := by
  refine ⟨fun he => ?_, fun r hr => ?_⟩
  · obtain ⟨r, hr⟩ := h.total he
    exact ⟨f r, by rw [hr, ok_bind]⟩
  · obtain ⟨a, ha, hr⟩ := bind_eq_ok.mp hr
    cases hr
    exact hP a (h.spec a ha)

end Finishes

end Outcome

end NoobKernel.Library
