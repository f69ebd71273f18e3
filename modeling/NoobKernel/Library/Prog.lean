import Mathlib.Data.Nat.Notation

/-! # Programs of atomic operations

A program calls operations and goes on with their answers. Programs of several threads
interleave between operations, so a program is kept as the tree of what it may still do. The
conditions that a program needs are found backwards, from rules that say what each operation
requires and what it may do to the part of the state that belongs to the thread. -/

namespace NoobKernel.Library

inductive Prog (Op : Type) (Ans : Op → Type) (α : Type) where
  | ret (a : α)
  | call (op : Op) (rest : Ans op → Prog Op Ans α)

namespace Prog

variable {Op : Type} {Ans : Op → Type} {α β : Type}

def bind (x : Prog Op Ans α) (f : α → Prog Op Ans β) : Prog Op Ans β :=
  match x with
  | .ret a => f a
  | .call op rest => .call op (fun ans => (rest ans).bind f)

instance : Monad (Prog Op Ans) where
  pure := .ret
  bind := bind

/-- The program that calls one operation. -/
def perform (op : Op) : Prog Op Ans (Ans op) := .call op .ret

/-! ## Conditions -/

/-- What the operations require of the local state and what they do to it. -/
structure Rules (Op : Type) (Ans : Op → Type) (σ : Type) where
  ok : Op → σ → Prop
  step : (op : Op) → σ → Ans op → σ → Prop

variable {σ : Type} {R : Rules Op Ans σ} {P Q : α → σ → Prop} {s : σ}

/-- From the local state a program meets the requirements, and when it returns, `Q` holds. -/
def Wp (R : Rules Op Ans σ) : Prog Op Ans α → (α → σ → Prop) → σ → Prop
  | .ret a, Q, s => Q a s
  | .call op rest, Q, s => R.ok op s ∧ ∀ ans s', R.step op s ans s' → Wp R (rest ans) Q s'

theorem Wp.bind {x : Prog Op Ans α} {f : α → Prog Op Ans β} {Q : β → σ → Prop}
    (hx : Wp R x P s) (hf : ∀ a s, P a s → Wp R (f a) Q s) : Wp R (x >>= f) Q s := by
  induction x generalizing s with
  | ret a => exact hf a s hx
  | call op rest ih => exact ⟨hx.1, fun ans s' hs => ih ans (hx.2 ans s' hs)⟩

end Prog

end NoobKernel.Library
