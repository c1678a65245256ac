import Mathlib.Tactic.Common

/-!
# Checked execution

A C++ function that reads arrays by index, asserts and loops has outcomes that its
result type does not show. `Checked` makes them visible: a computation either returns,
or stops with the `Fault` a real execution would have run into. A theorem that a
`Checked` computation is `.ok` therefore says at once that it terminates, that every
access it made was legal and that every assertion held.
-/

namespace MatchingEngine

/-- What a run of the program must never do. -/
inductive Fault where
  /-- An `assert` failed. -/
  | assertion
  /-- An array was read or written at or beyond its size. -/
  | outOfRange
  /-- The inactive member of a union was accessed. -/
  | inactiveMember
  /-- A null pointer was dereferenced. -/
  | nullPointer
  /-- A guarantee that a function's comment asks of its caller was broken. -/
  | callerGuarantee
  /-- A loop used up its bound: the loop of the source would not end. -/
  | diverges
  /-- An integer was divided by zero. -/
  | divisionByZero
  /-- The result of a signed operation was out of the range of its type. -/
  | overflow
deriving DecidableEq

/-- A computation that returns a value or runs into a fault. -/
abbrev Checked (α : Type) := Except Fault α

/-- Go on if `p` holds, stop with `f` otherwise. -/
def require (p : Prop) [Decidable p] (f : Fault) : Checked Unit :=
  if p then pure () else throw f

/-- Turn a missing array element into a fault. -/
def orFault {α : Type} (x : Option α) (f : Fault) : Checked α :=
  match x with
  | some v => pure v
  | none => throw f

/-- A check that holds lets the computation go on. -/
@[simp] theorem require_of {p : Prop} [Decidable p] (h : p) (f : Fault) :
    require p f = .ok () := if_pos h

/-- A check that passed held. -/
theorem of_require {p : Prop} [Decidable p] {f : Fault} {u : Unit}
    (h : require p f = .ok u) : p := by
  by_contra hp
  rw [require, if_neg hp] at h
  cases h

@[simp] theorem orFault_some {α : Type} (v : α) (f : Fault) :
    orFault (some v) f = .ok v := rfl

/-- What follows a success runs on its value. -/
@[simp] theorem ok_bind {ε α β : Type} (v : α) (k : α → Except ε β) :
    ((Except.ok v : Except ε α) >>= k) = k v := rfl

@[simp] theorem pure_eq_ok {ε α : Type} (v : α) : (pure v : Except ε α) = .ok v := rfl

/-- A bind that returned did so through both of its parts. -/
theorem bind_eq_ok {ε α β : Type} {x : Except ε α} {k : α → Except ε β} {r : β} :
    (x >>= k) = .ok r ↔ ∃ v, x = .ok v ∧ k v = .ok r := by
  cases x with
  | error e => simp [bind, Except.bind]
  | ok v => simp [bind, Except.bind]

end MatchingEngine
