import Mathlib.Tactic.Common
import Mathlib.Algebra.Ring.Nat

/-!
# Types of the engine

`include/engine/types.hpp`. Ids, prices and quantities keep the widths of the source;
an enumeration of the source is an inductive type.
-/

namespace MatchingEngine

/-- The id of an order, chosen by its sender. -/
abbrev OrderId := UInt64

/-- Integer ticks. -/
abbrev Price := Int64

/-- Integer lots. -/
abbrev Qty := UInt32

/-- Assigned by the core, one number for each command. -/
abbrev SeqNo := UInt64

/-- A slot of the pool. -/
abbrev Index := UInt32

/-- The account tag that self-trade prevention compares. -/
abbrev Account := UInt32

/-- The null index of the intrusive lists. -/
def kNilIndex : Index := 0xFFFFFFFF

/-- The side of the book that an order is for. -/
inductive Side where
  | buy
  | sell
deriving DecidableEq

/-- The side an order trades against. -/
def Side.opposite : Side → Side
  | .buy => .sell
  | .sell => .buy

@[simp] theorem Side.opposite_opposite (side : Side) : side.opposite.opposite = side := by
  cases side <;> rfl

theorem Side.opposite_ne (side : Side) : side.opposite ≠ side := by
  cases side <;> decide

/-- There are two sides. -/
theorem Side.eq_or_opposite (side side' : Side) : side' = side ∨ side' = side.opposite := by
  cases side <;> cases side' <;> decide

/-- A side that is not this one is the other one. -/
theorem Side.ne_iff {side side' : Side} : side' ≠ side ↔ side' = side.opposite := by
  cases side <;> cases side' <;> decide

/-- GTC rests any residual, IOC cancels it, FOK fills in full or not at all. -/
inductive TimeInForce where
  | gtc
  | ioc
  | fok
deriving DecidableEq

/-- An order in its slot, with the links to its neighbours in the level. -/
structure Order where
  price : Price := 0
  qty : Qty := 0
  nextIdx : Index := kNilIndex
  prevIdx : Index := kNilIndex
  side : Side := .buy
  orderId : OrderId := 0
  account : Account := 0
  seqNo : SeqNo := 0
deriving DecidableEq

end MatchingEngine
