import MatchingEngine.Book.Level

/-!
# One side's price levels

`include/engine/price_levels.hpp`: an array of levels sorted worst to best, of which the
first `count` are live. What lies behind them is left over from earlier operations.

A `Level&` or `Level*` of the source is a position in the array here.
-/

namespace MatchingEngine

/-- Which end of the price axis is best. -/
inductive Best where
  | high
  | low
deriving DecidableEq

/-- `PriceLevels::better`: `a` is a better price than `b`. -/
def Best.better (B : Best) (a b : Price) : Bool :=
  match B with
  | .high => a > b
  | .low => a < b

/-! ## The standard algorithms -/

/-- `std::lower_bound` on a range that is partitioned by `worse`: the position of the
first element that is not worse, or the end of the range. -/
def lowerBound {α : Type} (worse : α → Bool) (range : List α) : ℕ :=
  range.findIdx fun x => !worse x

/-- `std::copy_backward`: move `[first, last)` so that it ends at `dLast`. -/
def copyBackward {α : Type} (a : List α) (first last dLast : ℕ) : List α :=
  a.take (dLast - (last - first)) ++ (a.take last).drop first ++ a.drop dLast

/-- `std::copy`: move `[first, last)` so that it starts at `dFirst`. -/
def copyForward {α : Type} (a : List α) (first last dFirst : ℕ) : List α :=
  a.take dFirst ++ (a.take last).drop first ++ a.drop (dFirst + (last - first))

/-! ## The container -/

/-- `PriceLevels`: the array of `max_levels` elements and the number of live ones. -/
structure PriceLevels where
  levels : List Level
  count : ℕ
deriving DecidableEq

namespace PriceLevels

/-- The constructor: room for `maxLevels` levels, none of which is used. -/
def new (maxLevels : ℕ) : PriceLevels := ⟨List.replicate maxLevels {}, 0⟩

/-- `empty`: no level is used. -/
def empty (p : PriceLevels) : Bool := p.count == 0

/-- `size`: the number of levels that are used. -/
def size (p : PriceLevels) : ℕ := p.count

/-- The level at a position of the array. -/
def read (p : PriceLevels) (pos : ℕ) : Checked Level := orFault p.levels[pos]? .outOfRange

/-- A write through a reference to the level at `pos`. -/
def write (p : PriceLevels) (pos : ℕ) (level : Level) : PriceLevels :=
  { p with levels := p.levels.set pos level }

/-- `best`: the position of the last live level. -/
def best (p : PriceLevels) : Checked ℕ := do
  require (0 < p.count) .assertion
  return p.count - 1

/-- `pop_best`: the best level is the last one. -/
def popBest (p : PriceLevels) : Checked PriceLevels := do
  require (0 < p.count) .assertion
  return { p with count := p.count - 1 }

/-- `by_rank`: rank 0 is the best level. -/
def byRank (p : PriceLevels) (rank : ℕ) : Checked Level := do
  require (rank < p.count) .assertion
  p.read (p.count - 1 - rank)

/-- `lower`: the first position whose price is not worse than `price`. -/
def lower (B : Best) (p : PriceLevels) (price : Price) : ℕ :=
  lowerBound (fun l => B.better price l.price) (p.levels.take p.count)

/-- `at != end() && at->price == price`: the level at `pos` is live and has that price. -/
def isLevelAt (p : PriceLevels) (pos : ℕ) (price : Price) : Checked Bool :=
  if pos = p.count then return false
  else do return (← p.read pos).price == price

/-- `find`: the position of the level at `price`, if there is one. -/
def find (B : Best) (p : PriceLevels) (price : Price) : Checked (Option ℕ) := do
  let pos := p.lower B price
  if ← p.isLevelAt pos price then return some pos else return none

/-- `at`: the position of a level known to exist. -/
def atPrice (B : Best) (p : PriceLevels) (price : Price) : Checked ℕ := do
  orFault (← p.find B price) .assertion

/-- `get_or_insert`: the position of the level at `price`, which is created if needed. -/
def getOrInsert (B : Best) (p : PriceLevels) (price : Price) : Checked (PriceLevels × ℕ) := do
  let pos := p.lower B price
  if ← p.isLevelAt pos price then return (p, pos)
  require (p.count < p.levels.length) .assertion
  let shifted := copyBackward p.levels pos p.count (p.count + 1)
  return (⟨shifted.set pos ⟨price, kNilIndex, kNilIndex⟩, p.count + 1⟩, pos)

/-- `erase`: remove the level at `price`. -/
def erase (B : Best) (p : PriceLevels) (price : Price) : Checked PriceLevels := do
  let pos ← orFault (← p.find B price) .assertion
  return ⟨copyForward p.levels (pos + 1) p.count pos, p.count - 1⟩

end PriceLevels

end MatchingEngine
