import MatchingEngine.Book.Pool

/-!
# Price levels as intrusive lists

`include/engine/level.hpp`: the orders of one price, linked through their own slots.
-/

namespace MatchingEngine

/-- A price with the first and the last slot of its list, both nil when it is empty. -/
structure Level where
  price : Price := 0
  head : Index := kNilIndex
  tail : Index := kNilIndex
deriving DecidableEq

/-- `level_append`: link slot `orderIdx` behind the tail. -/
def levelAppend (level : Level) (pool : FixedPool Order) (orderIdx : Index) :
    Checked (Level × FixedPool Order) := do
  let pool ← pool.modify orderIdx fun order =>
    { order with prevIdx := level.tail, nextIdx := kNilIndex }
  if level.tail ≠ kNilIndex then
    let pool ← pool.modify level.tail fun last => { last with nextIdx := orderIdx }
    return ({ level with tail := orderIdx }, pool)
  else
    return ({ level with head := orderIdx, tail := orderIdx }, pool)

/-- The first half of `level_unlink`: what comes before the order, its predecessor or the
head of the level, now leads to `next`. -/
def bypassForward (level : Level) (pool : FixedPool Order) (prev next : Index) :
    Checked (Level × FixedPool Order) :=
  if prev ≠ kNilIndex then do
    return (level, ← pool.modify prev fun o => { o with nextIdx := next })
  else return ({ level with head := next }, pool)

/-- The second half of `level_unlink`: what comes after the order, its successor or the
tail of the level, now leads back to `prev`. -/
def bypassBackward (level : Level) (pool : FixedPool Order) (prev next : Index) :
    Checked (Level × FixedPool Order) :=
  if next ≠ kNilIndex then do
    return (level, ← pool.modify next fun o => { o with prevIdx := prev })
  else return ({ level with tail := prev }, pool)

/-- `level_unlink`: take slot `orderIdx` out of the list and reset its links. -/
def levelUnlink (level : Level) (pool : FixedPool Order) (orderIdx : Index) :
    Checked (Level × FixedPool Order) := do
  let order ← pool.unchecked orderIdx
  let prev := order.prevIdx
  let next := order.nextIdx
  let (level, pool) ← bypassForward level pool prev next
  let (level, pool) ← bypassBackward level pool prev next
  let pool ← pool.modify orderIdx fun o =>
    { o with prevIdx := kNilIndex, nextIdx := kNilIndex }
  return (level, pool)

end MatchingEngine
