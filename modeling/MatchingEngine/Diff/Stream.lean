import MatchingEngine.Bench.Workload
import MatchingEngine.Journal.Journal

/-!
# The stream of the differential tests

`Generator` of `tests/support/diff.hpp`: a random stream of operations whose prices collide,
whose ids are sometimes reused, and whose cancels and modifies mostly name orders that were
issued a short time ago. `tests/support/command_stream.hpp` makes commands and journals of it.

`diff::Rng` is the same generator of numbers as `bench::Rng`, which stands for it. Positions
are of the type `size_t`, with 64 bits.
-/

namespace MatchingEngine

namespace Diff

open Bench (Rng)

/-- What an operation does. -/
inductive Kind where
  | limit
  | market
  | cancel
  | modify
deriving DecidableEq

/-- `Op`: an operation, with defaults in the fields its kind does not use. -/
structure Op where
  kind : Kind := .limit
  id : OrderId := 0
  side : Side := .buy
  price : Price := 0
  qty : Qty := 0
  account : Account := 0
  tif : TimeInForce := .gtc
deriving DecidableEq

/-! ## The generator -/

/-- `Generator`: the random numbers, the ids given out, and the price each was last asked for
at. -/
structure Generator where
  rng : Rng
  nextId : OrderId := 0
  issued : List OrderId := []
  price : List Price := []

namespace Generator

/-- `pick_price`: now and then anywhere in 80 to 120, mostly near 100. -/
def pickPrice (g : Generator) : Checked (Price × Generator) := do
  let (u, rng) ← g.rng.below 100
  if u < 5 then
    let (p, rng) ← rng.below 41
    return (80 + p.toInt64, { g with rng })
  else
    let (p, rng) ← rng.below 11
    return (95 + p.toInt64, { g with rng })

/-- `pick_known`: a position in `issued_`, or 0 if there is none. -/
def pickKnown (g : Generator) : Checked (UInt64 × Generator) := do
  if g.issued.isEmpty then return (0, g)
  let n := UInt64.ofNat g.issued.length
  let (u, rng) ← g.rng.below 100
  if u < 85 then
    let window := if n < 64 then n else 64
    let (w, rng) ← rng.below window
    return (n - 1 - w, { g with rng })
  else
    let (k, rng) ← rng.below n
    return (k, { g with rng })

/-- `issued_.empty() ? other : issued_[pick_known()]`. -/
def pickIssued (g : Generator) (other : OrderId) : Checked (OrderId × Generator) := do
  if g.issued.isEmpty then return (other, g)
  let (k, g) ← g.pickKnown
  return (← orFault g.issued[k.toNat]? .outOfRange, g)

/-- The last line of `fresh_or_reused`. -/
def fresh (g : Generator) : OrderId × Generator :=
  (g.nextId + 1, { g with nextId := g.nextId + 1 })

/-- `fresh_or_reused`. No number is drawn if no id was issued. -/
def freshOrReused (g : Generator) : Checked (OrderId × Generator) := do
  if g.issued.isEmpty then return g.fresh
  let (u, rng) ← g.rng.below 100
  let g := { g with rng }
  if u < 4 then
    let (k, g) ← g.pickKnown
    return (← orFault g.issued[k.toNat]? .outOfRange, g)
  else return g.fresh

/-- What `next_add` remembers of a fresh id. -/
def remember (g : Generator) (id : OrderId) (price : Price) : Generator :=
  { g with issued := g.issued ++ [id], price := g.price ++ [price] }

/-- A quantity from 1 to `n`. -/
def pickQty (g : Generator) (n : UInt64) : Checked (Qty × Generator) := do
  let (q, rng) ← g.rng.below n
  return (1 + q.toUInt32, { g with rng })

/-- The branch of `next` for limit and market orders. -/
def nextAdd (g : Generator) (op : Op) (r : UInt64) : Checked (Op × Generator) := do
  let kind : Kind := if r < 56 then .limit else .market
  let tif : TimeInForce := if r < 40 then .gtc else if r < 48 then .ioc else .fok
  let tif := if kind = .market then .ioc else tif
  let (id, g) ← g.freshOrReused
  let (price, g) ← g.pickPrice
  let (qty, g) ← g.pickQty 8
  return ({ op with kind, tif, id, price, qty }, g.remember id price)

/-- `next_cancel`. -/
def nextCancel (g : Generator) (op : Op) : Checked (Op × Generator) := do
  let (id, g) ← g.pickIssued 0
  return ({ op with kind := .cancel, id }, g)

/-- The price of a modify: sometimes the one that its order is known to have. -/
def modifyPrice (g : Generator) (k : UInt64) : Checked (Price × Generator) := do
  if g.issued.isEmpty then g.pickPrice
  else
    let (u, rng) ← g.rng.below 10
    let g := { g with rng }
    if u < 4 then return (← orFault g.price[k.toNat]? .outOfRange, g) else g.pickPrice

/-- `next_modify`. -/
def nextModify (g : Generator) (op : Op) : Checked (Op × Generator) := do
  let (k, g) ← g.pickKnown
  let id ← if g.issued.isEmpty then pure 0 else orFault g.issued[k.toNat]? .outOfRange
  let (price, g) ← g.modifyPrice k
  let (qty, g) ← g.pickQty 10
  let op := { op with kind := .modify, id, price, qty }
  if g.issued.isEmpty then return (op, g)
  require (k.toNat < g.price.length) .outOfRange
  return (op, { g with price := g.price.set k.toNat price })

/-- The branch of `next` for what must be refused, or may be a duplicate. -/
def nextInvalid (g : Generator) (op : Op) : Checked (Op × Generator) := do
  let (which, rng) ← g.rng.below 3
  let g := { g with rng }
  if which = 0 then
    let (id, g) ← g.freshOrReused
    let (price, g) ← g.pickPrice
    return ({ op with kind := .limit, id, price, qty := 0 }, g)
  else if which = 1 then
    let (id, g) ← g.pickIssued 0
    let (price, g) ← g.pickPrice
    return ({ op with kind := .modify, id, price, qty := 0 }, g)
  else
    let (id, g) ← g.pickIssued 1
    let (price, g) ← g.pickPrice
    let (qty, g) ← g.pickQty 8
    return ({ op with kind := .limit, id, price, qty }, g)

/-- The branches of `next`, chosen by a number below 100. -/
def dispatch (g : Generator) (op : Op) (r : UInt64) : Checked (Op × Generator) :=
  if r < 62 then g.nextAdd op r
  else if r < 79 then g.nextCancel op
  else if r < 97 then g.nextModify op
  else g.nextInvalid op

/-- `next`: account, side and kind are drawn first. -/
def next (g : Generator) : Checked (Op × Generator) := do
  let (a, rng) ← g.rng.below 4
  let account := 1 + a.toUInt32
  let (coin, rng) ← rng.below 2
  let side : Side := if coin ≠ 0 then .buy else .sell
  let (r, rng) ← rng.below 100
  dispatch { g with rng } { account, side } r

/-- The next `n` operations. -/
def draw : ℕ → Generator → Checked (List Op × Generator)
  | 0, g => return ([], g)
  | n + 1, g => do
    let (op, g) ← g.next
    let (ops, g) ← g.draw n
    return (op :: ops, g)

/-- The constructor. -/
def new (seed : UInt64) : Generator := { rng := ⟨seed⟩ }

end Generator

/-! ## Commands and journals -/

/-- `to_command`: the fields that the kind does not use stay at their defaults. -/
def toCommand (op : Op) : Command :=
  match op.kind with
  | .limit => limitCommand op.id op.side op.price op.qty op.account op.tif
  | .market => marketCommand op.id op.side op.qty op.account
  | .cancel => cancelCommand op.id
  | .modify => modifyCommand op.id op.price op.qty

/-- `make`: the first `n` commands of the stream of a seed. -/
def make (seed : UInt64) (n : UInt64) : Checked (List Command) := do
  let (ops, _) ← (Generator.new seed).draw n.toNat
  return ops.map toCommand

end Diff

end MatchingEngine
