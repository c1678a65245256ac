import MatchingEngine.Book.Command

/-!
# The workload generator

`bench/workload.hpp`: the baseline workload W1. The generator runs a book of its own, and
keeps beside it a shadow of what rests there, from which it picks the orders to cancel.

The two hash maps of the source are only looked up, never iterated, and are partial
functions here. Signed arithmetic is done in `ℤ`, and `inInt64` is the fault that a result
out of range would be.
-/

namespace MatchingEngine

namespace Bench

/-- `CmdKind`. -/
inductive CmdKind where
  | limit
  | cancel
deriving DecidableEq

/-- `Cmd`. -/
structure Cmd where
  kind : CmdKind := .limit
  side : Side := .buy
  id : OrderId := 0
  price : Price := 0
  qty : Qty := 0
  account : Account := 0
deriving DecidableEq

/-- `W1Params`, with the defaults of the workload. -/
structure W1Params where
  mid : Price := 100000
  maxOffset : UInt32 := 5000
  crossShift : UInt32 := 50
  cancelPercent : UInt32 := 30
  targetResting : UInt32 := 3000
  maxQty : Qty := 100

/-! ## Random numbers -/

/-- `Rng`. -/
structure Rng where
  state : UInt64

/-- `Rng::next`: splitmix64. -/
def Rng.next (rng : Rng) : UInt64 × Rng :=
  let state := rng.state + 0x9E3779B97F4A7C15
  let z := state
  let z := (z ^^^ (z >>> 30)) * 0xBF58476D1CE4E5B9
  let z := (z ^^^ (z >>> 27)) * 0x94D049BB133111EB
  (z ^^^ (z >>> 31), ⟨state⟩)

/-- `Rng::below`. The remainder by 0 is a fault. -/
def Rng.below (rng : Rng) (n : UInt64) : Checked (UInt64 × Rng) := do
  require (n ≠ 0) .divisionByZero
  let (z, rng) := rng.next
  return (z % n, rng)

/-! ## The Zipf table -/

/-- The loop of `zipf_cdf`, at rank `r`. The counter is unsigned and may wrap around. -/
def zipfCdfFrom (n : UInt32) : ℕ → UInt32 → UInt64 → List UInt64 → Checked (List UInt64)
  | 0, _, _, _ => throw .diverges
  | fuel + 1, r, sum, cdf =>
    if r ≤ n then do
      require (r ≠ 0) .divisionByZero
      let sum := sum + ((1 : UInt64) <<< 40) / r.toUInt64
      require ((r - 1).toNat < cdf.length) .outOfRange
      zipfCdfFrom n fuel (r + 1) sum (cdf.set (r - 1).toNat sum)
    else return cdf

/-- `zipf_cdf`: the cumulative weights of 1/rank over the ranks 1..n. -/
def zipfCdf (n : UInt32) : Checked (List UInt64) :=
  zipfCdfFrom n (n.toNat + 2) 1 0 (List.replicate n.toNat 0)

/-- `std::upper_bound`: the position of the first element above `value`, or the end. The
range must be partitioned there. -/
def upperBound (range : List UInt64) (value : UInt64) : Checked ℕ := do
  let pos := range.findIdx fun x => value < x
  require ((range.drop pos).all fun x => value < x) .callerGuarantee
  return pos

/-! ## The shadow of the book -/

/-- The ids that rest, without gaps, the position of each among them, and its quantity. -/
structure Shadow where
  live : List OrderId := []
  whereIdx : OrderId → Option ℕ := fun _ => none
  remaining : OrderId → Option Qty := fun _ => none

namespace Shadow

/-- `forget`: the last id takes the place of `id`. An id that `where` does not know is
looked for at position 0, as `operator[]` has it. -/
def forget (sh : Shadow) (id : OrderId) : Checked Shadow := do
  let i := (sh.whereIdx id).getD 0
  let last ← orFault sh.live.getLast? .outOfRange
  require (i < sh.live.length) .outOfRange
  return {
    live := (sh.live.set i last).dropLast
    whereIdx := Function.update (Function.update sh.whereIdx last (some i)) id none
    remaining := Function.update sh.remaining id none }

/-- The body of the loop over the trades. -/
def settle (sh : Shadow) (t : Trade) : Checked Shadow :=
  let left := (sh.remaining t.makerOrderId).getD 0 - t.qty
  let sh := { sh with remaining := Function.update sh.remaining t.makerOrderId (some left) }
  if left = 0 then sh.forget t.makerOrderId else return sh

/-- What `generate` notes of an order that rests. -/
def add (sh : Shadow) (id : OrderId) (restingQty : Qty) : Shadow where
  live := sh.live ++ [id]
  whereIdx := Function.update sh.whereIdx id (some sh.live.length)
  remaining := Function.update sh.remaining id (some restingQty)

end Shadow

/-! ## The generator -/

/-- Cancel probabilities are in parts per million. -/
def kPpm : UInt64 := 1000000

/-- The bound on the cancel probability, which keeps inserts flowing. -/
def kMaxCancelPpm : UInt64 := 900000

/-- The capacity of the generator's own book. -/
def kBookCapacity : Index := (1 : Index) <<< 16

/-- The variables that the loop of `generate` carries. -/
structure Generator where
  rng : Rng
  book : Book := Book.new kBookCapacity
  shadow : Shadow := {}
  out : List Cmd := []
  nextId : OrderId := 1

/-- A result of signed 64-bit arithmetic. -/
def inInt64 (n : ℤ) : Checked Int64 := do
  require (Int64.minValue.toInt ≤ n ∧ n ≤ Int64.maxValue.toInt) .overflow
  return Int64.ofInt n

/-- The cancel probability, in millionths: it grows with the number of live orders. -/
def cancelPpm (p : W1Params) (liveSize : ℕ) : Checked UInt64 := do
  require (p.targetResting ≠ 0) .divisionByZero
  return min kMaxCancelPpm (p.cancelPercent.toUInt64 * (kPpm / 100) * UInt64.ofNat liveSize /
    p.targetResting.toUInt64)

/-- Whether the next command is a cancel. No number is drawn if nothing is live. -/
def drawCancels (p : W1Params) (live : List OrderId) (rng : Rng) : Checked (Bool × Rng) := do
  let ppm ← cancelPpm p live.length
  if live.isEmpty then return (false, rng)
  else
    let (u, rng) ← rng.below kPpm
    return (u < ppm, rng)

/-- The distance from mid: a rank drawn from the Zipf table, less the shift. -/
def drawOffset (p : W1Params) (cdf : List UInt64) (rng : Rng) : Checked (Int64 × Rng) := do
  let (u, rng) ← rng.below (← orFault cdf.getLast? .outOfRange)
  let rank ← inInt64 ((← upperBound cdf u) + 1)
  return (← inInt64 (rank.toInt - p.crossShift.toNat), rng)

/-- Buys are below mid by the offset, sells above it. -/
def priceAt (p : W1Params) (side : Side) (offset : Int64) : Checked Price :=
  match side with
  | .buy => inInt64 (p.mid.toInt - offset.toInt)
  | .sell => inInt64 (p.mid.toInt + offset.toInt)

/-- The limit order that `generate` draws under the id `id`. -/
def drawLimit (p : W1Params) (cdf : List UInt64) (id : OrderId) (rng : Rng) :
    Checked (Cmd × Rng) := do
  let (coin, rng) ← rng.below 2
  let side : Side := if coin = 0 then .buy else .sell
  let (offset, rng) ← drawOffset p cdf rng
  let price ← priceAt p side offset
  let (q, rng) ← rng.below p.maxQty.toUInt64
  return ({ kind := .limit, side, id, price, qty := (q + 1).toUInt32, account := id.toUInt32 },
    rng)

namespace Generator

/-- The branch of `generate` that cancels a live order. -/
def cancel (g : Generator) : Checked Generator := do
  let (pick, rng) ← g.rng.below (UInt64.ofNat g.shadow.live.length)
  let id ← orFault g.shadow.live[pick.toNat]? .outOfRange
  let (book, _) ← g.book.cancelOrder id
  let shadow ← g.shadow.forget id
  return { g with rng, book, shadow, out := g.out ++ [{ kind := .cancel, id }] }

/-- The branch of `generate` that adds a limit order. -/
def limit (p : W1Params) (cdf : List UInt64) (g : Generator) : Checked Generator := do
  let (c, rng) ← drawLimit p cdf g.nextId g.rng
  let (book, r) ← g.book.addLimitOrder {} c.id c.side c.price c.qty c.account .gtc
  let shadow ← r.trades.foldlM Shadow.settle g.shadow
  let shadow := if r.restingQty > 0 then shadow.add c.id r.restingQty else shadow
  return { rng, book, shadow, out := g.out ++ [c], nextId := g.nextId + 1 }

/-- The body of the loop of `generate`. -/
def step (p : W1Params) (cdf : List UInt64) (g : Generator) : Checked Generator := do
  let (cancels, rng) ← drawCancels p g.shadow.live g.rng
  if cancels then cancel { g with rng } else limit p cdf { g with rng }

/-- The variables of `generate` after `n` rounds of its loop. -/
def after (p : W1Params) (cdf : List UInt64) (seed : UInt64) : ℕ → Checked Generator
  | 0 => return { rng := ⟨seed⟩ }
  | n + 1 => do (← after p cdf seed n).step p cdf

end Generator

/-- `generate`: a pure function of the parameters, the seed and the number of commands. -/
def generate (p : W1Params) (seed : UInt64) (ops : ℕ) : Checked (List Cmd) := do
  let cdf ← zipfCdf p.maxOffset
  let g ← Generator.after p cdf seed ops
  return g.out

/-- `apply` in `bench/runner.hpp`, with what the book returns for the command. -/
def apply (b : Book) (c : Cmd) : Checked (Book × Reply) :=
  match c.kind with
  | .cancel => do
    let (b, ok) ← b.cancelOrder c.id
    return (b, .flag ok)
  | .limit => do
    let (b, r) ← b.addLimitOrder {} c.id c.side c.price c.qty c.account .gtc
    return (b, .added r)

end Bench

end MatchingEngine
