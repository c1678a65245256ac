import MatchingEngine.Diff.Stream
import MatchingEngine.Oracle.Oracle
import MatchingEngine.Replay.Replay

/-!
# The differential harness

`Pair` of `tests/support/diff.hpp`: the engine and the oracle side by side. A report is a text,
and the empty text says that they agreed.

A result is kept from one operation to the next, as in the source. `inactive` is what the
structural check of the book reads in slots that are free.
-/

namespace MatchingEngine

namespace Diff

open Replay (Text Piece format)

/-- `snprintf` into a buffer of `size` characters, the terminator among them. -/
def printed (size : ℕ) (pieces : List Piece) : Text := (format pieces).take (size - 1)

/-- The array `kinds` of `describe`. -/
def kindName : Kind → Piece
  | .limit => .text "limit"
  | .market => .text "market"
  | .cancel => .text "cancel"
  | .modify => .text "modify"

/-- The array `tifs` of `describe`. -/
def tifName : TimeInForce → Piece
  | .gtc => .text "GTC"
  | .ioc => .text "IOC"
  | .fok => .text "FOK"

/-- `describe`, in a buffer of 160 bytes. -/
def describe (op : Op) : Text :=
  printed 160
    [kindName op.kind, .text " id=", .unsigned op.id.toNat, .text " side=",
      .text (if op.side = .buy then "buy" else "sell"), .text " price=", .signed op.price.toInt,
      .text " qty=", .unsigned op.qty.toNat, .text " acct=", .unsigned op.account.toNat,
      .text " tif=", tifName op.tif]

/-! ## Counts -/

/-- Counts of the interesting paths taken. -/
structure Stats where
  ops : UInt64 := 0
  trades : UInt64 := 0
  stp : UInt64 := 0
  fokRejected : UInt64 := 0
  poolExhausted : UInt64 := 0
  modifyOk : UInt64 := 0
  cancelOk : UInt64 := 0
  invalidRejected : UInt64 := 0
  modifyCrossingRejected : UInt64 := 0
deriving DecidableEq

/-- `Stats::add`. -/
def Stats.add (s o : Stats) : Stats where
  ops := s.ops + o.ops
  trades := s.trades + o.trades
  stp := s.stp + o.stp
  fokRejected := s.fokRejected + o.fokRejected
  poolExhausted := s.poolExhausted + o.poolExhausted
  modifyOk := s.modifyOk + o.modifyOk
  cancelOk := s.cancelOk + o.cancelOk
  invalidRejected := s.invalidRejected + o.invalidRejected
  modifyCrossingRejected := s.modifyCrossingRejected + o.modifyCrossingRejected

/-- A `bool` that is added to a counter. -/
def bump (b : Bool) : UInt64 := if b then 1 else 0

/-- What `compare_add` counts before it compares. -/
def Stats.countAdd (s : Stats) (op : Op) (a : AddResult) : Stats :=
  { s with
    invalidRejected := s.invalidRejected + bump (!a.accepted)
    stp := s.stp + bump a.stpRejected
    poolExhausted := s.poolExhausted + bump a.poolExhausted
    fokRejected := s.fokRejected +
      bump (op.tif == .fok && op.kind == .limit && a.accepted && a.trades.isEmpty)
    trades := s.trades + UInt64.ofNat a.trades.length }

/-! ## Comparisons -/

/-- A boolean as a report shows it. -/
def boolName (b : Bool) : Piece := .text (if b then "true" else "false")

/-- The report of two different results. -/
def flag (what : String) (engine oracle : Bool) : Text :=
  format [.text what, .text " result engine=", boolName engine, .text " oracle=", boolName oracle]

/-- Two numbers that should be equal. -/
def counts (what : String) (engine oracle : ℕ) : Text :=
  format [.text what, .text " engine=", .unsigned engine, .text " oracle=", .unsigned oracle]

/-- The loops of `compare_add` and `check_state` over two lists of one length, from position `i`
on. -/
def compareFrom {α : Type} [DecidableEq α] (name : String) (pieces : α → List Piece) :
    ℕ → List α → List α → Text
  | i, x :: xs, y :: ys =>
    if x = y then compareFrom name pieces (i + 1) xs ys
    else printed 256 ([.text name, .unsigned i, .text "] engine"] ++ pieces x ++
      [.text " oracle"] ++ pieces y)
  | _, _, _ => []

/-- How a trade is printed in a report. -/
def tradePieces (t : Trade) : List Piece :=
  [.text "\x7bmaker=", .unsigned t.makerOrderId.toNat, .text " taker=",
    .unsigned t.takerOrderId.toNat, .text " px=", .signed t.price.toInt, .text " qty=",
    .unsigned t.qty.toNat, .text " tid=", .unsigned t.tradeId.toNat, .text " seq=",
    .unsigned t.seqNo.toNat, .text "\x7d"]

/-- The loop of `compare_add` over the trades. -/
def compareTrades : List Trade → List Trade → Text := compareFrom "trade[" tradePieces 0

/-- What `compare_add` compares. -/
def compareAdd (a b : AddResult) : Text :=
  if a.accepted ≠ b.accepted then flag "accepted" a.accepted b.accepted
  else if a.stpRejected ≠ b.stpRejected then flag "stp_rejected" a.stpRejected b.stpRejected
  else if a.poolExhausted ≠ b.poolExhausted then
    flag "pool_exhausted" a.poolExhausted b.poolExhausted
  else if a.restingQty ≠ b.restingQty then
    counts "resting_qty" a.restingQty.toNat b.restingQty.toNat
  else if a.trades.length ≠ b.trades.length then
    counts "trade count" a.trades.length b.trades.length
  else compareTrades a.trades b.trades

/-- How a resting order is printed in a report. -/
def orderPieces (o : RestingOrder) : List Piece :=
  [.text "\x7bid=", .unsigned o.orderId.toNat, .text " px=", .signed o.price.toInt,
    .text " qty=", .unsigned o.qty.toNat, .text " acct=", .unsigned o.account.toNat,
    .text " seq=", .unsigned o.seqNo.toNat, .text "\x7d"]

/-- The loop of `check_state` over the two snapshots. -/
def compareOrders : List RestingOrder → List RestingOrder → Text :=
  compareFrom "book[" orderPieces 0

/-! ## The pair -/

/-- `Pair`: the engine, the oracle, the counters, and the reused result. -/
structure Pair where
  book : Book
  ref : Oracle
  stats : Stats := {}
  result : AddResult := {}

namespace Pair

/-- The constructor: both at one capacity. -/
def new (capacity : Index) : Pair where
  book := Book.new capacity
  ref := Oracle.new capacity.toNat

/-- `apply`: run the operation on both, count, and compare what they return. -/
def apply (p : Pair) (op : Op) : Checked (Pair × Text) :=
  let stats := { p.stats with ops := p.stats.ops + 1 }
  match op.kind with
  | .limit => do
    let (book, a) ←
      p.book.addLimitOrder p.result op.id op.side op.price op.qty op.account op.tif
    let (ref, b) ← p.ref.addLimit op.id op.side op.price op.qty op.account op.tif
    return ({ book, ref, result := a, stats := stats.countAdd op a }, compareAdd a b)
  | .market => do
    let (book, a) ← p.book.addMarketOrder p.result op.id op.side op.qty op.account
    let (ref, b) ← p.ref.addMarket op.id op.side op.qty op.account
    return ({ book, ref, result := a, stats := stats.countAdd op a }, compareAdd a b)
  | .cancel => do
    let (book, a) ← p.book.cancelOrder op.id
    let (ref, b) := p.ref.cancel op.id
    let p := { p with book, ref, stats }
    if a ≠ b then return (p, flag "cancel" a b)
    return ({ p with stats := { stats with cancelOk := stats.cancelOk + bump a } }, [])
  | .modify => do
    let (book, a) ← p.book.modifyOrder op.id op.price op.qty
    let (ref, b) ← p.ref.modify op.id op.price op.qty
    let p := { p with book, ref, stats }
    if a ≠ b then return (p, flag "modify" a b)
    let crossing := !a && decide (op.qty > 0) && ref.has op.id
    return ({ p with stats := { stats with
      modifyOk := stats.modifyOk + bump a
      modifyCrossingRejected := stats.modifyCrossingRejected + bump crossing } }, [])

/-- `check_state`: structural invariants, then a full book comparison. -/
def checkState (inactive : Index → Order) (p : Pair) : Checked Text := do
  match ← p.book.invariantViolation inactive with
  | some v => return format [.text "invariant: ", .text v]
  | none =>
    let a ← p.book.snapshot
    let b := p.ref.snapshot
    if a.length ≠ b.length then return counts "resting order count" a.length b.length
    return compareOrders a b

end Pair

end Diff

end MatchingEngine
