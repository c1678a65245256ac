import MatchingEngine.Journal.Journal
import Mathlib.Data.Int.Notation

/-!
# Replay

`include/engine/replay.hpp`: a journal run into a fresh book, and everything that happened
written down as text.

A text is a list of characters. `line` formats into a buffer of 256 characters and appends as
many characters of the buffer as the formatted text has, which are more than the buffer holds
if the text is too long: the fault `Fault.outOfRange`.
-/

namespace MatchingEngine

namespace Replay

open Journal

/-- `std::string`. -/
abbrev Text := List Char

/-! ## Lines -/

/-- A piece of a format string: text as it stands, or a conversion with its argument. -/
inductive Piece where
  /-- Text between conversions, or the argument of `%s`. -/
  | text (s : String)
  /-- The argument of `%u`, `%llu` or `%zu`. -/
  | unsigned (n : ℕ)
  /-- The argument of `%d` or `%lld`. -/
  | signed (n : ℤ)

/-- How one conversion of the format prints. -/
def Piece.render : Piece → Text
  | .text s => s.toList
  | .unsigned n => Nat.toDigits 10 n
  | .signed (.ofNat n) => Nat.toDigits 10 n
  | .signed (.negSucc n) => '-' :: Nat.toDigits 10 (n + 1)

/-- A format string with its arguments: the pieces in a row. -/
def format (pieces : List Piece) : Text := (pieces.map Piece.render).flatten

/-- `line`: what `vsnprintf` leaves in the buffer is the text, cut off to leave room for the
terminator. -/
def line (out : Text) (pieces : List Piece) : Checked Text := do
  let buf := (format pieces).take 255 ++ [Char.ofNat 0]
  let n := (format pieces).length
  require (n ≤ 256) .outOfRange
  return out ++ buf.take n ++ [Char.ofNat 10]

/-! ## Running a command -/

/-- What a command did, as far as the log records it. -/
structure Outcome where
  ok : Bool := false
  restingQty : Qty := 0
  stpRejected : Bool := false
  poolExhausted : Bool := false
deriving DecidableEq

/-- `apply`: the trades an add made are left in the result, which has none after any other
command. -/
def apply (book : Book) (c : Command) (scratch : AddResult) :
    Checked (Book × AddResult × Outcome) :=
  match c.kind with
  | .limit => do
    let (book, scratch) ← book.addLimitOrder scratch c.id c.side c.price c.qty c.account c.tif
    return (book, scratch, ⟨scratch.accepted, scratch.restingQty, scratch.stpRejected,
      scratch.poolExhausted⟩)
  | .market => do
    let (book, scratch) ← book.addMarketOrder scratch c.id c.side c.qty c.account
    return (book, scratch, ⟨scratch.accepted, scratch.restingQty, scratch.stpRejected,
      scratch.poolExhausted⟩)
  | .cancel => do
    let scratch := scratch.reset
    let (book, ok) ← book.cancelOrder c.id
    return (book, scratch, { ok })
  | .modify => do
    let scratch := scratch.reset
    let (book, ok) ← book.modifyOrder c.id c.price c.qty
    return (book, scratch, { ok })

/-! ## The log -/

/-- How a side is printed. -/
def sideName (side : Side) : Piece := .text (if side = .buy then "buy" else "sell")

/-- How a time in force is printed. -/
def tifName (tif : TimeInForce) : Piece :=
  .text (if tif = .gtc then "gtc" else if tif = .ioc then "ioc" else "fok")

/-- A `bool` that is passed for `%d`. -/
def bit (b : Bool) : Piece := .signed (if b then 1 else 0)

/-- The line of a command. Its place in the journal counts from 0. -/
def commandLine (position : UInt64) (c : Command) (o : Outcome) : List Piece :=
  match c.kind with
  | .limit =>
    [.text "#", .unsigned position.toNat, .text " limit id=", .unsigned c.id.toNat,
      .text " side=", sideName c.side, .text " price=", .signed c.price.toInt,
      .text " qty=", .unsigned c.qty.toNat, .text " account=", .unsigned c.account.toNat,
      .text " tif=", tifName c.tif, .text " ok=", bit o.ok,
      .text " rest=", .unsigned o.restingQty.toNat, .text " stp=", bit o.stpRejected,
      .text " full=", bit o.poolExhausted]
  | .market =>
    [.text "#", .unsigned position.toNat, .text " market id=", .unsigned c.id.toNat,
      .text " side=", sideName c.side, .text " qty=", .unsigned c.qty.toNat,
      .text " account=", .unsigned c.account.toNat, .text " ok=", bit o.ok,
      .text " rest=", .unsigned o.restingQty.toNat, .text " stp=", bit o.stpRejected,
      .text " full=", bit o.poolExhausted]
  | .cancel =>
    [.text "#", .unsigned position.toNat, .text " cancel id=", .unsigned c.id.toNat,
      .text " ok=", bit o.ok]
  | .modify =>
    [.text "#", .unsigned position.toNat, .text " modify id=", .unsigned c.id.toNat,
      .text " price=", .signed c.price.toInt, .text " qty=", .unsigned c.qty.toNat,
      .text " ok=", bit o.ok]

/-- The line of one trade. -/
def tradeLine (t : Trade) : List Piece :=
  [.text "  trade seq=", .unsigned t.seqNo.toNat, .text " id=", .unsigned t.tradeId.toNat,
    .text " maker=", .unsigned t.makerOrderId.toNat, .text " taker=",
    .unsigned t.takerOrderId.toNat, .text " price=", .signed t.price.toInt,
    .text " qty=", .unsigned t.qty.toNat]

/-- `append_events`: one line for the command, then one for each trade it made. -/
def appendEvents (log : Text) (position : UInt64) (c : Command) (o : Outcome)
    (trades : List Trade) : Checked Text := do
  let log ← line log (commandLine position c o)
  trades.foldlM (fun log t => line log (tradeLine t)) log

/-! ## The book as text -/

/-- The line of one resting order. -/
def orderLine (o : RestingOrder) : List Piece :=
  [.text (if o.side = .buy then "bid" else "ask"), .text " price=", .signed o.price.toInt,
    .text " id=", .unsigned o.orderId.toNat, .text " qty=", .unsigned o.qty.toNat,
    .text " account=", .unsigned o.account.toNat, .text " seq=", .unsigned o.seqNo.toNat]

/-- The number of orders, which is a `size_t`. -/
def countLine (orders : List RestingOrder) : List Piece :=
  [.text "orders=", .unsigned (UInt64.ofNat orders.length).toNat]

/-- `serialize_book`. -/
def serializeBook (book : Book) : Checked Text := do
  let orders ← book.snapshot
  let out ← orders.foldlM (fun out o => line out (orderLine o)) []
  line out (countLine orders)

/-! ## Replaying -/

/-- `Replayed`. -/
structure Replayed where
  log : Text := []
  book : Text := []
  /-- How many commands replayed. -/
  commands : UInt64 := 0
  /-- Why reading stopped. -/
  stop : Status := .end
  /-- Where the good part of the journal ends. -/
  validBytes : ℕ := 0

/-- The loop of `replay`. It carries a bound, and the fault `Fault.diverges` if it runs out. -/
def replayFrom : ℕ → Reader → Book → AddResult → Command → Replayed →
    Checked (Reader × Book × Replayed)
  | 0, _, _, _, _, _ => throw .diverges
  | fuel + 1, reader, book, scratch, c, out => do
    let (reader, c, stop) ← reader.next c
    if stop = .ok then
      let (book, scratch, o) ← apply book c scratch
      let log ← appendEvents out.log out.commands c o scratch.trades
      replayFrom fuel reader book scratch c { out with stop, log, commands := out.commands + 1 }
    else return (reader, book, { out with stop })

/-- `replay`: false only if the header cannot be read. -/
def replay (data : List UInt8) : Checked (Bool × Replayed) := do
  let (reader, stop) ← (Reader.new data).openHeader
  if stop ≠ .ok then return (false, { stop })
  let (reader, book, out) ←
    replayFrom (data.length + 1) reader (Book.new reader.poolCapacity) {} {} { stop }
  let text ← serializeBook book
  return (true, { out with validBytes := reader.validBytes, book := text })

/-! ## The live run -/

/-- A run that logs its commands as it makes them. -/
structure Live where
  book : Book
  scratch : AddResult := {}
  log : Text := []
  commands : UInt64 := 0

/-- One command of the live run: it is applied and then written to the log. -/
def Live.step (l : Live) (c : Command) : Checked Live := do
  let (book, scratch, o) ← apply l.book c l.scratch
  let log ← appendEvents l.log l.commands c o scratch.trades
  return { book, scratch, log, commands := l.commands + 1 }

/-- The live run: commands applied as they come, with the log of what happened. -/
def live (capacity : Index) (cmds : List Command) : Checked Live :=
  cmds.foldlM Live.step { book := Book.new capacity }

end Replay

end MatchingEngine
