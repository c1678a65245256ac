import MatchingEngine.Book.Book

/-!
# Commands

`include/engine/command.hpp`, and the dispatch of a command to the book as the replay
driver and the differential harness make it.
-/

namespace MatchingEngine

/-- What a command asks for. -/
inductive CommandKind where
  | limit
  | market
  | cancel
  | modify
deriving DecidableEq

/-- Which fields mean something depends on the kind. -/
structure Command where
  kind : CommandKind := .limit
  id : OrderId := 0
  side : Side := .buy
  tif : TimeInForce := .gtc
  price : Price := 0
  qty : Qty := 0
  account : Account := 0
deriving DecidableEq

/-- `limit_command`: add a limit order. -/
def limitCommand (id : OrderId) (side : Side) (price : Price) (qty : Qty) (account : Account)
    (tif : TimeInForce := .gtc) : Command :=
  { kind := .limit, id, side, tif, price, qty, account }

/-- `market_command`: add a market order. -/
def marketCommand (id : OrderId) (side : Side) (qty : Qty) (account : Account) : Command :=
  { kind := .market, id, side, qty, account }

/-- `cancel_command`: the fields that it does not use keep their defaults. -/
def cancelCommand (id : OrderId) : Command := { kind := .cancel, id }

/-- `modify_command`: a new price and a new quantity. -/
def modifyCommand (id : OrderId) (price : Price) (qty : Qty) : Command :=
  { kind := .modify, id, price, qty }

/-- What a command returns: the result of an add, or the flag of a cancel or modify. -/
inductive Reply where
  | added (result : AddResult)
  | flag (ok : Bool)
deriving DecidableEq

/-- Run one command on the book. -/
def Book.exec (b : Book) (c : Command) : Checked (Book × Reply) :=
  match c.kind with
  | .limit => do
    let (b, r) ← b.addLimitOrder {} c.id c.side c.price c.qty c.account c.tif
    return (b, .added r)
  | .market => do
    let (b, r) ← b.addMarketOrder {} c.id c.side c.qty c.account
    return (b, .added r)
  | .cancel => do
    let (b, ok) ← b.cancelOrder c.id
    return (b, .flag ok)
  | .modify => do
    let (b, ok) ← b.modifyOrder c.id c.price c.qty
    return (b, .flag ok)

end MatchingEngine
