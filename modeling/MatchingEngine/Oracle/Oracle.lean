import MatchingEngine.Book.Command

/-!
# The reference implementation

`tests/support/oracle.hpp`: one flat vector of resting orders, in which every question is
answered by a scan.

The `Trade`, `Resting` and `Result` of the source have the fields of the engine's `Trade`,
`RestingOrder` and `AddResult`, which stand for them here. The matching loop carries a bound,
and the fault `Fault.diverges` if it runs out.
-/

namespace MatchingEngine

/-- `Oracle`: the resting orders in one vector, in the order they came to rest. -/
structure Oracle where
  capacity : ℕ
  orders : List RestingOrder
  nextSeq : SeqNo := 0
  nextTradeId : UInt64 := 0

namespace Oracle

/-- The constructor. -/
def new (capacity : ℕ) : Oracle := { capacity, orders := [] }

/-- `find`: the first position with this id, where the source has `npos` for none. -/
def find (r : Oracle) (id : OrderId) : Option ℕ := r.orders.findIdx? fun o => o.orderId == id

/-- Whether an order of that id rests. -/
def has (r : Oracle) (id : OrderId) : Bool := (r.find id).isSome

/-- `crosses`: whether a resting price meets the taker's limit. -/
def crosses (taker : Side) (resting limit : Price) : Bool :=
  match taker with
  | .buy => resting ≤ limit
  | .sell => resting ≥ limit

/-- Price priority for a resting order against the given taker side, then time priority. -/
def better (taker : Side) (a b : RestingOrder) : Bool :=
  if a.price ≠ b.price then
    match taker with
    | .buy => a.price < b.price
    | .sell => a.price > b.price
  else a.seqNo < b.seqNo

/-- One round of the loop of `best_opposite`. The best order so far comes with its position. -/
def bestRound (taker : Side) (hasLimit : Bool) (limit : Price) (i : ℕ) (o : RestingOrder)
    (best : Option (ℕ × RestingOrder)) : Option (ℕ × RestingOrder) :=
  if o.side = taker then best
  else if hasLimit && !crosses taker o.price limit then best
  else
    match best with
    | none => some (i, o)
    | some (j, b) => if better taker o b then some (i, o) else some (j, b)

/-- The loop of `best_opposite`, from position `i` on. -/
def bestFrom (taker : Side) (hasLimit : Bool) (limit : Price) :
    List RestingOrder → ℕ → Option (ℕ × RestingOrder) → Option (ℕ × RestingOrder)
  | [], _, best => best
  | o :: l, i, best =>
    bestFrom taker hasLimit limit l (i + 1) (bestRound taker hasLimit limit i o best)

/-- `best_opposite`: the index of the best candidate, with the order. -/
def bestOpposite (orders : List RestingOrder) (taker : Side) (hasLimit : Bool) (limit : Price) :
    Option (ℕ × RestingOrder) := bestFrom taker hasLimit limit orders 0 none

/-- The summing loop of `fillable_before_self_trade`. -/
def sumBeforeOwn (account : Account) : UInt64 → List RestingOrder → UInt64
  | total, [] => total
  | total, o :: l =>
    if o.account = account then total else sumBeforeOwn account (total + o.qty.toUInt64) l

/-- `fillable_before_self_trade`. The keys of `std::sort` are all different here, so any
sorting algorithm gives the same. -/
def fillableBeforeSelfTrade (r : Oracle) (taker : Side) (limit : Price) (account : Account) :
    UInt64 :=
  let candidates := r.orders.filter fun o => o.side != taker && crosses taker o.price limit
  sumBeforeOwn account 0 (candidates.mergeSort fun a b => !better taker b a)

/-- What the matching loop of `submit` works on. -/
structure Matching where
  orders : List RestingOrder
  nextTradeId : UInt64
  qty : Qty
  trades : List Trade
  stpRejected : Bool

/-- The matching loop of `submit`. -/
def matchLoop (id : OrderId) (taker : Side) (hasLimit : Bool) (limit : Price)
    (account : Account) (seq : SeqNo) : ℕ → Matching → Checked Matching
  | 0, _ => throw .diverges
  | fuel + 1, w =>
    if w.qty > 0 then
      match bestOpposite w.orders taker hasLimit limit with
      | none => return w
      | some (m, o) =>
        if o.account = account then return { w with stpRejected := true }
        else
          let fill := min w.qty o.qty
          let trade : Trade :=
            { makerOrderId := o.orderId, takerOrderId := id, price := o.price, qty := fill,
              tradeId := w.nextTradeId, seqNo := seq }
          let orders := w.orders.set m { o with qty := o.qty - fill }
          let orders := if o.qty - fill = 0 then orders.eraseIdx m else orders
          matchLoop id taker hasLimit limit account seq fuel
            { w with
              orders, nextTradeId := w.nextTradeId + 1, qty := w.qty - fill
              trades := w.trades ++ [trade] }
    else return w

/-- `submit`: limit and market orders alike; the fill-or-kill total is added in 64 bits. -/
def submit (r : Oracle) (id : OrderId) (side : Side) (hasLimit : Bool) (limit : Price)
    (qty : Qty) (account : Account) (tif : TimeInForce) : Checked (Oracle × AddResult) := do
  let seq := r.nextSeq
  let r := { r with nextSeq := r.nextSeq + 1 }
  if qty = 0 ∨ (r.find id).isSome then return (r, {})
  if tif = .fok ∧ r.fillableBeforeSelfTrade side limit account < qty.toUInt64 then
    return (r, { accepted := true })
  let w ← matchLoop id side hasLimit limit account seq (r.orders.length + 2)
    ⟨r.orders, r.nextTradeId, qty, [], false⟩
  let r := { r with orders := w.orders, nextTradeId := w.nextTradeId }
  let result : AddResult := { accepted := true, trades := w.trades, stpRejected := w.stpRejected }
  if tif = .gtc ∧ hasLimit ∧ !w.stpRejected ∧ w.qty > 0 then
    if r.orders.length ≥ r.capacity then return (r, { result with poolExhausted := true })
    else
      return ({ r with orders := r.orders ++ [⟨side, limit, id, w.qty, account, seq⟩] },
        { result with restingQty := w.qty })
  else return (r, result)

/-- `add_limit`. -/
def addLimit (r : Oracle) (id : OrderId) (side : Side) (price : Price) (qty : Qty)
    (account : Account) (tif : TimeInForce) : Checked (Oracle × AddResult) :=
  r.submit id side true price qty account tif

/-- `add_market`: no limit, and nothing rests. -/
def addMarket (r : Oracle) (id : OrderId) (side : Side) (qty : Qty) (account : Account) :
    Checked (Oracle × AddResult) :=
  r.submit id side false 0 qty account .ioc

/-- `cancel`. -/
def cancel (r : Oracle) (id : OrderId) : Oracle × Bool :=
  let r := { r with nextSeq := r.nextSeq + 1 }
  match r.find id with
  | none => (r, false)
  | some i => ({ r with orders := r.orders.eraseIdx i }, true)

/-- `modify`: in place if only the quantity falls, else moved behind its price, or refused if it
would trade. -/
def modify (r : Oracle) (id : OrderId) (newPrice : Price) (newQty : Qty) :
    Checked (Oracle × Bool) := do
  let seq := r.nextSeq
  let r := { r with nextSeq := r.nextSeq + 1 }
  if newQty = 0 then return (r, false)
  match r.find id with
  | none => return (r, false)
  | some i =>
    let o ← orFault r.orders[i]? .outOfRange
    if newPrice = o.price ∧ newQty ≤ o.qty then
      return ({ r with orders := r.orders.set i { o with qty := newQty } }, true)
    if (bestOpposite r.orders o.side true newPrice).isSome then return (r, false)
    let moved := { o with price := newPrice, qty := newQty, seqNo := seq }
    return ({ r with orders := r.orders.set i moved }, true)

/-- The comparison of `snapshot`: bids best-first, then asks best-first, FIFO within a price. -/
def shownBefore (a b : RestingOrder) : Bool :=
  if a.side ≠ b.side then a.side == .buy
  else if a.price ≠ b.price then
    match a.side with
    | .buy => a.price > b.price
    | .sell => a.price < b.price
  else a.seqNo < b.seqNo

/-- `snapshot`. The keys of `std::sort` are all different here. -/
def snapshot (r : Oracle) : List RestingOrder :=
  r.orders.mergeSort fun a b => !shownBefore b a

/-- The dispatch of a command to the oracle. -/
def exec (r : Oracle) (c : Command) : Checked (Oracle × Reply) :=
  match c.kind with
  | .limit => do
    let (r, result) ← r.addLimit c.id c.side c.price c.qty c.account c.tif
    return (r, .added result)
  | .market => do
    let (r, result) ← r.addMarket c.id c.side c.qty c.account
    return (r, .added result)
  | .cancel =>
    let (r, ok) := r.cancel c.id
    return (r, .flag ok)
  | .modify => do
    let (r, ok) ← r.modify c.id c.price c.qty
    return (r, .flag ok)

end Oracle

end MatchingEngine
