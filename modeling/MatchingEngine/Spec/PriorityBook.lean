import MatchingEngine.Book.Command
import MatchingEngine.Library.Greedy
import MatchingEngine.Book.PriceLevelsTheorems

/-!
# What the book is for

An abstract order book that says what a command means without saying how it is carried out:
two lists of resting orders in priority order, and two counters. There are no slots, links,
handles, levels or hash tables.

* `sweep` matches greedily from the front of the opposite list, up to the price limit and
  the first order of the taker's own account.
* An order that rests is put behind everything at its price or better (`enqueue`).
* `gate` is how a fill-or-kill order sees the quantity it could take: the identity for what
  the rules ask for, a reduction modulo a power of two for a machine counter.
-/

namespace MatchingEngine

open PriorityList

/-! ## Quantities -/

/-- The smaller of two quantities, as a number. -/
theorem toNat_min (a b : Qty) : (min a b).toNat = min a.toNat b.toNat := by
  rcases UInt32.le_total a b with h | h
  · have hmin : min a b = a := if_pos h
    rw [hmin, Nat.min_eq_left (UInt32.le_iff_toNat_le.mp h)]
  · by_cases h' : a ≤ b
    · have hab : a = b := UInt32.le_antisymm h' h
      subst hab
      have hmin : min a a = a := if_pos h
      rw [hmin, Nat.min_self]
    · have hmin : min a b = b := if_neg h'
      rw [hmin, Nat.min_eq_right (UInt32.le_iff_toNat_le.mp h)]

theorem pos_iff_toNat (a : Qty) : a > 0 ↔ 0 < a.toNat := UInt32.lt_iff_toNat_lt

/-- A quantity that stays within the one of an order is not changed by the conversion. -/
theorem toNat_ofNat_qty {n : ℕ} {a : Qty} (h : n ≤ a.toNat) : (UInt32.ofNat n).toNat = n :=
  UInt32.toNat_ofNat_of_lt' (lt_of_le_of_lt h a.toNat_lt)

/-! ## Resting orders -/

namespace RestingOrder

/-- The quantity as a number without a bound. -/
def amount (o : RestingOrder) : ℕ := o.qty.toNat

/-- The order after `n` of its quantity were taken. -/
def reduce (o : RestingOrder) (n : ℕ) : RestingOrder := { o with qty := o.qty - UInt32.ofNat n }

/-- The priority of an order among the orders of a side: lower is better. -/
def rank (side : Side) (o : RestingOrder) : ℤ := side.best.rank o.price

/-- Sweep a queue of orders with the demand of a taker. The taker's own orders bar the way. -/
abbrev sweep (reach : RestingOrder → Bool) (taker : Account) (q : ℕ) (l : List RestingOrder) :
    Greedy.Outcome RestingOrder :=
  Greedy.sweep amount reduce reach (fun o => o.account == taker) q l

/-- What a sweep could take if its demand had no end. -/
abbrev available (reach : RestingOrder → Bool) (taker : Account) (l : List RestingOrder) : ℕ :=
  Greedy.total amount (Greedy.eligible reach (fun o => o.account == taker) l)

end RestingOrder

/-- A resting order at this price is within the limit of the taker. A market order has no
limit. -/
def reaches (taker : Side) (limit : Option Price) (resting : Price) : Bool :=
  match limit with
  | none => true
  | some limit =>
    match taker with
    | .buy => resting ≤ limit
    | .sell => resting ≥ limit

/-- The trades of a sweep, numbered from `tradeId` on. -/
def tradesOf (taker : OrderId) (seq : SeqNo) : UInt64 → List (RestingOrder × ℕ) → List Trade
  | _, [] => []
  | tradeId, (maker, n) :: taken =>
    { makerOrderId := maker.orderId, takerOrderId := taker, price := maker.price,
      qty := UInt32.ofNat n, tradeId, seqNo := seq } :: tradesOf taker seq (tradeId + 1) taken

/-! ## The book -/

/-- The abstract book: on each side the resting orders, best first. -/
structure PriorityBook where
  capacity : ℕ
  resting : Side → List RestingOrder
  nextSeq : SeqNo := 0
  nextTradeId : UInt64 := 0

namespace PriorityBook

/-- A book without orders. -/
def new (capacity : ℕ) : PriorityBook := { capacity, resting := fun _ => [] }

/-- All orders, bids first. -/
def orders (s : PriorityBook) : List RestingOrder := s.resting .buy ++ s.resting .sell

/-- The ids that rest. -/
def ids (s : PriorityBook) : List OrderId := s.orders.map (·.orderId)

/-- The book with other orders on one side. -/
def setSide (s : PriorityBook) (side : Side) (l : List RestingOrder) : PriorityBook :=
  { s with resting := Function.update s.resting side l }

/-- Sweep the side opposite to the taker with a demand of `q`. -/
def sweep (s : PriorityBook) (taker : Side) (limit : Option Price) (account : Account) (q : ℕ) :
    Greedy.Outcome RestingOrder :=
  RestingOrder.sweep (fun o => reaches taker limit o.price) account q (s.resting taker.opposite)

/-- What a sweep could take if its demand had no end. -/
def available (s : PriorityBook) (taker : Side) (limit : Option Price) (account : Account) : ℕ :=
  RestingOrder.available (fun o => reaches taker limit o.price) account
    (s.resting taker.opposite)

/-- The book after a sweep. -/
def afterSweep (s : PriorityBook) (taker : Side) (r : Greedy.Outcome RestingOrder) :
    PriorityBook :=
  { s.setSide taker.opposite r.queue with
    nextTradeId := s.nextTradeId + UInt64.ofNat r.taken.length }

/-- Put an order into its side, behind everything at its price or better. -/
def insert (s : PriorityBook) (o : RestingOrder) : PriorityBook :=
  s.setSide o.side (enqueue (RestingOrder.rank o.side) o (s.resting o.side))

/-- The book without an order. -/
def remove (s : PriorityBook) (o : RestingOrder) : PriorityBook :=
  s.setSide o.side ((s.resting o.side).filter fun o' => o'.orderId != o.orderId)

/-- Give a resting order another quantity in place. -/
def setQty (s : PriorityBook) (o : RestingOrder) (qty : Qty) : PriorityBook :=
  s.setSide o.side ((s.resting o.side).map fun o' =>
    if o'.orderId = o.orderId then { o' with qty } else o')

/-- The order of an id, if it rests. -/
def find (s : PriorityBook) (id : OrderId) : Option RestingOrder :=
  s.orders.find? fun o => o.orderId == id

/-- Every command takes the next sequence number. -/
def tick (s : PriorityBook) : PriorityBook := { s with nextSeq := s.nextSeq + 1 }

/-- The residual of a limit order rests if there is room. -/
def restResidual (s : PriorityBook) (o : RestingOrder) (r : AddResult) :
    PriorityBook × AddResult :=
  if s.orders.length < s.capacity then (s.insert o, { r with restingQty := o.qty })
  else (s, { r with poolExhausted := true })

/-- Add a limit order, with the counter of the fill-or-kill check as a parameter. -/
def addLimit (gate : ℕ → ℕ) (s : PriorityBook) (id : OrderId) (side : Side) (price : Price)
    (qty : Qty) (account : Account) (tif : TimeInForce) : PriorityBook × AddResult :=
  if qty = 0 ∨ id ∈ s.ids then (s.tick, {})
  else if tif = .fok ∧ gate (s.available side (some price) account) < qty.toNat then
    (s.tick, { accepted := true })
  else
    let r := s.sweep side (some price) account qty.toNat
    let result : AddResult :=
      { accepted := true, trades := tradesOf id s.nextSeq s.nextTradeId r.taken,
        stpRejected := r.stopped }
    if tif = .gtc ∧ r.stopped = false ∧ 0 < r.unmet then
      (s.tick.afterSweep side r).restResidual
        ⟨side, price, id, UInt32.ofNat r.unmet, account, s.nextSeq⟩ result
    else (s.tick.afterSweep side r, result)

/-- Add a market order, which never rests. -/
def addMarket (s : PriorityBook) (id : OrderId) (side : Side) (qty : Qty) (account : Account) :
    PriorityBook × AddResult :=
  if qty = 0 ∨ id ∈ s.ids then (s.tick, {})
  else
    let r := s.sweep side none account qty.toNat
    (s.tick.afterSweep side r,
      { accepted := true, trades := tradesOf id s.nextSeq s.nextTradeId r.taken,
        stpRejected := r.stopped })

/-- Take out the order of an id. -/
def cancel (s : PriorityBook) (id : OrderId) : PriorityBook × Bool :=
  match s.find id with
  | none => (s.tick, false)
  | some o => (s.tick.remove o, true)

/-- Some order of the opposite side is within the limit `price`. -/
def wouldTrade (s : PriorityBook) (side : Side) (price : Price) : Bool :=
  (s.resting side.opposite).any fun o => reaches side (some price) o.price

/-- Reduce the order of an id in place, or move it behind its price, unless it would trade. -/
def modify (s : PriorityBook) (id : OrderId) (newPrice : Price) (newQty : Qty) :
    PriorityBook × Bool :=
  if newQty = 0 then (s.tick, false)
  else
    match s.find id with
    | none => (s.tick, false)
    | some o =>
      if newPrice = o.price ∧ newQty ≤ o.qty then (s.tick.setQty o newQty, true)
      else if s.wouldTrade o.side newPrice then (s.tick, false)
      else
        ((s.tick.remove o).insert { o with price := newPrice, qty := newQty, seqNo := s.nextSeq },
          true)

/-- What a command means. -/
def exec (gate : ℕ → ℕ) (s : PriorityBook) (c : Command) : PriorityBook × Reply :=
  match c.kind with
  | .limit =>
    let (s, r) := s.addLimit gate c.id c.side c.price c.qty c.account c.tif
    (s, .added r)
  | .market =>
    let (s, r) := s.addMarket c.id c.side c.qty c.account
    (s, .added r)
  | .cancel =>
    let (s, ok) := s.cancel c.id
    (s, .flag ok)
  | .modify =>
    let (s, ok) := s.modify c.id c.price c.qty
    (s, .flag ok)

end PriorityBook

end MatchingEngine
