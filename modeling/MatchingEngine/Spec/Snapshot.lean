import MatchingEngine.Spec.PriorityBookTheorems
import Mathlib.Data.List.TakeWhile

/-!
# The rules in terms of the snapshot

What an order may trade with, and what is left of the other side, read off the list of
resting orders that the book shows. Nothing here is about books.

* `inReach` are the orders a taker can reach, in priority order.
* `beforeOwn` cuts a list at the first order of the taker's own account.
* `fillable` is what a taker could take, as a number without a bound.
* `removeTrades` takes the quantities of a list of trades out of the orders they name.
-/

namespace MatchingEngine

/-- The orders of one side, as a snapshot lists them. -/
def ofSide (side : Side) (l : List RestingOrder) : List RestingOrder :=
  l.filter fun o => o.side == side

/-- The orders a taker may match: the other side's, up to its limit. -/
def inReach (taker : Side) (limit : Option Price) (l : List RestingOrder) : List RestingOrder :=
  (ofSide taker.opposite l).filter fun o => reaches taker limit o.price

/-- The orders that come before the first one of the taker's own account. -/
def beforeOwn (account : Account) (l : List RestingOrder) : List RestingOrder :=
  l.takeWhile fun o => o.account != account

/-- The quantity a taker can get before it meets an order of its own. -/
def fillable (taker : Side) (limit : Option Price) (account : Account) (l : List RestingOrder) :
    ℕ := Greedy.total RestingOrder.amount (beforeOwn account (inReach taker limit l))

/-- The quantity of a list of trades. -/
def volume (trades : List Trade) : ℕ := (trades.map fun t => t.qty.toNat).sum

/-- The quantity that a list of trades takes from one maker. -/
def tradedBy (maker : OrderId) (trades : List Trade) : ℕ :=
  volume (trades.filter fun t => t.makerOrderId = maker)

/-- What the trades leave of a snapshot: each maker reduced by what it traded, and dropped when
nothing is left. -/
def removeTrades (trades : List Trade) (l : List RestingOrder) : List RestingOrder :=
  l.filterMap fun o =>
    if tradedBy o.orderId trades = o.amount then none
    else some (o.reduce (tradedBy o.orderId trades))

/-- Greedy matching by price and time, up to the taker's own first order: from the resting
orders `l` to `l'`, for a taker of `q`. -/
structure GreedyMatch (taker : Side) (limit : Option Price) (account : Account) (q : Qty)
    (id : OrderId) (seq : SeqNo) (tradeId : UInt64) (l l' : List RestingOrder) (r : AddResult) :
    Prop where
  trades : r.trades = tradesOf id seq tradeId
    (Greedy.takes RestingOrder.amount q.toNat (beforeOwn account (inReach taker limit l)))
  others : ofSide taker.opposite l' = removeTrades r.trades (ofSide taker.opposite l)
  stopped : r.stpRejected = true ↔ volume r.trades < q.toNat ∧
    ∃ o, (inReach taker limit l)[r.trades.length]? = some o ∧ o.account = account

/-! ## Trades -/

section Trades

variable {taker id : OrderId} {seq : SeqNo} {tradeId : UInt64} {taken : List (RestingOrder × ℕ)}

@[simp] theorem length_tradesOf : (tradesOf id seq tradeId taken).length = taken.length := by
  induction taken generalizing tradeId with
  | nil => rfl
  | cons t taken ih => rw [tradesOf, List.length_cons, List.length_cons, ih]

theorem volume_cons (t : Trade) (trades : List Trade) :
    volume (t :: trades) = t.qty.toNat + volume trades := by
  rw [volume, List.map_cons, List.sum_cons]
  rfl

/-- No trade takes more than a quantity can hold. -/
theorem volume_tradesOf (h : ∀ t ∈ taken, t.2 ≤ t.1.amount) :
    volume (tradesOf id seq tradeId taken) = (taken.map Prod.snd).sum := by
  induction taken generalizing tradeId with
  | nil => rfl
  | cons t taken ih =>
    obtain ⟨ht, hl⟩ := List.forall_mem_cons.mp h
    rw [tradesOf, volume_cons, ih hl, toNat_ofNat_qty ht, List.map_cons, List.sum_cons]

/-- What one maker traded is what the sweep took from it. -/
theorem tradedBy_tradesOf (h : ∀ t ∈ taken, t.2 ≤ t.1.amount) (maker : OrderId) :
    tradedBy maker (tradesOf id seq tradeId taken) =
      Greedy.takenFrom (·.orderId) taken maker := by
  induction taken generalizing tradeId with
  | nil => rfl
  | cons t taken ih =>
    obtain ⟨o, n⟩ := t
    obtain ⟨ht, hl⟩ := List.forall_mem_cons.mp h
    rw [tradesOf, tradedBy]
    by_cases hm : o.orderId = maker
    · rw [List.filter_cons_of_pos (by simpa using hm), volume_cons, toNat_ofNat_qty ht, ← tradedBy,
        ih hl, ← hm, Greedy.takenFrom_cons_self]
    · rw [List.filter_cons_of_neg (by simpa using hm), ← tradedBy, ih hl,
        Greedy.takenFrom_cons_of_ne hm]

end Trades

namespace PriorityBook

variable {s : PriorityBook} {side taker : Side} {limit : Option Price} {account : Account}

/-! ## The snapshot of an abstract book -/

/-- The snapshot's orders of one side are that side's queue. -/
theorem ofSide_orders (h : s.Ok) (side : Side) : ofSide side s.orders = s.resting side := by
  have hall : ∀ side', ofSide side (s.resting side') =
      if side' = side then s.resting side' else [] := by
    intro side'
    split
    · next he =>
      exact List.filter_eq_self.mpr fun o ho => by simp [h.side side' o ho, he]
    · next he =>
      exact List.filter_eq_nil_iff.mpr fun o ho => by simp [h.side side' o ho, he]
  rw [orders, ofSide, List.filter_append]
  show ofSide side _ ++ ofSide side _ = _
  rw [hall, hall]
  cases side <;> simp

/-- On a sorted side, the orders in reach are the front of the queue. -/
theorem inReach_orders (h : s.Ok) (taker : Side) (limit : Option Price) :
    inReach taker limit s.orders =
      (s.resting taker.opposite).takeWhile fun o => reaches taker limit o.price := by
  rw [inReach, ofSide_orders h]
  cases limit with
  | none =>
    show List.filter (fun _ => true) _ = List.takeWhile (fun _ => true) _
    rw [List.filter_eq_self.mpr fun _ _ => rfl, List.takeWhile_eq_self_iff.mpr fun _ _ => rfl]
  | some limit =>
    have hreach : (fun o : RestingOrder => reaches taker (some limit) o.price) = fun o =>
        decide (RestingOrder.rank taker.opposite o ≤ taker.opposite.best.rank limit) := by
      funext o
      rw [Bool.eq_iff_iff, reaches_iff, decide_eq_true_iff, RestingOrder.rank]
    rw [hreach]
    exact PriorityList.filter_le (h.sorted taker.opposite) _

/-- The orders the sweep may fill are those a reader of the snapshot would pick out. -/
theorem eligible_eq (h : s.Ok) (taker : Side) (limit : Option Price) (account : Account) :
    Greedy.eligible (fun o => reaches taker limit o.price) (fun o => o.account == account)
      (s.resting taker.opposite) = beforeOwn account (inReach taker limit s.orders) := by
  rw [inReach_orders h]
  rfl

/-- The quantity available is computed from the snapshot alone. -/
theorem available_eq (h : s.Ok) (taker : Side) (limit : Option Price) (account : Account) :
    s.available taker limit account = fillable taker limit account s.orders := by
  rw [available, RestingOrder.available, eligible_eq h, fillable]

/-! ## The sweep in terms of the snapshot -/

/-- A sweep takes no more from an order than it has. -/
theorem taken_le (h : s.Ok) (q : ℕ) :
    ∀ t ∈ (s.sweep taker limit account q).taken, t.2 ≤ t.1.amount := fun t ht =>
  (Greedy.mem_of_mem_taken (amount_pos h taker.opposite) t ht).2

/-- What a sweep leaves of the other side, order by order. -/
theorem queue_eq_removeTrades (h : s.Ok) (q : ℕ) (id : OrderId) (seq : SeqNo)
    (tradeId : UInt64) :
    (s.sweep taker limit account q).queue =
      removeTrades (tradesOf id seq tradeId (s.sweep taker limit account q).taken)
        (s.resting taker.opposite) := by
  have hzero : ∀ o : RestingOrder, o.reduce 0 = o := fun o => by
    show { o with qty := o.qty - 0 } = o
    rw [UInt32.sub_zero]
  have hqueue : (s.sweep taker limit account q).queue = _ :=
    Greedy.queue_eq_filterMap (keys_nodup h taker.opposite) (amount_pos h taker.opposite) hzero
  rw [hqueue, removeTrades]
  refine List.filterMap_congr fun o _ => ?_
  rw [tradedBy_tradesOf (taken_le h q)]
  rfl

/-- **A sweep matches greedily**, whatever becomes of the taker's own side. -/
theorem sweep_greedy (h : s.Ok) (q : Qty) (id : OrderId) (seq : SeqNo) (tradeId : UInt64)
    {l' : List RestingOrder} {r : AddResult}
    (hl' : ofSide taker.opposite l' = (s.sweep taker limit account q.toNat).queue)
    (htrades : r.trades = tradesOf id seq tradeId (s.sweep taker limit account q.toNat).taken)
    (hstp : r.stpRejected = (s.sweep taker limit account q.toNat).stopped) :
    GreedyMatch taker limit account q id seq tradeId s.orders l' r := by
  have htaken : (s.sweep taker limit account q.toNat).taken =
      Greedy.takes RestingOrder.amount q.toNat
        (beforeOwn account (inReach taker limit s.orders)) := by
    rw [sweep, RestingOrder.sweep, Greedy.sweep_eq, eligible_eq h]
  refine ⟨by rw [htrades, htaken], ?_, ?_⟩
  · rw [hl', htrades, ofSide_orders h]
    exact queue_eq_removeTrades h q.toNat id seq tradeId
  · have hstop : (s.sweep taker limit account q.toNat).stopped = true ↔ _ := Greedy.stopped_iff
    simp only [beq_iff_eq] at hstop
    rw [hstp, htrades, length_tradesOf, volume_tradesOf (taken_le h q.toNat), inReach_orders h]
    exact hstop

end PriorityBook

end MatchingEngine
