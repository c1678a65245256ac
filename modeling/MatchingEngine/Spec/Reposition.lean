import MatchingEngine.Spec.PriorityBookTheorems

/-!
# The abstract book — moving an order

A modify that moves an order is compared with a cancel and a limit order that takes the same id.
If nothing in the opposite side is within the new price, both put the order into the same place
(`orders_insert_bump`). If something is, the modify is turned away, and the limit order trades or
is stopped by an order of its own account (`addLimit_meets`).
-/

namespace MatchingEngine

open PriorityList

namespace PriorityBook

variable {s : PriorityBook} {o : RestingOrder} {id : OrderId} {side : Side} {price : Price}
  {qty : Qty} {account : Account} {gate : ℕ → ℕ}

/-- In a well-formed book a resting order is the one its id finds. -/
theorem find_of_mem (h : s.Ok) (ho : o ∈ s.orders) : s.find o.orderId = some o := by
  apply find?_of_unique ho
  · exact beq_self_eq_true _
  · intro o' ho' heq
    exact h.eq_of_orderId ho' ho (beq_iff_eq.mp heq)

/-- The order at its new place. -/
def moved (s : PriorityBook) (o : RestingOrder) (price : Price) (qty : Qty) : RestingOrder :=
  { o with price, qty, seqNo := s.nextSeq }

/-- A modify that must requeue: refused if the new price would trade, else the order is taken out
and put in again with a fresh number. -/
theorem modify_of_move (h : s.Ok) (ho : o ∈ s.orders) (hq : qty ≠ 0)
    (hplace : ¬ (price = o.price ∧ qty ≤ o.qty)) :
    s.modify o.orderId price qty =
      if s.wouldTrade o.side price then (s.tick, false)
      else ((s.tick.remove o).insert (s.moved o price qty), true) := by
  rw [modify, if_neg hq, find_of_mem h ho]
  exact if_neg hplace

/-- A cancel of a resting order takes it out and says so. -/
theorem cancel_of_mem (h : s.Ok) (ho : o ∈ s.orders) :
    s.cancel o.orderId = (s.tick.remove o, true) := by
  rw [cancel, find_of_mem h ho]

/-! ## Nothing within the price -/

/-- A sweep that finds nothing within its limit does nothing. -/
theorem sweep_of_clear (hclear : s.wouldTrade side price = false) (q : ℕ) :
    s.sweep side (some price) account q = ⟨[], s.resting side.opposite, q, false⟩ := by
  rw [wouldTrade, List.any_eq_false] at hclear
  rw [sweep]
  cases hl : s.resting side.opposite with
  | nil => rfl
  | cons a l =>
    apply Greedy.sweep_cons_out
    rw [hl] at hclear
    exact Bool.not_eq_true _ ▸ hclear a List.mem_cons_self

theorem setSide_self (s : PriorityBook) (side : Side) : s.setSide side (s.resting side) = s := by
  rw [setSide, Function.update_eq_self]

/-- A sweep that took nothing leaves the book as it was. -/
theorem afterSweep_idle (s : PriorityBook) (side : Side) (q : ℕ) (stopped : Bool) :
    s.afterSweep side ⟨[], s.resting side.opposite, q, stopped⟩ = s := by
  rw [afterSweep, setSide_self]
  exact congrArg (fun n => { s with nextTradeId := n }) (UInt64.add_zero _)

/-- **A limit order that finds nothing within its price** rests as it is. -/
theorem addLimit_of_clear (hid : id ∉ s.ids) (hq : qty ≠ 0)
    (hclear : s.wouldTrade side price = false) (hroom : s.orders.length < s.capacity) :
    s.addLimit gate id side price qty account .gtc =
      (s.tick.insert ⟨side, price, id, qty, account, s.nextSeq⟩,
        { accepted := true, restingQty := qty }) := by
  have hpos : 0 < qty.toNat := RestingOrder.amount_pos (o := ⟨side, price, id, qty, account, 0⟩) hq
  have hroom' : s.tick.orders.length < s.tick.capacity := hroom
  have hidle := afterSweep_idle s.tick side qty.toNat false
  rw [resting_tick] at hidle
  rw [addLimit, if_neg (not_or.mpr ⟨hq, hid⟩), if_neg fun hfok => TimeInForce.noConfusion hfok.1,
    sweep_of_clear hclear]
  dsimp only
  rw [if_pos ⟨rfl, rfl, hpos⟩, hidle, restResidual, if_pos hroom', UInt32.ofNat_toNat]
  rfl

/-! ## Something within the price -/

/-- The best order of the opposite side is within a price that any order of it is within. -/
theorem reaches_head (h : s.Ok) (hwould : s.wouldTrade side price = true) :
    ∃ a l, s.resting side.opposite = a :: l ∧ reaches side (some price) a.price = true := by
  obtain ⟨o, ho, hreach⟩ := List.any_eq_true.mp hwould
  have hsorted := h.sorted side.opposite
  cases hl : s.resting side.opposite with
  | nil =>
    rw [hl] at ho
    exact absurd ho List.not_mem_nil
  | cons a l =>
    refine ⟨a, l, rfl, ?_⟩
    rw [hl] at ho hsorted
    rcases List.mem_cons.mp ho with rfl | ho
    · exact hreach
    · rw [reaches_iff] at hreach ⊢
      exact (List.rel_of_pairwise_cons hsorted ho).trans hreach

/-- **A limit order that finds something within its price** trades or is stopped. -/
theorem addLimit_meets (h : s.Ok) (hid : id ∉ s.ids) (hq : qty ≠ 0)
    (hwould : s.wouldTrade side price = true) :
    (s.addLimit gate id side price qty account .gtc).2.trades ≠ [] ∨
      (s.addLimit gate id side price qty account .gtc).2.stpRejected = true := by
  obtain ⟨a, l, hl, hreach⟩ := reaches_head h hwould
  have hpos : 0 < qty.toNat := RestingOrder.amount_pos (o := ⟨side, price, id, qty, account, 0⟩) hq
  have hmeets : (s.sweep side (some price) account qty.toNat).taken ≠ [] ∨
      (s.sweep side (some price) account qty.toNat).stopped = true := by
    rw [sweep, hl]
    exact Greedy.sweep_cons_meets hpos.ne' hreach
  rw [addLimit, if_neg (not_or.mpr ⟨hq, hid⟩), if_neg fun hfok => TimeInForce.noConfusion hfok.1]
  dsimp only
  split
  · next hrest =>
    -- what was not stopped took something
    rw [hrest.2.1, or_iff_left (by decide)] at hmeets
    rw [trades_restResidual]
    exact Or.inl fun hnil => hmeets (tradesOf_eq_nil _ _ _ hnil)
  · exact hmeets.imp_left fun htaken hnil => htaken (tradesOf_eq_nil _ _ _ hnil)

/-! ## The place of the order -/

/-- The order of an id with the next sequence number. -/
def bump (id : OrderId) (o : RestingOrder) : RestingOrder :=
  if o.orderId = id then { o with seqNo := o.seqNo + 1 } else o

theorem bump_self (o : RestingOrder) : bump o.orderId o = { o with seqNo := o.seqNo + 1 } :=
  if_pos rfl

/-- The numbering change does not move an order in its queue. -/
theorem rank_bump (id : OrderId) (side : Side) (o : RestingOrder) :
    RestingOrder.rank side (bump id o) = RestingOrder.rank side o := by
  rw [bump]
  split <;> rfl

theorem map_bump_of_notMem {l : List RestingOrder} (hid : ∀ o ∈ l, o.orderId ≠ id) :
    l.map (bump id) = l := by
  conv_rhs => rw [← List.map_id l]
  apply List.map_congr_left
  intro o ho
  exact if_neg (hid o ho)

/-- A later number does not change the place of an order. -/
theorem orders_insert_bump (hid : o.orderId ∉ s.ids) :
    (s.insert (bump o.orderId o)).orders = (s.insert o).orders.map (bump o.orderId) := by
  have hother : ∀ side, (s.resting side).map (bump o.orderId) = s.resting side := fun side =>
    map_bump_of_notMem fun o' ho' heq => hid (mem_ids.mpr ⟨o', mem_orders.mpr ⟨side, ho'⟩, heq⟩)
  have hrank : ∀ a b, RestingOrder.rank o.side (bump o.orderId a) <
      RestingOrder.rank o.side (bump o.orderId b) ↔
        RestingOrder.rank o.side a < RestingOrder.rank o.side b := by
    intro a b
    rw [rank_bump, rank_bump]
  have hside : ∀ side, (s.insert (bump o.orderId o)).resting side =
      ((s.insert o).resting side).map (bump o.orderId) := by
    intro side
    have hbump : (bump o.orderId o).side = o.side := by rw [bump_self]
    by_cases hs : side = o.side
    · subst hs
      have hins := resting_insert s (bump o.orderId o)
      rw [hbump] at hins
      rw [hins, resting_insert, ← enqueue_map hrank, hother]
    · rw [resting_insert_of_ne hs, resting_insert_of_ne (by rwa [hbump]), hother]
  rw [orders, orders, List.map_append, hside, hside]

end PriorityBook

end MatchingEngine
