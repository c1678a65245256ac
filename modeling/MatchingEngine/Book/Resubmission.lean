import MatchingEngine.Book.NoEffect
import MatchingEngine.Spec.Reposition

/-!
# Modifying is cancelling and resubmitting

A modify that moves an order relinks it in its slot. A cancel and a limit order with the same id
free the slot, take the id out of the table, and make both anew. What they leave to look at is
the same but for one step of the sequence number (`modify_is_cancel_and_resubmit`).
-/

namespace MatchingEngine

namespace Book

open PriorityBook

variable {s : PriorityBook} {o : RestingOrder} {price : Price} {qty : Qty}

/-- The two ways on the abstract book, if nothing is within the new price. -/
theorem resubmit_of_clear (hok : s.Ok) (ho : o ∈ s.orders) (hq : qty ≠ 0)
    (hplace : ¬ (price = o.price ∧ qty ≤ o.qty)) (hclear : s.wouldTrade o.side price = false) :
    (s.modify o.orderId price qty).2 = true ∧
      ((s.cancel o.orderId).1.addLimit counter32 o.orderId o.side price qty o.account .gtc).2 =
        { accepted := true, restingQty := qty } ∧
      ((s.cancel o.orderId).1.addLimit counter32 o.orderId o.side price qty o.account
          .gtc).1.orders =
        (s.modify o.orderId price qty).1.orders.map (bump o.orderId) := by
  have hclear' : (s.tick.remove o).wouldTrade o.side price = false :=
    (wouldTrade_remove s.tick o price).trans hclear
  have hid : o.orderId ∉ (s.tick.remove o).ids := notMem_ids_remove hok.tick ho
  have hroom : (s.tick.remove o).orders.length < (s.tick.remove o).capacity :=
    (length_remove_lt hok.tick ho).trans_le hok.fits
  have hmodify : s.modify o.orderId price qty =
      ((s.tick.remove o).insert (s.moved o price qty), true) := by
    rw [modify_of_move hok ho hq hplace, hclear]
    rfl
  have hadd : (s.tick.remove o).addLimit counter32 o.orderId o.side price qty o.account .gtc =
      ((s.tick.remove o).tick.insert
          ⟨o.side, price, o.orderId, qty, o.account, (s.tick.remove o).nextSeq⟩,
        { accepted := true, restingQty := qty }) := addLimit_of_clear hid hq hclear' hroom
  rw [cancel_of_mem hok ho, hmodify, hadd]
  refine ⟨rfl, rfl, ?_⟩
  -- the resubmitted order has the next number
  have hbump :
      (⟨o.side, price, o.orderId, qty, o.account, (s.tick.remove o).nextSeq⟩ : RestingOrder) =
        bump o.orderId (s.moved o price qty) := (bump_self (s.moved o price qty)).symm
  have hins := orders_insert_bump (s := (s.tick.remove o).tick) (o := s.moved o price qty) hid
  rw [hbump]
  exact hins

/-- The two ways on the abstract book, if something is within the new price. -/
theorem resubmit_of_crossing (hok : s.Ok) (ho : o ∈ s.orders) (hq : qty ≠ 0)
    (hplace : ¬ (price = o.price ∧ qty ≤ o.qty)) (hwould : s.wouldTrade o.side price = true) :
    s.modify o.orderId price qty = (s.tick, false) ∧
      (((s.cancel o.orderId).1.addLimit counter32 o.orderId o.side price qty o.account
          .gtc).2.trades ≠ [] ∨
        ((s.cancel o.orderId).1.addLimit counter32 o.orderId o.side price qty o.account
          .gtc).2.stpRejected = true) := by
  constructor
  · rw [modify_of_move hok ho hq hplace, hwould]
    rfl
  · have hwould' : (s.tick.remove o).wouldTrade o.side price = true :=
      (wouldTrade_remove s.tick o price).trans hwould
    rw [cancel_of_mem hok ho]
    exact addLimit_meets (hok.tick.remove o) (notMem_ids_remove hok.tick ho) hq hwould'

/-- **A modify that moves an order is a cancel and a resubmission** of it. It succeeds exactly if
the resubmitted order would rest in full without reaching a maker, and then the two ways differ
in the sequence number of the order only. If it does not succeed, the resubmitted order would
trade or be stopped, and the modify only takes a sequence number. -/
theorem modify_is_cancel_and_resubmit (b : Book) (hb : b.Reachable) (l : List RestingOrder)
    (hl : b.snapshot = .ok l) (o : RestingOrder) (ho : o ∈ l) (newPrice : Price) (newQty : Qty)
    (hq : 1 ≤ newQty) (hplace : ¬ (newPrice = o.price ∧ newQty ≤ o.qty)) (scratch : AddResult) :
    ∃ bM ok lM bC bA r lA,
      b.modifyOrder o.orderId newPrice newQty = .ok (bM, ok) ∧ bM.snapshot = .ok lM ∧
      b.cancelOrder o.orderId = .ok (bC, true) ∧
      bC.addLimitOrder scratch o.orderId o.side newPrice newQty o.account .gtc = .ok (bA, r) ∧
      bA.snapshot = .ok lA ∧
      (ok = true ↔ r.accepted = true ∧ r.trades = [] ∧ r.stpRejected = false ∧
        r.restingQty = newQty) ∧
      (ok = true → lA = lM.map fun o' =>
        if o'.orderId = o.orderId then { o' with seqNo := o'.seqNo + 1 } else o') ∧
      (ok = false → (r.trades ≠ [] ∨ r.stpRejected = true) ∧
        bM = { b with nextSeq := b.nextSeq + 1 } ∧ lM = l) := by
  obtain ⟨s, hrep, hok, hs⟩ := hb.shows hl
  rw [← hs] at ho
  have hne : newQty ≠ 0 := by
    rintro rfl
    exact absurd hq (by decide)
  obtain ⟨bM, hmodify, hrepM⟩ := modifyOrder_spec hrep hok o.orderId newPrice newQty
  obtain ⟨bC, hcancel, hrepC⟩ := cancelOrder_spec hrep o.orderId
  obtain ⟨bA, hadd, hrepA⟩ :=
    addLimitOrder_spec hrepC scratch o.orderId o.side newPrice newQty o.account .gtc
  have hremoved : (s.cancel o.orderId).2 = true := by rw [cancel_of_mem hok ho]
  rw [hremoved] at hcancel
  refine ⟨bM, _, _, bC, bA, _, _, hmodify, snapshot_spec hrepM, hcancel, hadd,
    snapshot_spec hrepA, ?_⟩
  cases hwould : s.wouldTrade o.side newPrice with
  | false =>
    obtain ⟨htrue, hrests, horders⟩ := resubmit_of_clear hok ho hne hplace hwould
    rw [htrue, hrests]
    refine ⟨iff_of_true rfl ⟨rfl, rfl, rfl, rfl⟩, fun _ => horders, fun hfalse => ?_⟩
    exact Bool.noConfusion hfalse
  | true =>
    obtain ⟨hturned, hmeets⟩ := resubmit_of_crossing hok ho hne hplace hwould
    rw [hturned] at hmodify ⊢
    refine ⟨iff_of_false Bool.false_ne_true ?_, fun htrue => Bool.noConfusion htrue, fun _ =>
      ⟨hmeets, modifyOrder_turned_down hrep hok hmodify, hs⟩⟩
    rintro ⟨-, hnil, hstop, -⟩
    rcases hmeets with htrades | hstopped
    · exact htrades hnil
    · rw [hstop] at hstopped
      exact Bool.noConfusion hstopped

/-- The only order of a full book, moved to another price. -/
theorem modify_is_cancel_and_resubmit_full :
    ∃ bM ok lM bC bA r lA,
      (after 1 [limitCommand 1 .buy 5 7 1]).modifyOrder 1 6 9 = .ok (bM, ok) ∧
      bM.snapshot = .ok lM ∧
      (after 1 [limitCommand 1 .buy 5 7 1]).cancelOrder 1 = .ok (bC, true) ∧
      bC.addLimitOrder {} 1 .buy 6 9 1 .gtc = .ok (bA, r) ∧ bA.snapshot = .ok lA ∧
      (ok = true ↔ r.accepted = true ∧ r.trades = [] ∧ r.stpRejected = false ∧ r.restingQty = 9) ∧
      (ok = true → lA = lM.map fun o' =>
        if o'.orderId = 1 then { o' with seqNo := o'.seqNo + 1 } else o') ∧
      (ok = false → (r.trades ≠ [] ∨ r.stpRejected = true) ∧
        bM = { after 1 [limitCommand 1 .buy 5 7 1] with
          nextSeq := (after 1 [limitCommand 1 .buy 5 7 1]).nextSeq + 1 } ∧
        lM = [⟨.buy, 5, 1, 7, 1, 0⟩]) :=
  modify_is_cancel_and_resubmit _ (reachable_after 1 [limitCommand 1 .buy 5 7 1])
    [⟨.buy, 5, 1, 7, 1, 0⟩] (by decide +kernel) ⟨.buy, 5, 1, 7, 1, 0⟩ (by decide) 6 9 (by decide)
    (by decide) {}

end Book

end MatchingEngine
