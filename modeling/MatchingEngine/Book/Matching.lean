import MatchingEngine.Book.Refinement
import MatchingEngine.Spec.Snapshot

/-!
# Matching

What limit and market orders do in every reachable book, in terms of the snapshots before
and after: greedy price-time priority up to the taker's own first order.
-/

namespace MatchingEngine

namespace Book

variable {b : Book} {s : PriorityBook} {id : OrderId} {side : Side} {price : Price} {qty : Qty}
  {account : Account} {tif : TimeInForce}

/-- A limit order that is not turned away sweeps the other side. -/
theorem addLimit_swept (gate : ℕ → ℕ) (hok : ¬ (qty = 0 ∨ id ∈ s.ids))
    (hpass : ¬ (tif = .fok ∧ gate (s.available side (some price) account) < qty.toNat)) :
    (s.addLimit gate id side price qty account tif).1.resting side.opposite =
        (s.sweep side (some price) account qty.toNat).queue ∧
      (s.addLimit gate id side price qty account tif).2.trades = tradesOf id s.nextSeq
        s.nextTradeId (s.sweep side (some price) account qty.toNat).taken ∧
      (s.addLimit gate id side price qty account tif).2.stpRejected =
        (s.sweep side (some price) account qty.toNat).stopped := by
  have hqueue := PriorityBook.resting_afterSweep s.tick side
    (s.sweep side (some price) account qty.toNat)
  simp only [PriorityBook.addLimit, if_neg hok, if_neg hpass]
  split
  · rw [PriorityBook.restResidual]
    split
    · refine ⟨?_, rfl, rfl⟩
      rw [PriorityBook.resting_insert_of_ne (Side.opposite_ne side)]
      exact hqueue
    · exact ⟨hqueue, rfl, rfl⟩
  · exact ⟨hqueue, rfl, rfl⟩

/-- An accepted limit order is of some quantity and under a new id. -/
theorem addLimit_accepted {gate : ℕ → ℕ}
    (h : (s.addLimit gate id side price qty account tif).2.accepted = true) :
    ¬ (qty = 0 ∨ id ∈ s.ids) := by
  intro hbad
  rw [PriorityBook.addLimit, if_pos hbad] at h
  cases h

/-- An accepted market order is of some quantity and under a new id. -/
theorem addMarket_accepted (h : (s.addMarket id side qty account).2.accepted = true) :
    ¬ (qty = 0 ∨ id ∈ s.ids) := by
  intro hbad
  rw [PriorityBook.addMarket, if_pos hbad] at h
  cases h

/-- **Matching is greedy price-time priority with a stop at the taker's own orders**, for the
limit orders that get to match at all and for all market orders. -/
theorem orders_match_greedily (h : b.Reachable) :
    ∃ l, b.snapshot = .ok l ∧
      (∀ result id side price qty account tif, ∃ b' r,
        b.addLimitOrder result id side price qty account tif = .ok (b', r) ∧
        (r.accepted = true →
          (tif = .fok → ∃ n, b.availableBeforeSelfTrade side.opposite price account
            (crossesLimit side) = .ok n ∧ qty ≤ n) →
          ∃ l', b'.snapshot = .ok l' ∧
            GreedyMatch side (some price) account qty id b.nextSeq b.nextTradeId l l' r)) ∧
      (∀ result id side qty account, ∃ b' r,
        b.addMarketOrder result id side qty account = .ok (b', r) ∧
        (r.accepted = true → ∃ l', b'.snapshot = .ok l' ∧
          GreedyMatch side none account qty id b.nextSeq b.nextTradeId l l' r)) := by
  obtain ⟨s, hrep, hok⟩ := h.represents
  have hseq : b.nextSeq = s.nextSeq ∧ b.nextTradeId = s.nextTradeId := by
    obtain ⟨L, vacant, -, hs⟩ := hrep
    exact ⟨hs.nextSeq.symm, hs.nextTradeId.symm⟩
  rw [hseq.1, hseq.2]
  refine ⟨s.orders, snapshot_spec hrep, ?_, ?_⟩
  · intro result id side price qty account tif
    obtain ⟨b', hadd, hrep'⟩ := addLimitOrder_spec hrep result id side price qty account tif
    refine ⟨b', _, hadd, fun hacc hpass => ?_⟩
    have hpass' : ¬ (tif = .fok ∧
        counter32 (s.available side (some price) account) < qty.toNat) := by
      intro hbad
      obtain ⟨n, hn, hle⟩ := hpass hbad.1
      rw [availableBeforeSelfTrade_eq hrep, Except.ok.injEq] at hn
      subst hn
      exact absurd (counter32_lt_iff.mpr hbad.2) (UInt32.not_lt.mpr hle)
    obtain ⟨hqueue, htrades, hstp⟩ := addLimit_swept counter32 (addLimit_accepted hacc) hpass'
    refine ⟨_, snapshot_spec hrep', PriorityBook.sweep_greedy hok qty id _ _ ?_ htrades hstp⟩
    rw [PriorityBook.ofSide_orders (hok.addLimit _ _ _ _ _ _ _), hqueue]
  · intro result id side qty account
    obtain ⟨b', hadd, hrep'⟩ := addMarketOrder_spec hrep result id side qty account
    refine ⟨b', _, hadd, fun hacc => ?_⟩
    have hacc' := addMarket_accepted hacc
    refine ⟨_, snapshot_spec hrep', PriorityBook.sweep_greedy hok qty id _ _ ?_ ?_ ?_⟩
    · rw [PriorityBook.ofSide_orders (hok.addMarket _ _ _ _), PriorityBook.addMarket, if_neg hacc']
      exact PriorityBook.resting_afterSweep _ _ _
    · rw [PriorityBook.addMarket, if_neg hacc']
    · rw [PriorityBook.addMarket, if_neg hacc']

/-- Two sells, at 100 and at 101. -/
def twoSells : Book := after 4 [limitCommand 1 .sell 100 5 1, limitCommand 2 .sell 101 5 2]

/-- A buyer of 7 up to 101 takes the first order and two lots of the second. -/
theorem orders_match_greedily_twoSells :
    ∃ b' r l', twoSells.addLimitOrder {} 3 .buy 101 7 9 .gtc = .ok (b', r) ∧
      b'.snapshot = .ok l' ∧
      GreedyMatch .buy (some 101) 9 7 3 twoSells.nextSeq twoSells.nextTradeId
        [⟨.sell, 100, 1, 5, 1, 0⟩, ⟨.sell, 101, 2, 5, 2, 1⟩] l' r := by
  have hreachable : twoSells.Reachable := reachable_after 4 _
  have hshown : twoSells.snapshot =
      .ok [⟨.sell, 100, 1, 5, 1, 0⟩, ⟨.sell, 101, 2, 5, 2, 1⟩] := by decide +kernel
  have haccepted : twoSells.addLimitOrder {} 3 .buy 101 7 9 .gtc = .ok (_, _) := rfl
  obtain ⟨l, hsnap, hlimit, -⟩ := orders_match_greedily hreachable
  obtain ⟨b', r, hadd, hmatch⟩ := hlimit {} 3 .buy 101 7 9 .gtc
  rw [hshown, Except.ok.injEq] at hsnap
  subst hsnap
  rw [haccepted, Except.ok.injEq, Prod.mk.injEq] at hadd
  obtain ⟨rfl, rfl⟩ := hadd
  obtain ⟨l', hsnap', hgreedy⟩ := hmatch (by decide) fun hfok => by cases hfok
  exact ⟨_, _, l', haccepted, hsnap', hgreedy⟩

end Book

end MatchingEngine
