import MatchingEngine.Book.Matching
import Mathlib.Data.UInt

/-!
# Fill or kill

The pre-check and the sweep agree on where to stop, so a fill-or-kill order is filled in full
or changes nothing (`fok_all_or_nothing`). The pre-check adds up quantities in 32 bits. The
sum may therefore be too small, never too large, and an order the book could fill is refused
exactly if the wrapped sum falls short (`fok_filled_iff`).
-/

namespace MatchingEngine

namespace Book

variable {b : Book} {s : PriorityBook} {id : OrderId} {side : Side} {limit : Option Price}
  {price : Price} {qty : Qty} {account : Account}

/-- A sweep that finds enough takes all it wants, and nothing stops it. -/
theorem sweep_of_available (hok : s.Ok) (hle : qty.toNat ≤ s.available side limit account)
    (id : OrderId) (seq : SeqNo) (tradeId : UInt64) :
    (s.sweep side limit account qty.toNat).stopped = false ∧
      (s.sweep side limit account qty.toNat).unmet = 0 ∧
      volume (tradesOf id seq tradeId (s.sweep side limit account qty.toNat).taken) =
        qty.toNat := by
  have hpos : ∀ o ∈ s.resting side.opposite, 0 < o.amount := fun o ho =>
    RestingOrder.amount_pos (hok.live _ o ho)
  have htaken : ∀ t ∈ (s.sweep side limit account qty.toNat).taken, t.2 ≤ t.1.amount :=
    fun t ht => (Greedy.mem_of_mem_taken hpos t ht).2
  rw [PriorityBook.available, RestingOrder.available] at hle
  rw [volume_tradesOf htaken, PriorityBook.sweep, RestingOrder.sweep, Greedy.sweep_eq]
  refine ⟨?_, by show _ - _ = 0; omega, ?_⟩
  · show decide _ = false
    rw [decide_eq_false_iff_not]
    omega
  · show ((Greedy.takes _ _ _).map Prod.snd).sum = _
    rw [Greedy.sum_takes]
    omega

/-- A fill-or-kill order that is not turned away is filled in full. -/
theorem fok_filled (h : b.Represents s) (hok : s.Ok) (result : AddResult)
    (hacc : ¬ (qty = 0 ∨ id ∈ s.ids))
    (hle : qty.toNat ≤ counter32 (s.available side (some price) account)) :
    ∃ b' r, b.addLimitOrder result id side price qty account .fok = .ok (b', r) ∧
      volume r.trades = qty.toNat ∧ r.restingQty = 0 ∧ r.stpRejected = false ∧
      r.poolExhausted = false := by
  obtain ⟨b', heq, -⟩ := addLimitOrder_spec h result id side price qty account .fok
  have hgate : ¬ (TimeInForce.fok = .fok ∧
      counter32 (s.available side (some price) account) < qty.toNat) := fun hc => by
    have := hc.2
    omega
  obtain ⟨hstop, -, hvol⟩ := sweep_of_available hok (hle.trans (Nat.mod_le _ _)) id s.nextSeq
    s.nextTradeId
  refine ⟨b', _, heq, ?_⟩
  rw [PriorityBook.addLimit, if_neg hacc, if_neg hgate]
  simp only [reduceCtorEq, false_and, if_false]
  exact ⟨hvol, trivial, hstop, trivial⟩

/-- A fill-or-kill order that is turned away changes nothing but the next sequence number. -/
theorem fok_refused (h : b.Represents s) (result : AddResult)
    (hbad : (qty = 0 ∨ id ∈ s.ids) ∨
      counter32 (s.available side (some price) account) < qty.toNat) :
    ∃ r, b.addLimitOrder result id side price qty account .fok = .ok (b.tick, r) ∧
      r.trades = [] ∧ r.restingQty = 0 ∧ r.stpRejected = false ∧ r.poolExhausted = false := by
  rw [addLimitOrder_eq_of_represents h]
  by_cases hacc : qty = 0 ∨ id ∈ s.ids
  · rw [if_pos hacc]
    exact ⟨_, rfl, rfl, rfl, rfl, rfl⟩
  · rw [if_neg hacc, if_pos ⟨rfl, hbad.resolve_left hacc⟩]
    exact ⟨_, rfl, rfl, rfl, rfl, rfl⟩

/-- **All or nothing.** A fill-or-kill order trades exactly its quantity, or it trades nothing
and leaves the book as it was. If its id is new and the pre-check lets it through, it trades. -/
theorem fok_all_or_nothing (h : b.Reachable) (result : AddResult) (id : OrderId) (side : Side)
    (price : Price) (qty : Qty) (account : Account) :
    ∃ b' r, b.addLimitOrder result id side price qty account .fok = .ok (b', r) ∧
      (volume r.trades = qty.toNat ∨
        r.trades = [] ∧ b'.pool = b.pool ∧ b'.bids = b.bids ∧ b'.asks = b.asks ∧
          b'.idMap = b.idMap ∧ b'.nextTradeId = b.nextTradeId) ∧
      r.restingQty = 0 ∧ r.stpRejected = false ∧ r.poolExhausted = false ∧
      ((∃ n, b.availableBeforeSelfTrade side.opposite price account (crossesLimit side) = .ok n ∧
        qty ≤ n) → b.idMap.contains id = .ok false → volume r.trades = qty.toNat) := by
  obtain ⟨s, hrep, hok⟩ := h.represents
  have hcontains : b.idMap.contains id = .ok (decide (id ∈ s.ids)) := by
    obtain ⟨L, vacant, hrepr, hs⟩ := hrep
    exact contains_spec hrepr hs id
  rw [availableBeforeSelfTrade_eq hrep, hcontains]
  by_cases hbad : (qty = 0 ∨ id ∈ s.ids) ∨
      counter32 (s.available side (some price) account) < qty.toNat
  · obtain ⟨r, heq, htrades, hrest, hstp, hpool⟩ := fok_refused hrep result hbad
    refine ⟨b.tick, r, heq, Or.inr ⟨htrades, rfl, rfl, rfl, rfl, rfl⟩, hrest, hstp, hpool, ?_⟩
    intro hpass hid
    obtain ⟨n, hn, hle⟩ := hpass
    rw [Except.ok.injEq] at hn hid
    subst hn
    rw [decide_eq_false_iff_not] at hid
    rcases hbad with (hq | hmem) | hlt
    · rw [htrades, hq]
      rfl
    · exact absurd hmem hid
    · exact absurd (counter32_lt_iff.mpr hlt) (UInt32.not_lt.mpr hle)
  · rw [not_or, not_lt] at hbad
    obtain ⟨b', r, heq, hvol, hrest, hstp, hpool⟩ := fok_filled hrep hok result hbad.1 hbad.2
    exact ⟨b', r, heq, Or.inl hvol, hrest, hstp, hpool, fun _ _ => hvol⟩

/-- Two resting orders of 2^31 lots each, of accounts 1 and 2. -/
def twoHalves : Book :=
  after 2 [limitCommand 1 .sell 100 (2 ^ 31) 1, limitCommand 2 .sell 100 (2 ^ 31) 2]

theorem snapshot_twoHalves : twoHalves.snapshot =
    .ok [⟨.sell, 100, 1, 2 ^ 31, 1, 0⟩, ⟨.sell, 100, 2, 2 ^ 31, 2, 1⟩] := by decide +kernel

/-- Account 1 meets its own order at once, and nothing is left behind. -/
theorem fok_all_or_nothing_twoHalves :
    ∃ b' r, twoHalves.addLimitOrder {} 3 .buy 100 (2 ^ 31) 1 .fok = .ok (b', r) ∧
      r.restingQty = 0 ∧ r.stpRejected = false ∧ r.poolExhausted = false := by
  obtain ⟨b', r, heq, -, hrest, hstp, hpool, -⟩ :=
    fok_all_or_nothing (reachable_after 2 _) {} 3 .buy 100 (2 ^ 31) 1
  exact ⟨b', r, heq, hrest, hstp, hpool⟩

/-- **When liquidity is enough.** In a reachable book, a fill-or-kill order under a new id is
filled whenever the orders it may trade with hold enough, exactly if they do not hold enough,
or hold enough in 32 bits too. -/
theorem fok_filled_iff (h : b.Reachable) (result : AddResult) (id : OrderId) (side : Side)
    (price : Price) (account : Account) (hq : qty ≠ 0) :
    ∃ l, b.snapshot = .ok l ∧ (id ∉ l.map (·.orderId) →
      ∃ b' r, b.addLimitOrder result id side price qty account .fok = .ok (b', r) ∧
        ((qty.toNat ≤ fillable side (some price) account l → volume r.trades = qty.toNat) ↔
          (fillable side (some price) account l < qty.toNat ∨
            qty.toNat ≤ fillable side (some price) account l % 2 ^ 32))) := by
  obtain ⟨s, hrep, hok⟩ := h.represents
  refine ⟨s.orders, snapshot_spec hrep, fun hid => ?_⟩
  have hacc : ¬ (qty = 0 ∨ id ∈ s.ids) := not_or.mpr ⟨hq, hid⟩
  rw [← PriorityBook.available_eq hok]
  by_cases hle : qty.toNat ≤ s.available side (some price) account % 2 ^ 32
  · obtain ⟨b', r, heq, hvol, -⟩ := fok_filled hrep hok result hacc hle
    exact ⟨b', r, heq, iff_of_true (fun _ => hvol) (Or.inr hle)⟩
  · rw [not_le] at hle
    obtain ⟨r, heq, htrades, -⟩ := fok_refused hrep result (Or.inr hle)
    refine ⟨b.tick, r, heq, ?_⟩
    have hvol : volume r.trades ≠ qty.toNat := by
      rw [htrades]
      exact fun e => hq (UInt32.toNat_inj.mp e.symm)
    constructor
    · intro hfill
      left
      by_contra hlt
      exact hvol (hfill (not_lt.mp hlt))
    · intro hcond hfill
      omega

/-- Account 2 can take the first order of the two as a whole. -/
theorem fok_filled_twoHalves :
    ∃ b' r, twoHalves.addLimitOrder {} 3 .buy 100 (2 ^ 31) 2 .fok = .ok (b', r) ∧
      volume r.trades = (2 ^ 31 : Qty).toNat := by
  have hreachable : twoHalves.Reachable := reachable_after 2 _
  have hq : (2 ^ 31 : Qty) ≠ 0 := by decide
  obtain ⟨l, hsnap, hfill⟩ := fok_filled_iff hreachable {} 3 .buy 100 2 hq
  rw [snapshot_twoHalves, Except.ok.injEq] at hsnap
  subst hsnap
  obtain ⟨b', r, hadd, hiff⟩ := hfill (by decide)
  exact ⟨b', r, hadd, hiff.mpr (Or.inr (by decide)) (by decide)⟩

/-- To account 9, the 2^32 lots of the two orders look like none at all. -/
theorem fok_refused_twoHalves :
    ∃ l b' r, twoHalves.Reachable ∧ twoHalves.snapshot = .ok l ∧ 3 ∉ l.map (·.orderId) ∧
      (1 : Qty).toNat ≤ fillable .buy (some 100) 9 l ∧
      twoHalves.addLimitOrder {} 3 .buy 100 1 9 .fok = .ok (b', r) ∧
      volume r.trades ≠ (1 : Qty).toNat :=
  ⟨_, _, _, reachable_after _ _, snapshot_twoHalves, by decide, by decide, rfl, by decide⟩

end Book

end MatchingEngine
