import MatchingEngine.Book.RestTheorems
import MatchingEngine.Spec.PriorityBookTheorems

/-!
# Adding orders

`add_limit_order` and `add_market_order` return, without a fault, what the abstract command
returns, and leave a book that represents the one it leaves. The counter of the fill-or-kill
pre-check is 32 bits wide, which is the gate of the abstract command here.
-/

namespace MatchingEngine

open FixedPool IntrusiveList

/-- What a total looks like in a 32-bit counter. -/
def counter32 (n : ℕ) : ℕ := n % 2 ^ 32

/-- The comparison of the pre-check, in numbers without a bound. -/
theorem counter32_lt_iff {n : ℕ} {qty : Qty} :
    UInt32.ofNat n < qty ↔ counter32 n < qty.toNat := by
  rw [UInt32.lt_iff_toNat_lt, UInt32.toNat_ofNat']
  rfl

namespace Book

variable {b : Book} {s : PriorityBook} {L : Side → Ladder} {vacant : List Index} {side : Side}
  {i : Index} {o : Order} {id : OrderId}

/-! ## Small steps -/

/-- Every command takes the next sequence number. -/
def tick (b : Book) : Book := { b with nextSeq := b.nextSeq + 1 }

/-- Counting a command changes neither the ladders nor the pool. -/
theorem Repr.tick (h : b.Repr L vacant) : b.tick.Repr L vacant :=
  ⟨h.pool, h.index, fun side => by
    rw [Book.tick, levels_withNextSeq]
    exact h.sides side, h.full⟩

/-- The book counts a command as the abstract book does. -/
theorem Shows.tick (hs : b.Shows L s) : b.tick.Shows L s.tick :=
  ⟨hs.capacity, hs.resting, congrArg (· + 1) hs.nextSeq, hs.nextTradeId⟩

/-- Both books count a command. -/
theorem Represents.tick (h : b.Represents s) : b.tick.Represents s.tick := by
  obtain ⟨L, vacant, hr, hs⟩ := h
  exact ⟨L, vacant, hr.tick, hs.tick⟩

/-- An id is unknown to both books, or names one resting order in both. -/
theorem find_cases (h : b.Repr L vacant) (hs : b.Shows L s) (id : OrderId) :
    (b.idMap.find id = .ok none ∧ s.find id = none) ∨
      ∃ i o, i ∈ (L o.side).slots ∧ b.pool.value? i = some o ∧ o.orderId = id ∧
        b.idMap.find id = .ok (some (b.pool.handleAt i)) ∧ s.find id = some o.resting := by
  cases hf : s.find id with
  | none =>
    refine Or.inl ⟨h.index.find_of_absent (h.absent hs (PriorityBook.find_eq_none.mp hf)), rfl⟩
  | some x =>
    obtain ⟨hx, hid⟩ := PriorityBook.mem_of_find hf
    rw [hs.orders_eq] at hx
    obtain ⟨i, hi, rfl⟩ := List.mem_map.mp hx
    have hid' : HasId b.pool i id := (h.hasId_iff hi).mpr hid
    obtain ⟨o, ho⟩ := h.pool.occupied i hi
    rw [restingAt_of_value? ho] at hid ⊢
    refine Or.inr ⟨i, o, ?_, ho, hid, h.index.find_of_mem hi hid', rfl⟩
    -- a slot in use is on the side of its order
    have hside : ∀ side, i ∈ (L side).slots → i ∈ (L o.side).slots := fun side hi => by
      obtain ⟨A, price, xs, ys, B, -, o', ho', hs', -⟩ := (h.sides side).mem_split hi
      obtain rfl : o' = o := Option.some.inj (ho'.symm.trans ho)
      rw [hs']
      exact hi
    rcases List.mem_append.mp hi with hi | hi
    · exact hside .buy hi
    · exact hside .sell hi

/-- The id map contains the ids of the resting orders. -/
theorem contains_spec (h : b.Repr L vacant) (hs : b.Shows L s) (id : OrderId) :
    b.idMap.contains id = .ok (decide (id ∈ s.ids)) := by
  rcases find_cases h hs id with ⟨hfind, hnone⟩ | ⟨i, o, -, -, -, hfind, hsome⟩
  · rw [IdMap.contains, hfind, decide_eq_false (PriorityBook.find_eq_none.mp hnone)]
    rfl
  · have hid : id ∈ s.ids := by
      by_contra hid
      rw [PriorityBook.find_eq_none.mpr hid] at hsome
      cases hsome
    rw [IdMap.contains, hfind, decide_eq_true hid]
    rfl

/-- The best order of the other side decides for all of them. -/
theorem wouldTrade_of_cons (hok : s.Ok) {o : RestingOrder} {l : List RestingOrder}
    (hrest : s.resting side.opposite = o :: l) (price : Price) :
    s.wouldTrade side price = reaches side (some price) o.price := by
  have hsorted := hok.sorted side.opposite
  rw [hrest, List.pairwise_cons] at hsorted
  rw [PriorityBook.wouldTrade, hrest, List.any_cons, Bool.or_eq_left_iff_imp, List.any_eq_true]
  intro hany
  obtain ⟨o', ho', hreach⟩ := hany
  rw [reaches_iff] at hreach ⊢
  exact le_trans (hsorted.1 o' ho') hreach

/-- **`would_cross`** looks at the best opposite level only, which is enough. -/
theorem wouldCross_spec (h : b.Repr L vacant) (hs : b.Shows L s) (hok : s.Ok) (side : Side)
    (price : Price) : b.wouldCross side price = .ok (s.wouldTrade side price) := by
  have hside := h.sides side.opposite
  have hfull := h.full side.opposite
  have hrest := hs.resting side.opposite
  cases hL : L side.opposite with
  | nil =>
    rw [hL] at hside hrest
    have hempty := hside.levels.empty_iff.mpr rfl
    rw [PriorityBook.wouldTrade, hrest]
    cases side with
    | buy => exact if_pos hempty
    | sell => exact if_pos hempty
  | cons l M =>
    obtain ⟨best, xs⟩ := l
    rw [hL] at hside hfull hrest
    have hne : ¬ (b.levels side.opposite).empty = true := fun he =>
      List.cons_ne_nil _ _ (hside.levels.empty_iff.mp he)
    have hbest : (b.levels side.opposite).best = .ok M.length := by
      rw [← Ladder.length_levels]
      exact PriceLevels.Repr.best (l := .ofList best xs) hside.levels
    have hread := hside.read (A := [])
    obtain ⟨i, ys, rfl⟩ := List.exists_cons_of_ne_nil (hfull (best, xs) List.mem_cons_self)
    have hprice : (b.pool.restingAt i).price = best :=
      (hside.chain (A := [])).price_restingAt List.mem_cons_self
    have hany : s.wouldTrade side price = reaches side (some price) best := by
      rw [Ladder.slots_cons, List.cons_append, List.map_cons] at hrest
      rw [wouldTrade_of_cons hok hrest, hprice]
    rw [hany]
    cases side with
    | buy =>
      have hne' : ¬ b.asks.empty = true := hne
      have hbest' : b.asks.best = .ok M.length := hbest
      have hread' : b.asks.read M.length = .ok (.ofList best (i :: ys)) := hread
      rw [wouldCross, if_neg hne', hbest', ok_bind, hread']
      rfl
    | sell =>
      have hne' : ¬ b.bids.empty = true := hne
      have hbest' : b.bids.best = .ok M.length := hbest
      have hread' : b.bids.read M.length = .ok (.ofList best (i :: ys)) := hread
      rw [wouldCross, if_neg hne', hbest', ok_bind, hread']
      rfl

/-! ## Limit orders -/

/-- The `crosses` of a limit order, for either side. -/
def crossesLimit (taker : Side) (resting limit : Price) : Bool := reaches taker (some limit) resting

/-- The part of `add_limit_order` behind its checks: match, and rest what is left. -/
def matchAndRest (b : Book) (incoming : Order) (seq : SeqNo) (tif : TimeInForce) :
    Checked (Book × AddResult) := do
  let (b, left, trades, stpRejected) ← b.cross incoming.side.opposite incoming seq []
    (crossesLimit incoming.side)
  let result : AddResult := { accepted := true, trades, stpRejected }
  if (tif == .gtc && !stpRejected) ∧ left.qty > 0 then
    let (b, rested) ← b.rest incoming.side incoming.price left seq
    if rested then return (b, { result with restingQty := left.qty })
    else return (b, { result with poolExhausted := true })
  else return (b, result)

/-- The incoming order of `add_limit_order`. -/
def limitOrder (id : OrderId) (side : Side) (price : Price) (qty : Qty) (account : Account) :
    Order := { orderId := id, side, price, qty, account }

/-- `add_limit_order`, with its two sides as one. -/
theorem addLimitOrder_eq (b : Book) (result : AddResult) (id : OrderId) (side : Side)
    (price : Price) (qty : Qty) (account : Account) (tif : TimeInForce) :
    b.addLimitOrder result id side price qty account tif =
      if qty = 0 then .ok (b.tick, {})
      else (do
        if ← b.idMap.contains id then return (b.tick, {})
        if tif = .fok then
          if (← b.tick.availableBeforeSelfTrade side.opposite price account
              (crossesLimit side)) < qty then
            return (b.tick, { accepted := true })
        b.tick.matchAndRest (limitOrder id side price qty account) b.nextSeq tif) := by
  cases side with
  | buy => rfl
  | sell => rfl

/-- Something is left over in 32 bits exactly if something is. -/
theorem qty_pos_iff {r : Greedy.Outcome RestingOrder} {qty : Qty} (hr : r.unmet ≤ qty.toNat) :
    UInt32.ofNat r.unmet > 0 ↔ 0 < r.unmet := by
  rw [pos_iff_toNat, toNat_ofNat_qty hr]

/-- What a limit order returns if none of it rests. -/
def unrested (s : PriorityBook) (id : OrderId) (seq : SeqNo)
    (r : Greedy.Outcome RestingOrder) : AddResult :=
  { accepted := true, trades := tradesOf id seq s.nextTradeId r.taken, stpRejected := r.stopped }

/-- Matching and resting do what the abstract command does. -/
theorem matchAndRest_spec (h : b.Represents s) (hid : id ∉ s.ids) (side : Side)
    (price : Price) (qty : Qty) (account : Account) (seq : SeqNo) (tif : TimeInForce)
    {r : Greedy.Outcome RestingOrder} (hr : s.sweep side (some price) account qty.toNat = r)
    {out : PriorityBook × AddResult} (hout : out =
      if tif = .gtc ∧ r.stopped = false ∧ 0 < r.unmet then
        (s.afterSweep side r).restResidual ⟨side, price, id, UInt32.ofNat r.unmet, account, seq⟩
          (unrested s id seq r)
      else (s.afterSweep side r, unrested s id seq r)) :
    ∃ b', b.matchAndRest (limitOrder id side price qty account) seq tif = .ok (b', out.2) ∧
      b'.Represents out.1 := by
  obtain ⟨L, vacant, hrepr, hs⟩ := h
  have hle : r.unmet ≤ qty.toNat := hr ▸ Greedy.unmet_le
  obtain ⟨b₁, L₁, vacant₁, hcross, hrepr₁, hs₁⟩ := cross_spec hrepr hs
    (limitOrder id side price qty account) seq [] (crossesLimit side) (fun _ => rfl) hr
  have hleft : { limitOrder id side price qty account with qty := UInt32.ofNat r.unmet }
      = limitOrder id side price (UInt32.ofNat r.unmet) account := rfl
  have hside : (limitOrder id side price qty account).side = side := rfl
  have hprice : (limitOrder id side price qty account).price = price := rfl
  have hqty : (limitOrder id side price (UInt32.ofNat r.unmet) account).qty
      = UInt32.ofNat r.unmet := rfl
  rw [hleft] at hcross
  rw [matchAndRest, hside, hprice, hcross]
  simp only [ok_bind, List.nil_append, hqty, qty_pos_iff hle, Bool.and_eq_true, beq_iff_eq,
    Bool.not_eq_true', and_assoc]
  by_cases hrest : tif = .gtc ∧ r.stopped = false ∧ 0 < r.unmet
  · rw [if_pos hrest] at hout
    rw [if_pos hrest]
    obtain ⟨-, -, hunmet⟩ := hrest
    cases vacant₁ with
    | nil =>
      obtain ⟨b', hfull, hrepr', hs'⟩ := rest_full hrepr₁ hs₁ side price
        (limitOrder id side price (UInt32.ofNat r.unmet) account) seq
      have hno : ¬ (s.afterSweep side r).orders.length < (s.afterSweep side r).capacity :=
        fun hlt => (hs₁.room_iff hrepr₁).mp hlt rfl
      rw [PriorityBook.restResidual, if_neg hno] at hout
      subst hout
      refine ⟨b', ?_, L₁, [], hrepr', hs'⟩
      rw [hfull]
      rfl
    | cons i vacant₁ =>
      have hid₁ : id ∉ (s.afterSweep side r).ids := hr ▸ PriorityBook.ids_afterSweep hid
      have hne : UInt32.ofNat r.unmet ≠ 0 := by
        rw [← hr] at hunmet ⊢
        exact PriorityBook.ofNat_unmet_ne hunmet
      obtain ⟨b', L', vacant', hroom, hrepr', hs'⟩ := rest_room hrepr₁ hs₁
        (limitOrder id side price (UInt32.ofNat r.unmet) account) hne rfl hid₁ seq
      have hyes := (hs₁.room_iff hrepr₁).mpr (List.cons_ne_nil i vacant₁)
      rw [PriorityBook.restResidual, if_pos hyes] at hout
      subst hout
      refine ⟨b', ?_, L', vacant', hrepr', hs'⟩
      have hroom' : b₁.rest side price (limitOrder id side price (UInt32.ofNat r.unmet) account) seq
          = .ok (b', true) := hroom
      rw [hroom']
      rfl
  · rw [if_neg hrest] at hout
    subst hout
    exact ⟨b₁, if_neg hrest, L₁, vacant₁, hrepr₁, hs₁⟩

/-- What the pre-check finds. -/
theorem availableBeforeSelfTrade_eq (h : b.Represents s) (side : Side) (price : Price)
    (account : Account) :
    b.availableBeforeSelfTrade side.opposite price account (crossesLimit side) =
      .ok (UInt32.ofNat (s.available side (some price) account)) := by
  obtain ⟨L, vacant, hrepr, hs⟩ := h
  exact availableBeforeSelfTrade_spec hrepr hs price account _ fun _ => rfl

/-- A limit order that is turned away changes nothing but the next sequence number. -/
theorem addLimitOrder_eq_of_represents (h : b.Represents s) (result : AddResult) (id : OrderId)
    (side : Side) (price : Price) (qty : Qty) (account : Account) (tif : TimeInForce) :
    b.addLimitOrder result id side price qty account tif =
      if qty = 0 ∨ id ∈ s.ids then .ok (b.tick, {})
      else if tif = .fok ∧ counter32 (s.available side (some price) account) < qty.toNat then
        .ok (b.tick, { accepted := true })
      else b.tick.matchAndRest (limitOrder id side price qty account) b.nextSeq tif := by
  have havail := availableBeforeSelfTrade_eq h.tick side price account
  obtain ⟨L, vacant, hrepr, hs⟩ := h
  rw [addLimitOrder_eq]
  simp only [contains_spec hrepr hs]
  by_cases hq : qty = 0
  · rw [if_pos hq, if_pos (Or.inl hq)]
  by_cases hid : id ∈ s.ids
  · rw [if_neg hq, if_pos (Or.inr hid), decide_eq_true hid]
    rfl
  rw [if_neg hq, if_neg (not_or.mpr ⟨hq, hid⟩), decide_eq_false hid]
  simp only [ok_bind, Bool.false_eq_true, if_false]
  by_cases hfok : tif = .fok
  · rw [if_pos hfok, havail, ok_bind]
    by_cases hlt : counter32 (s.available side (some price) account) < qty.toNat
    · rw [if_pos (And.intro hfok hlt)]
      exact if_pos (counter32_lt_iff.mpr hlt)
    · rw [if_neg (not_and.mpr fun _ => hlt)]
      exact if_neg fun hc => hlt (counter32_lt_iff.mp hc)
  · rw [if_neg hfok, if_neg fun hc => hfok hc.1]

/-- **Limit orders** do what they mean, but for the width of the pre-check. -/
theorem addLimitOrder_spec (h : b.Represents s) (result : AddResult) (id : OrderId) (side : Side)
    (price : Price) (qty : Qty) (account : Account) (tif : TimeInForce) :
    ∃ b', b.addLimitOrder result id side price qty account tif
        = .ok (b', (s.addLimit counter32 id side price qty account tif).2) ∧
      b'.Represents (s.addLimit counter32 id side price qty account tif).1 := by
  have htick := h.tick
  have hseq : s.nextSeq = b.nextSeq := by
    obtain ⟨L, vacant, -, hs⟩ := h
    exact hs.nextSeq
  rw [addLimitOrder_eq_of_represents h, PriorityBook.addLimit]
  by_cases hbad : qty = 0 ∨ id ∈ s.ids
  · rw [if_pos hbad, if_pos hbad]
    exact ⟨_, rfl, htick⟩
  rw [if_neg hbad, if_neg hbad]
  by_cases hfok : tif = .fok ∧ counter32 (s.available side (some price) account) < qty.toNat
  · rw [if_pos hfok, if_pos hfok]
    exact ⟨_, rfl, htick⟩
  · rw [if_neg hfok, if_neg hfok, hseq]
    exact matchAndRest_spec htick (fun hid => hbad (Or.inr hid)) side price qty account b.nextSeq
      tif rfl rfl

/-! ## Market orders -/

/-- `add_market_order`, with its two sides as one. -/
theorem addMarketOrder_eq (b : Book) (result : AddResult) (id : OrderId) (side : Side)
    (qty : Qty) (account : Account) :
    b.addMarketOrder result id side qty account =
      if qty = 0 then .ok (b.tick, {})
      else (do
        if ← b.idMap.contains id then return (b.tick, {})
        let (b', _, trades, stpRejected) ← b.tick.cross side.opposite
          { orderId := id, side, qty, account } b.nextSeq [] fun _ _ => true
        return (b', { accepted := true, trades, stpRejected })) := by
  cases side with
  | buy => rfl
  | sell => rfl

/-- **Market orders** do what they mean. -/
theorem addMarketOrder_spec (h : b.Represents s) (result : AddResult) (id : OrderId) (side : Side)
    (qty : Qty) (account : Account) :
    ∃ b', b.addMarketOrder result id side qty account
        = .ok (b', (s.addMarket id side qty account).2) ∧
      b'.Represents (s.addMarket id side qty account).1 := by
  have htick := h.tick
  obtain ⟨L, vacant, hrepr, hs⟩ := h
  rw [addMarketOrder_eq]
  simp only [contains_spec hrepr hs, PriorityBook.addMarket]
  by_cases hq : qty = 0
  · rw [if_pos hq, if_pos (Or.inl hq)]
    exact ⟨_, rfl, htick⟩
  by_cases hid : id ∈ s.ids
  · rw [if_neg hq, if_pos (Or.inr hid)]
    exact ⟨_, by simp [hid], htick⟩
  rw [if_neg hq, if_neg (not_or.mpr ⟨hq, hid⟩)]
  have hreach : ∀ p : Price, true = reaches side none p := fun _ => rfl
  obtain ⟨b₁, L₁, vacant₁, hcross, hrepr₁, hs₁⟩ := cross_spec hrepr.tick hs.tick
    { orderId := id, side, qty, account } b.nextSeq [] (fun _ _ => true) hreach rfl
  refine ⟨b₁, ?_, L₁, vacant₁, hrepr₁, hs₁⟩
  simp only [ok_bind, decide_eq_false hid, Bool.false_eq_true, if_false]
  rw [hcross, hs.nextSeq]
  rfl

end Book

end MatchingEngine
