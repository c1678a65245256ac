import MatchingEngine.Book.Refinement

/-!
# Commands without effect

A command that is turned away, or that neither trades nor rests, leaves the pool, the id map and
the levels exactly as they are, down to the slots, the free list and the generations: not only
an equal book to look at (`noEffect_leaves_no_trace`). This holds at each of the places where a
command can end, behind a sweep that takes nothing (`cross_idle`) and behind a level that was
made for an order that found no slot (`rest_full_frame`).
-/

namespace MatchingEngine

open FixedPool IntrusiveList

/-- The levels that are in use. What is behind them is left over. -/
def PriceLevels.live (p : PriceLevels) : List Level := p.levels.take p.count

/-- Writing back what was read changes nothing. -/
theorem PriceLevels.write_read {p : PriceLevels} {pos : ℕ} {level : Level}
    (h : p.read pos = .ok level) : p.write pos level = p := by
  have hget : p.levels[pos]? = some level := by
    rw [PriceLevels.read] at h
    cases hpos : p.levels[pos]? with
    | none =>
      rw [hpos] at h
      cases h
    | some l =>
      rw [hpos] at h
      exact congrArg some (Except.ok.inj h)
  obtain ⟨hlt, hget⟩ := List.getElem?_eq_some_iff.mp hget
  rw [PriceLevels.write, ← hget, List.set_getElem_self]

namespace Book

variable {b b' : Book} {s : PriorityBook} {L : Side → Ladder} {vacant : List Index} {side : Side}
  {taker : Side} {levels : PriceLevels} {M : Ladder} {room : ℕ} {crosses : Price → Price → Bool}

/-- The two books have the same orders in the same slots with the same links, the same free
slots in the same order with the same generations, the same levels, the same id map and the
same counters. -/
structure SameState (b b' : Book) : Prop where
  pool : b'.pool = b.pool
  idMap : b'.idMap = b.idMap
  nextSeq : b'.nextSeq = b.nextSeq
  nextTradeId : b'.nextTradeId = b.nextTradeId
  live : ∀ side, (b'.levels side).live = (b.levels side).live
  size : ∀ side, (b'.levels side).size = (b.levels side).size

theorem SameState.refl (b : Book) : b.SameState b :=
  ⟨rfl, rfl, rfl, rfl, fun _ => rfl, fun _ => rfl⟩

/-- A command was turned away, or neither traded nor rested. -/
def NoEffect : Reply → Prop
  | .added r => r.accepted = false ∨ r.trades = [] ∧ r.restingQty = 0
  | .flag ok => ok = false

/-! ## A sweep that takes nothing -/

/-- The loop ends in its first round. -/
theorem sweepLevels_idle (seq : SeqNo) (fuel : ℕ) (t : Sweep)
    (h : SideRepr t.pool room side levels M) (hfull : M.Full)
    (hidle : (RestingOrder.sweep (fun o => crosses o.price t.incoming.price) t.incoming.account
      t.incoming.qty.toNat (M.slots.map t.pool.restingAt)).taken = []) :
    ∃ stopped, sweepLevels crosses seq (fuel + 1) levels t = .ok (levels, t, stopped) := by
  by_cases hq : t.incoming.qty.toNat = 0
  · exact ⟨false, sweepLevels_of_done seq levels hq⟩
  have hpos : t.incoming.qty > 0 := (pos_iff_toNat _).mpr (Nat.pos_of_ne_zero hq)
  rw [sweepLevels]
  cases M with
  | nil =>
    have hempty : levels.empty = true := h.levels.empty_iff.mpr rfl
    rw [if_neg (by rw [hempty]; exact fun hc => Bool.noConfusion hc.2)]
    exact ⟨false, rfl⟩
  | cons l M =>
    obtain ⟨price, xs⟩ := l
    obtain ⟨i, ys, rfl⟩ := List.exists_cons_of_ne_nil (hfull (price, xs) List.mem_cons_self)
    have hempty : levels.empty = false := by
      rw [← Bool.not_eq_true, h.levels.empty_iff]
      exact List.cons_ne_nil _ _
    have hbest : levels.best = .ok M.length := by
      rw [← Ladder.length_levels]
      exact PriceLevels.Repr.best (l := .ofList price (i :: ys)) h.levels
    have hread : levels.read M.length = .ok (.ofList price (i :: ys)) := h.read (A := [])
    have hchain : Chain t.pool side price (i :: ys) := h.chain (A := [])
    have hprice := hchain.price_restingAt List.mem_cons_self
    obtain ⟨o, ho⟩ := hchain.orders.holds i List.mem_cons_self
    have hhead : i ≠ kNilIndex := fun e => hchain.list.nil_notMem (e ▸ List.mem_cons_self)
    rw [if_pos ⟨hpos, hempty⟩, hbest, ok_bind, hread, ok_bind, Level.price_ofList]
    -- the first order of the best level decides
    rw [Ladder.slots_cons, List.cons_append, List.map_cons] at hidle
    rcases Greedy.sweep_cons_idle hidle with hzero | hout | hown
    · exact absurd hzero hq
    · rw [hprice] at hout
      rw [hout]
      exact ⟨false, rfl⟩
    · by_cases hc : crosses price t.incoming.price = true
      · rw [restingAt_of_value? ho, beq_iff_eq] at hown
        have hown' : o.account = t.incoming.account := hown
        have hlevel : sweepLevel seq (t.pool.slots.size + 1) (.ofList price (i :: ys)) t =
            .ok (.ofList price (i :: ys), t, true) := by
          rw [sweepLevel, Level.head_ofList, List.headD_cons, if_pos ⟨hpos, hhead⟩,
            unchecked_of_value? ho, ok_bind, if_pos hown']
          rfl
        simp only [hc, Bool.not_true, Bool.false_eq_true, if_false, hlevel, ok_bind, if_true,
          PriceLevels.write_read hread]
        exact ⟨true, rfl⟩
      · rw [Bool.not_eq_true] at hc
        rw [hc]
        exact ⟨false, rfl⟩

/-- **Crossing** with nothing to take touches nothing. -/
theorem cross_idle (h : b.Repr L vacant) (hs : b.Shows L s) (incoming : Order)
    (limit : Option Price) (seq : SeqNo) (trades : List Trade) (crosses : Price → Price → Bool)
    (hcrosses : ∀ p, crosses p incoming.price = reaches taker limit p)
    (hidle : (s.sweep taker limit incoming.account incoming.qty.toNat).taken = []) :
    ∃ stopped, b.cross taker.opposite incoming seq trades crosses =
      .ok (b, incoming, trades, stopped) := by
  rw [PriorityBook.sweep, hs.resting] at hidle
  simp only [← hcrosses] at hidle
  obtain ⟨stopped, heq⟩ := sweepLevels_idle seq (b.levels taker.opposite).size
    ⟨b.pool, b.idMap, b.nextTradeId, incoming, trades⟩ (h.sides taker.opposite)
    (h.full taker.opposite) hidle
  refine ⟨stopped, ?_⟩
  rw [cross, heq, ok_bind]
  cases taker with
  | buy => rfl
  | sell => rfl

/-! ## A residual that does not rest -/

/-- Another array with the same live levels. -/
theorem SameState.setLevels (h : b.Repr L vacant)
    (hl : SideRepr b.pool (b.pool.slots.size + 1) side levels (L side)) :
    b.SameState (b.setLevels side levels) := by
  have hold := h.sides side
  refine ⟨by simp, by simp, by simp, by simp, fun side' => ?_, fun side' => ?_⟩
  · rcases Side.eq_or_opposite side side' with rfl | rfl
    · rw [levels_setLevels, PriceLevels.live, PriceLevels.live, hl.levels.take_count,
        hold.levels.take_count]
    · rw [levels_setLevels_opposite]
  · rcases Side.eq_or_opposite side side' with rfl | rfl
    · rw [levels_setLevels, hl.size_eq, hold.size_eq]
    · rw [levels_setLevels_opposite]

/-- **Matching and resting** touch nothing if nothing is taken and nothing rests. -/
theorem matchAndRest_idle (h : b.Represents s) {id : OrderId} (hid : id ∉ s.ids) (side : Side)
    (price : Price) (qty : Qty) (account : Account) (seq : SeqNo) (tif : TimeInForce)
    {res : AddResult}
    (heq : b.matchAndRest (limitOrder id side price qty account) seq tif = .ok (b', res))
    (htrades : res.trades = []) (hrest : res.restingQty = 0) : b.SameState b' := by
  obtain ⟨r, hr⟩ : ∃ r, s.sweep side (some price) account qty.toNat = r := ⟨_, rfl⟩
  have htaken : r.taken = [] := by
    obtain ⟨b₁, hspec, -⟩ := matchAndRest_spec h hid side price qty account seq tif hr rfl
    rw [heq, Except.ok.injEq, Prod.mk.injEq] at hspec
    rw [hspec.2] at htrades
    refine PriorityBook.tradesOf_eq_nil id seq s.nextTradeId ?_
    split at htrades
    · rwa [PriorityBook.trades_restResidual] at htrades
    · exact htrades
  obtain ⟨L, vacant, hrepr, hs⟩ := h
  have hreach : ∀ p, crossesLimit side p price = reaches side (some price) p := fun _ => rfl
  rw [← hr] at htaken
  obtain ⟨stopped, hcross⟩ := cross_idle hrepr hs (limitOrder id side price qty account)
    (some price) seq [] (crossesLimit side) hreach htaken
  have hside : (limitOrder id side price qty account).side = side := rfl
  have hprice : (limitOrder id side price qty account).price = price := rfl
  rw [matchAndRest, hside, hprice, hcross, ok_bind] at heq
  dsimp only at heq
  by_cases hmay : (tif == .gtc && !stopped) = true ∧ (limitOrder id side price qty account).qty > 0
  · rw [if_pos hmay] at heq
    have hne : qty ≠ 0 := UInt32.pos_iff_ne_zero.mp hmay.2
    cases vacant with
    | nil =>
      obtain ⟨levels', hfull, hlevels⟩ := rest_full_frame hrepr side price
        (limitOrder id side price qty account) seq
      rw [hfull, ok_bind] at heq
      have hb' : b.setLevels side levels' = b' := (Prod.mk.inj (Except.ok.inj heq)).1
      rw [← hb']
      exact SameState.setLevels hrepr hlevels
    | cons i vacant =>
      -- there is room, so the order rests
      obtain ⟨b₁, _, _, hroom, -⟩ := rest_room hrepr hs
        (limitOrder id side price qty account) hne rfl hid seq
      rw [hside, hprice] at hroom
      rw [hroom, ok_bind] at heq
      have hres := (Prod.mk.inj (Except.ok.inj heq)).2
      rw [← hres] at hrest
      exact absurd hrest hne
  · rw [if_neg hmay] at heq
    have hb' : b = b' := (Prod.mk.inj (Except.ok.inj heq)).1
    rw [← hb']
    exact SameState.refl b

/-! ## Commands -/

/-- A limit order without effect. -/
theorem addLimitOrder_noEffect (h : b.Represents s) {id : OrderId} {price : Price} {qty : Qty}
    {account : Account} {tif : TimeInForce} {res : AddResult}
    (heq : b.addLimitOrder {} id side price qty account tif = .ok (b', res))
    (hno : NoEffect (.added res)) : b.tick.SameState b' := by
  rw [addLimitOrder_eq_of_represents h] at heq
  have hturned : ∀ r : AddResult, Except.ok (b.tick, r) = (.ok (b', res) : Checked _) →
      b.tick.SameState b' := by
    intro r heq
    have hb' : b.tick = b' := (Prod.mk.inj (Except.ok.inj heq)).1
    rw [← hb']
    exact SameState.refl b.tick
  by_cases hbad : qty = 0 ∨ id ∈ s.ids
  · rw [if_pos hbad] at heq
    exact hturned _ heq
  rw [if_neg hbad] at heq
  by_cases hfok : tif = .fok ∧ counter32 (s.available side (some price) account) < qty.toNat
  · rw [if_pos hfok] at heq
    exact hturned _ heq
  rw [if_neg hfok] at heq
  have hid : id ∉ s.tick.ids := fun hid => hbad (Or.inr hid)
  rcases hno with hrefused | ⟨htrades, hrest⟩
  · -- what gets this far is accepted
    obtain ⟨b₁, hspec, -⟩ := matchAndRest_spec h.tick hid side price qty account b.nextSeq tif
      rfl rfl
    rw [heq, Except.ok.injEq, Prod.mk.injEq] at hspec
    rw [hspec.2] at hrefused
    split at hrefused
    · rw [PriorityBook.restResidual] at hrefused
      split at hrefused <;> exact Bool.noConfusion hrefused
    · exact Bool.noConfusion hrefused
  · exact matchAndRest_idle h.tick hid side price qty account b.nextSeq tif heq htrades hrest

/-- A market order without effect. -/
theorem addMarketOrder_noEffect (h : b.Represents s) {id : OrderId} {qty : Qty}
    {account : Account} {res : AddResult}
    (heq : b.addMarketOrder {} id side qty account = .ok (b', res))
    (hno : NoEffect (.added res)) : b.tick.SameState b' := by
  obtain ⟨b₁, hspec, -⟩ := addMarketOrder_spec h {} id side qty account
  rw [heq, Except.ok.injEq, Prod.mk.injEq] at hspec
  obtain ⟨L, vacant, hrepr, hs⟩ := h
  have hturned : ∀ r : AddResult, Except.ok (b.tick, r) = (.ok (b', res) : Checked _) →
      b.tick.SameState b' := by
    intro r heq
    have hb' : b.tick = b' := (Prod.mk.inj (Except.ok.inj heq)).1
    rw [← hb']
    exact SameState.refl b.tick
  rw [addMarketOrder_eq, contains_spec hrepr hs] at heq
  rw [PriorityBook.addMarket] at hspec
  by_cases hq : qty = 0
  · rw [if_pos hq] at heq
    exact hturned _ heq
  by_cases hid : id ∈ s.ids
  · rw [if_neg hq, decide_eq_true hid] at heq
    exact hturned _ heq
  rw [if_neg hq, decide_eq_false hid] at heq
  rw [if_neg (not_or.mpr ⟨hq, hid⟩)] at hspec
  have hres := hspec.2
  dsimp only at hres
  rw [hres] at hno
  rcases hno with hrefused | ⟨htrades, -⟩
  · exact Bool.noConfusion hrefused
  · have htaken := PriorityBook.tradesOf_eq_nil _ _ _ htrades
    have hreach : ∀ p : Price, true = reaches side none p := fun _ => rfl
    obtain ⟨stopped, hcross⟩ := cross_idle hrepr.tick hs.tick
      { orderId := id, side, qty, account } none b.nextSeq [] (fun _ _ => true) hreach htaken
    simp only [ok_bind, Bool.false_eq_true, if_false, hcross] at heq
    exact hturned _ heq

/-- A cancel without effect. -/
theorem cancelOrder_noEffect (h : b.Represents s) {id : OrderId}
    (heq : b.cancelOrder id = .ok (b', false)) : b.tick.SameState b' := by
  obtain ⟨b₁, hspec, -⟩ := cancelOrder_spec h id
  rw [heq, Except.ok.injEq, Prod.mk.injEq] at hspec
  obtain ⟨L, vacant, hrepr, hs⟩ := h
  rcases find_cases hrepr hs id with ⟨hfind, -⟩ | ⟨i, o, -, -, -, -, hsome⟩
  · rw [cancelOrder_of_absent hfind, Except.ok.injEq, Prod.mk.injEq] at heq
    rw [← heq.1]
    exact SameState.refl b.tick
  · rw [PriorityBook.cancel, hsome] at hspec
    exact Bool.noConfusion hspec.2

/-- A modify that is turned down only takes a sequence number. -/
theorem modifyOrder_turned_down (h : b.Represents s) (hok : s.Ok) {id : OrderId} {price : Price}
    {qty : Qty} (heq : b.modifyOrder id price qty = .ok (b', false)) : b' = b.tick := by
  obtain ⟨b₁, hspec, -⟩ := modifyOrder_spec h hok id price qty
  rw [heq, Except.ok.injEq, Prod.mk.injEq] at hspec
  have hturned : b.modifyOrder id price qty = .ok (b.tick, false) → b' = b.tick := by
    intro hturned
    rw [hturned, Except.ok.injEq, Prod.mk.injEq] at heq
    exact heq.1.symm
  obtain ⟨L, vacant, hrepr, hs⟩ := h
  by_cases hq : qty = 0
  · subst hq
    exact hturned (modifyOrder_zero id price)
  rcases find_cases hrepr hs id with ⟨hfind, -⟩ | ⟨i, o, hi, ho, -, hfind, hsome⟩
  · exact hturned (modifyOrder_of_absent hq hfind)
  · rw [PriorityBook.modify, if_neg hq, hsome] at hspec
    have hprice : o.resting.price = o.price := rfl
    have hqty : o.resting.qty = o.qty := rfl
    have hside : o.resting.side = o.side := rfl
    simp only [hprice, hqty, hside] at hspec
    have hplace : ¬ (price = o.price ∧ qty ≤ o.qty) := by
      intro hplace
      rw [if_pos hplace] at hspec
      exact Bool.noConfusion hspec.2
    rw [if_neg hplace] at hspec
    have hcross : s.wouldTrade o.side price = true := by
      by_contra hcross
      rw [if_neg hcross] at hspec
      exact Bool.noConfusion hspec.2
    apply hturned
    have hwould : s.tick.wouldTrade o.side price = true := hcross
    rw [modifyOrder_of_find hq hfind (hrepr.pool.get_of_mem ho), if_neg hplace,
      wouldCross_spec hrepr.tick hs.tick hok.tick, ok_bind, hwould]
    rfl

/-- A modify without effect. -/
theorem modifyOrder_noEffect (h : b.Represents s) (hok : s.Ok) {id : OrderId} {price : Price}
    {qty : Qty} (heq : b.modifyOrder id price qty = .ok (b', false)) : b.tick.SameState b' := by
  rw [modifyOrder_turned_down h hok heq]
  exact SameState.refl b.tick

/-- **A command without effect leaves no trace** but the sequence number it took. -/
theorem noEffect_leaves_no_trace (b : Book) (hb : b.Reachable) (c : Command) :
    ∃ b' reply, b.exec c = .ok (b', reply) ∧ (NoEffect reply → b.tick.SameState b') := by
  obtain ⟨s, h, hok⟩ := hb.represents
  obtain ⟨b', heq, -⟩ := exec_spec h hok c
  refine ⟨b', _, heq, ?_⟩
  generalize (s.exec counter32 c).2 = reply at heq
  intro hno
  unfold exec at heq
  cases hkind : c.kind with
  | limit =>
    rw [hkind] at heq
    obtain ⟨⟨b₁, res⟩, hadd, hret⟩ := bind_eq_ok.mp heq
    obtain ⟨rfl, rfl⟩ := Prod.mk.inj (Except.ok.inj hret)
    exact addLimitOrder_noEffect h hadd hno
  | market =>
    rw [hkind] at heq
    obtain ⟨⟨b₁, res⟩, hadd, hret⟩ := bind_eq_ok.mp heq
    obtain ⟨rfl, rfl⟩ := Prod.mk.inj (Except.ok.inj hret)
    exact addMarketOrder_noEffect h hadd hno
  | cancel =>
    rw [hkind] at heq
    obtain ⟨⟨b₁, ok⟩, hcancel, hret⟩ := bind_eq_ok.mp heq
    obtain ⟨rfl, rfl⟩ := Prod.mk.inj (Except.ok.inj hret)
    have hfalse : ok = false := hno
    rw [hfalse] at hcancel
    exact cancelOrder_noEffect h hcancel
  | modify =>
    rw [hkind] at heq
    obtain ⟨⟨b₁, ok⟩, hmodify, hret⟩ := bind_eq_ok.mp heq
    obtain ⟨rfl, rfl⟩ := Prod.mk.inj (Except.ok.inj hret)
    have hfalse : ok = false := hno
    rw [hfalse] at hmodify
    exact modifyOrder_noEffect h hok hmodify

/-- An order that does not cross, with the only slot taken. -/
theorem noEffect_leaves_no_trace_full :
    ∃ b', (after 1 [limitCommand 1 .buy 5 7 1]).exec (limitCommand 2 .buy 4 7 1) =
        .ok (b', .added { accepted := true, poolExhausted := true }) ∧
      (after 1 [limitCommand 1 .buy 5 7 1]).tick.SameState b' := by
  have hreply : Except.map Prod.snd
      ((after 1 [limitCommand 1 .buy 5 7 1]).exec (limitCommand 2 .buy 4 7 1)) =
        .ok (.added { accepted := true, poolExhausted := true }) := by decide +kernel
  obtain ⟨b', reply, heq, hsame⟩ := noEffect_leaves_no_trace _
    (reachable_after 1 [limitCommand 1 .buy 5 7 1]) (limitCommand 2 .buy 4 7 1)
  rw [heq] at hreply
  obtain rfl : reply = .added { accepted := true, poolExhausted := true } :=
    Except.ok.inj hreply
  exact ⟨b', heq, hsame (Or.inr ⟨rfl, rfl⟩)⟩

end Book

end MatchingEngine
