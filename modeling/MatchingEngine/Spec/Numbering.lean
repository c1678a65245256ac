import MatchingEngine.Spec.Priority
import MatchingEngine.Spec.Ledger

/-!
# Numbers

What the sequence numbers and the trade numbers of a book say about its history
(`Numbered`): a sequence number is the position of a command, and a trade number the position
of a trade. Trades and resting orders together are no more than the commands so far
(`Effect.count`), so the one counter cannot wrap around before the other.
-/

namespace MatchingEngine

open PriorityList

/-- The commands of a run, each with what was seen of it. -/
abbrev History := List (Command × Observed)

/-- All trades of a history. -/
def History.trades (h : History) : List Trade := h.flatMap fun p => p.2.1.trades

/-- The orders shown before the `k`-th command. -/
def History.shownBefore (h : History) (k : ℕ) : List RestingOrder :=
  match (h.take k).getLast? with
  | some p => p.2.2
  | none => []

/-- A command that puts the order `id` at its place: it comes to rest, or is repositioned. -/
def Places (l : List RestingOrder) (c : Command) (reply : Reply) (id : OrderId) : Prop :=
  (c.id = id ∧ ∃ r, reply = .added r ∧ r.restingQty ≠ 0) ∨ Repositions l c reply id

/-- The `k`-th command was the last one to put the order `id` at its place. -/
structure History.LastPlaced (h : History) (id : OrderId) (k : ℕ) : Prop where
  places : ∃ p, h[k]? = some p ∧ Places (h.shownBefore k) p.1 p.2.1 id
  last : ∀ j p, k < j → h[j]? = some p → ¬ Places (h.shownBefore j) p.1 p.2.1 id

namespace PriorityBook

variable {s s' : PriorityBook} {c : Command} {o : RestingOrder} {id : OrderId} {reply : Reply}

/-! ## One command -/

/-- A command that fails places nothing. -/
theorem not_places_flag {l : List RestingOrder} : ¬ Places l c (.flag false) id := by
  intro hplaces
  rcases hplaces with ⟨-, r, hr, -⟩ | hrep
  · cases hr
  · cases hrep.2.2.1

/-- An order that does not rest is not placed. -/
theorem not_places_added {l : List RestingOrder} {r : AddResult} (hr : r.restingQty = 0) :
    ¬ Places l c (.added r) id := by
  intro hplaces
  rcases hplaces with ⟨-, r', hr', hne⟩ | hrep
  · obtain rfl := Reply.added.inj hr'
    exact hne hr
  · cases hrep.2.2.1

/-- A command of another id places nothing. -/
theorem not_places_of_ne {l : List RestingOrder} (hid : c.id ≠ id) : ¬ Places l c reply id := by
  intro hplaces
  rcases hplaces with ⟨heq, -⟩ | hrep
  · exact hid heq
  · exact hid hrep.2.1

/-- An order of the book before, up to its quantity. -/
theorem exists_of_identities (hsub : ∀ side, (s'.identities side).Sublist (s.identities side))
    (ho : o ∈ s'.orders) : ∃ o₀ ∈ s.orders, o₀.identity = o.identity := by
  obtain ⟨side, ho⟩ := mem_orders.mp ho
  obtain ⟨o₀, ho₀, heq⟩ := List.mem_map.mp ((hsub side).subset (mem_identities ho))
  exact ⟨o₀, mem_orders.mpr ⟨side, ho₀⟩, heq⟩

theorem mem_ids_of_identity {o₀ : RestingOrder} (ho₀ : o₀ ∈ s.orders)
    (heq : o₀.identity = o.identity) : o.orderId ∈ s.ids := by
  have hid : o₀.orderId = o.orderId :=
    RestingOrder.eq_of_identity RestingOrder.orderId (fun _ => rfl) heq
  exact mem_ids.mpr ⟨o₀, ho₀, hid⟩

/-- **An order that rests** is an old one, or was put at its place by the command. -/
theorem Effect.old_or_placed (h : s.Ok) (heff : Effect s c s' reply) (ho : o ∈ s'.orders) :
    (∃ o₀ ∈ s.orders, o₀.identity = o.identity) ∧ ¬ Places s.orders c reply o.orderId ∨
      Places s.orders c reply o.orderId ∧ o.seqNo = s.nextSeq := by
  have hswept := exists_of_identities (Effect.identities_swept s c) (o := o)
  cases heff with
  | refused => exact Or.inl ⟨⟨o, ho, rfl⟩, not_places_added rfl⟩
  | killed => exact Or.inl ⟨⟨o, ho, rfl⟩, not_places_added rfl⟩
  | matched => exact Or.inl ⟨hswept ho, not_places_added rfl⟩
  | exhausted => exact Or.inl ⟨hswept ho, not_places_added rfl⟩
  | ignored => exact Or.inl ⟨⟨o, ho, rfl⟩, not_places_flag⟩
  | rested hq hid hrest =>
    rw [(orders_insert _ _).mem_iff, List.mem_cons] at ho
    -- the residual, or an order that the sweep left
    rcases ho with rfl | ho
    · have hne : (s.residual c).qty ≠ 0 := ofNat_unmet_ne hrest.unmet
      exact Or.inr ⟨Or.inl ⟨rfl, _, rfl, hne⟩, rfl⟩
    · obtain ⟨o₀, ho₀, heq⟩ := hswept ho
      refine Or.inl ⟨⟨o₀, ho₀, heq⟩, not_places_of_ne fun hc => hid ?_⟩
      rw [hc]
      exact mem_ids_of_identity ho₀ heq
  | cancelled o₁ hkind =>
    refine Or.inl ⟨exists_of_identities (identities_remove s.tick o₁) ho, fun hplaces => ?_⟩
    rcases hplaces with ⟨-, r, hr, -⟩ | hrep
    · cases hr
    · cases hkind.symm.trans hrep.1
  | reduced o₁ hkind hfind hq hprice hle =>
    -- a reduction in place is no repositioning
    have hsub : ∀ side, ((s.tick.setQty o₁ c.qty).identities side).Sublist (s.identities side) := by
      intro side
      rw [identities_setQty]
      exact List.Sublist.refl _
    refine Or.inl ⟨exists_of_identities hsub ho, fun hplaces => ?_⟩
    rcases hplaces with ⟨-, r, hr, -⟩ | ⟨-, hid, -, hrep⟩
    · cases hr
    · obtain ⟨ho₁, hid₁⟩ := mem_of_find hfind
      exact hrep o₁ ho₁ (hid₁.trans hid) ⟨hprice, hle⟩
  | moved o₁ hkind hfind hq hplace =>
    obtain ⟨ho₁, hid₁⟩ := mem_of_find hfind
    rw [(orders_insert _ _).mem_iff, List.mem_cons] at ho
    -- the order that moved, or one that stayed
    rcases ho with rfl | ho
    · refine Or.inr ⟨Or.inr ⟨hkind, hid₁.symm, rfl, fun o₂ ho₂ hid₂ => ?_⟩, rfl⟩
      have hsame : o₂ = o₁ := h.eq_of_orderId ho₂ ho₁ hid₂
      rw [hsame]
      exact hplace
    · refine Or.inl ⟨exists_of_identities (identities_remove s.tick o₁) ho,
        not_places_of_ne fun hc => ?_⟩
      refine notMem_ids_remove h.tick ho₁ (mem_ids.mpr ⟨o, ho, ?_⟩)
      rw [← hc, hid₁]

/-- A sweep takes an order out of the book for every trade but the last, if that one ends it. -/
theorem count_swept (s : PriorityBook) (c : Command) :
    (s.tradesOfSweep c).length + (s.swept c).orders.length ≤ s.orders.length + 1 ∧
      (0 < (s.sweepOf c).unmet →
        (s.tradesOfSweep c).length + (s.swept c).orders.length = s.orders.length) := by
  have htrades : (s.tradesOfSweep c).length = (s.sweepOf c).taken.length := length_tradesOf
  have hbefore := (orders_perm s c.side).length_eq
  have hafter := (orders_perm (s.swept c) c.side).length_eq
  have hqueue : (s.swept c).resting c.side.opposite = (s.sweepOf c).queue :=
    resting_afterSweep s.tick c.side (s.sweepOf c)
  have hown : (s.swept c).resting c.side = s.resting c.side :=
    resting_afterSweep_of_ne (Side.opposite_ne c.side).symm (s.sweepOf c)
  have hsweep : (s.sweepOf c).taken.length + (s.sweepOf c).queue.length ≤
        (s.resting c.side.opposite).length + 1 ∧
      (0 < (s.sweepOf c).unmet → (s.sweepOf c).taken.length + (s.sweepOf c).queue.length =
        (s.resting c.side.opposite).length) := Greedy.length_sweep
  rw [List.length_append] at hbefore hafter
  rw [hqueue, hown] at hafter
  refine ⟨by omega, fun hunmet => ?_⟩
  have heq := hsweep.2 hunmet
  omega

/-- **Trades and resting orders** grow by one at most. -/
theorem Effect.count (h : s.Ok) (heff : Effect s c s' reply) :
    reply.trades.length + s'.orders.length ≤ s.orders.length + 1 := by
  have hcount := count_swept s c
  have hnone : ([] : List Trade).length = 0 := rfl
  cases heff with
  | refused | killed | ignored =>
    show ([] : List Trade).length + s.orders.length ≤ _
    omega
  | matched | exhausted => exact hcount.1
  | rested hq hid hrest =>
    -- a residual is left, so no trade left its maker behind
    have hins := (orders_insert (s.swept c) (s.residual c)).length_eq
    have heq := hcount.2 hrest.unmet
    rw [List.length_cons] at hins
    show (s.tradesOfSweep c).length + _ ≤ _
    omega
  | cancelled o₁ hkind hfind =>
    have hlt : (s.tick.remove o₁).orders.length < s.orders.length :=
      length_remove_lt h.tick (mem_of_find hfind).1
    show ([] : List Trade).length + _ ≤ _
    omega
  | reduced o₁ hkind hfind =>
    have hset := (orders_setQty h.tick (mem_of_find hfind).1 c.qty).length_eq
    have hremove := (orders_remove h.tick (mem_of_find hfind).1).length_eq
    rw [List.length_cons, orders_tick] at hremove
    rw [List.length_cons] at hset
    show ([] : List Trade).length + _ ≤ _
    omega
  | moved o₁ hkind hfind =>
    have hins := (orders_insert (s.tick.remove o₁) (s.modified o₁ c)).length_eq
    have hlt : (s.tick.remove o₁).orders.length < s.orders.length :=
      length_remove_lt h.tick (mem_of_find hfind).1
    rw [List.length_cons] at hins
    show ([] : List Trade).length + _ ≤ _
    omega

theorem add_ofNat_succ (a : UInt64) (i : ℕ) :
    a + UInt64.ofNat (i + 1) = a + 1 + UInt64.ofNat i := by
  have hone : UInt64.ofNat 1 = 1 := rfl
  rw [UInt64.ofNat_add, UInt64.add_comm (UInt64.ofNat i), ← UInt64.add_assoc, hone]

/-- The trades of a command carry its number, and are numbered on. -/
theorem tradesOf_numbers (taker : OrderId) (seq : SeqNo) (taken : List (RestingOrder × ℕ)) :
    ∀ tradeId, (∀ t ∈ tradesOf taker seq tradeId taken, t.seqNo = seq) ∧
      (tradesOf taker seq tradeId taken).map (·.tradeId) =
        (List.range taken.length).map fun i => tradeId + UInt64.ofNat i := by
  induction taken with
  | nil => exact fun _ => ⟨fun t ht => absurd ht List.not_mem_nil, rfl⟩
  | cons p taken ih =>
    intro tradeId
    obtain ⟨hseq, hids⟩ := ih (tradeId + 1)
    rw [tradesOf]
    refine ⟨List.forall_mem_cons.mpr ⟨rfl, hseq⟩, ?_⟩
    have hzero : tradeId + UInt64.ofNat 0 = tradeId := UInt64.add_zero tradeId
    rw [List.map_cons, hids, List.length_cons, List.range_succ_eq_map, List.map_cons, List.map_map,
      hzero]
    congr 1
    refine List.map_congr_left fun i _ => ?_
    exact (add_ofNat_succ tradeId i).symm

/-- The trades of a command have its number, and the next trade numbers. -/
theorem Effect.numbers (heff : Effect s c s' reply) :
    (∀ t ∈ reply.trades, t.seqNo = s.nextSeq) ∧
      reply.trades.map (·.tradeId) =
        (List.range reply.trades.length).map (fun i => s.nextTradeId + UInt64.ofNat i) ∧
      s'.nextTradeId = s.nextTradeId + UInt64.ofNat reply.trades.length ∧
      s'.nextSeq = s.nextSeq + 1 := by
  have hidle : (∀ t ∈ ([] : List Trade), t.seqNo = s.nextSeq) ∧
      ([] : List Trade).map (·.tradeId) =
        (List.range ([] : List Trade).length).map (fun i => s.nextTradeId + UInt64.ofNat i) ∧
      s.nextTradeId = s.nextTradeId + UInt64.ofNat ([] : List Trade).length ∧
      s.nextSeq + 1 = s.nextSeq + 1 :=
    ⟨fun t ht => absurd ht List.not_mem_nil, rfl, (UInt64.add_zero _).symm, rfl⟩
  have hlen : (s.tradesOfSweep c).length = (s.sweepOf c).taken.length := length_tradesOf
  have hsweep : (∀ t ∈ s.tradesOfSweep c, t.seqNo = s.nextSeq) ∧
      (s.tradesOfSweep c).map (·.tradeId) = (List.range (s.tradesOfSweep c).length).map
        (fun i => s.nextTradeId + UInt64.ofNat i) ∧
      (s.swept c).nextTradeId = s.nextTradeId + UInt64.ofNat (s.tradesOfSweep c).length ∧
      (s.swept c).nextSeq = s.nextSeq + 1 := by
    obtain ⟨hseq, hids⟩ := tradesOf_numbers c.id s.nextSeq (s.sweepOf c).taken s.nextTradeId
    rw [hlen]
    exact ⟨hseq, hids, rfl, rfl⟩
  cases heff with
  | refused | killed | ignored | cancelled | reduced | moved => exact hidle
  | matched | exhausted | rested => exact hsweep

end PriorityBook

/-! ## Histories -/

namespace History

variable {h : History} {p : Command × Observed} {id : OrderId} {k : ℕ}

theorem trades_concat (h : History) (p : Command × Observed) :
    (h ++ [p] : History).trades = h.trades ++ p.2.1.trades := by
  unfold trades
  rw [List.flatMap_append, List.flatMap_cons, List.flatMap_nil, List.append_nil]

theorem shownBefore_concat (hk : k ≤ h.length) (p : Command × Observed) :
    (h ++ [p] : History).shownBefore k = h.shownBefore k := by
  unfold shownBefore
  rw [List.take_append_of_le_length hk]

theorem shownBefore_last (h : History) (p : Command × Observed) :
    (h ++ [p] : History).shownBefore (h ++ [p]).length = p.2.2 := by
  unfold shownBefore
  rw [List.take_length, List.getLast?_concat]

/-- An entry of a history is an old one or the last one. -/
theorem getElem?_concat {j : ℕ} {q : Command × Observed}
    (hq : (h ++ [p] : History)[j]? = some q) :
    j < h.length ∧ h[j]? = some q ∨ j = h.length ∧ q = p := by
  rcases lt_trichotomy j h.length with hlt | heq | hgt
  · rw [List.getElem?_append_left hlt] at hq
    exact Or.inl ⟨hlt, hq⟩
  · rw [heq, List.getElem?_concat_length, Option.some_inj] at hq
    exact Or.inr ⟨heq, hq.symm⟩
  · have hlen : (h ++ [p]).length ≤ j := by
      rw [List.length_append, List.length_singleton]
      omega
    rw [List.getElem?_eq_none hlen] at hq
    cases hq

/-- A command that does not place the order leaves the last placement what it was. -/
theorem LastPlaced.concat (hlast : h.LastPlaced id k)
    (hno : ¬ Places (h.shownBefore h.length) p.1 p.2.1 id) :
    (h ++ [p] : History).LastPlaced id k where
  places := by
    obtain ⟨p₀, hp₀, hplaces⟩ := hlast.places
    have hk : k < h.length := (List.getElem?_eq_some_iff.mp hp₀).1
    refine ⟨p₀, ?_, ?_⟩
    · rw [List.getElem?_append_left hk, hp₀]
    · rw [shownBefore_concat hk.le]
      exact hplaces
  last := by
    intro j q hj hq
    rcases getElem?_concat hq with ⟨hlt, hq⟩ | ⟨heq, hqp⟩
    · rw [shownBefore_concat hlt.le]
      exact hlast.last j q hj hq
    · rw [heq, hqp, shownBefore_concat le_rfl]
      exact hno

/-- A command that places the order is the last one to do so. -/
theorem LastPlaced.here (hplaces : Places (h.shownBefore h.length) p.1 p.2.1 id) :
    (h ++ [p] : History).LastPlaced id h.length where
  places := by
    refine ⟨p, List.getElem?_concat_length, ?_⟩
    rw [shownBefore_concat le_rfl]
    exact hplaces
  last := by
    intro j q hj hq
    rcases getElem?_concat hq with ⟨hlt, -⟩ | ⟨heq, -⟩
    · omega
    · omega

end History

/-- **What the numbers of a book say** about its history. -/
structure Numbered (h : History) (s : PriorityBook) : Prop where
  ok : s.Ok
  shown : h.shownBefore h.length = s.orders
  nextSeq : s.nextSeq = UInt64.ofNat h.length
  nextTradeId : s.nextTradeId = UInt64.ofNat h.trades.length
  count : h.trades.length + s.orders.length ≤ h.length
  seqNo : ∀ k p, h[k]? = some p → ∀ t ∈ p.2.1.trades, t.seqNo = UInt64.ofNat k
  tradeId : h.trades.map (·.tradeId) = (List.range h.trades.length).map UInt64.ofNat
  placed : ∀ o ∈ s.orders, ∃ k, o.seqNo = UInt64.ofNat k ∧ h.LastPlaced o.orderId k

theorem numbered_new (capacity : ℕ) : Numbered [] (.new capacity) where
  ok := PriorityBook.ok_new capacity
  shown := rfl
  nextSeq := rfl
  nextTradeId := rfl
  count := le_rfl
  seqNo _ _ hp := nomatch hp
  tradeId := rfl
  placed _ ho := absurd ho List.not_mem_nil

/-- **Every command** keeps the numbers right. -/
theorem Numbered.step {h : History} {s : PriorityBook} (hn : Numbered h s) (c : Command) :
    Numbered (h ++ [(c, (s.observe c).2)]) (s.observe c).1 := by
  have heff := PriorityBook.exec_effect hn.ok counter32 c
  obtain ⟨hseq, hids, hnextTrade, hnextSeq⟩ := heff.numbers
  have hcount := heff.count hn.ok
  have hlen : (h ++ [(c, (s.observe c).2)]).length = h.length + 1 := by
    rw [List.length_append, List.length_singleton]
  have htrades : (h ++ [(c, (s.observe c).2)] : History).trades =
      h.trades ++ (s.exec counter32 c).2.trades := h.trades_concat _
  have hcount' := hn.count
  refine ⟨hn.ok.exec counter32 c, History.shownBefore_last _ _, ?_, ?_, ?_, ?_, ?_, ?_⟩
  -- the counters
  · show (s.exec counter32 c).1.nextSeq = _
    rw [hnextSeq, hn.nextSeq, hlen, UInt64.ofNat_add]
    rfl
  · show (s.exec counter32 c).1.nextTradeId = _
    rw [hnextTrade, hn.nextTradeId, htrades, List.length_append, UInt64.ofNat_add]
  · show _ + (s.exec counter32 c).1.orders.length ≤ _
    rw [htrades, hlen, List.length_append]
    omega
  -- the numbers of the trades
  · intro k p hp t ht
    rcases History.getElem?_concat hp with ⟨-, hp⟩ | ⟨hk, hpc⟩
    · exact hn.seqNo k p hp t ht
    · rw [hpc] at ht
      rw [hseq t ht, hn.nextSeq, hk]
  · rw [htrades, List.map_append, hn.tradeId, hids, List.length_append, List.range_add,
      List.map_append, List.map_map]
    congr 1
    refine List.map_congr_left fun i _ => ?_
    show s.nextTradeId + UInt64.ofNat i = UInt64.ofNat (h.trades.length + i)
    rw [hn.nextTradeId, UInt64.ofNat_add]
  · intro o ho
    rcases heff.old_or_placed hn.ok ho with ⟨⟨o₀, ho₀, hsame⟩, hno⟩ | ⟨hplaces, hnow⟩
    · -- an old order keeps its number
      obtain ⟨k, hk, hlast⟩ := hn.placed o₀ ho₀
      have hid : o₀.orderId = o.orderId :=
        RestingOrder.eq_of_identity RestingOrder.orderId (fun _ => rfl) hsame
      have hsq : o₀.seqNo = o.seqNo :=
        RestingOrder.eq_of_identity RestingOrder.seqNo (fun _ => rfl) hsame
      rw [hid] at hlast
      rw [← hn.shown] at hno
      exact ⟨k, hsq.symm.trans hk, hlast.concat hno⟩
    · rw [← hn.shown] at hplaces
      exact ⟨h.length, hnow.trans hn.nextSeq, History.LastPlaced.here hplaces⟩

end MatchingEngine
