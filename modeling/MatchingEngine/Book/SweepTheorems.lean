import MatchingEngine.Book.BookTheorems
import MatchingEngine.Spec.PriorityBook

/-!
# Matching — the nested sweep is greedy

The two loops of `cross` consume the opposite side, seen as one queue of resting orders in
priority order, exactly as `Greedy.sweep` does.

* `fillMaker_full` and `fillMaker_partial` are the two kinds of one trade.
* `sweepLevel_spec` is the inner loop, by induction on the slots of the level.
* `sweepLevels_spec` is the outer loop, by induction on the ladder.

Between two trades the pool is laid out as `Sweep.Inv` says: a chain at the current level,
which may be empty, and everything else elsewhere, among `others`.
-/

namespace MatchingEngine

open FixedPool IntrusiveList

/-! ## Trades -/

/-- The trades of two sweeps, one behind the other, are numbered on. -/
theorem tradesOf_append (taker : OrderId) (seq : SeqNo) (xs ys : List (RestingOrder × ℕ)) :
    ∀ tradeId, tradesOf taker seq tradeId (xs ++ ys) = tradesOf taker seq tradeId xs ++
      tradesOf taker seq (tradeId + UInt64.ofNat xs.length) ys := by
  induction xs with
  | nil => intro tradeId; simp [tradesOf]
  | cons x xs ih =>
    intro tradeId
    have hlen : tradeId + UInt64.ofNat (x :: xs).length
        = tradeId + 1 + UInt64.ofNat xs.length := by
      rw [List.length_cons, UInt64.ofNat_add, UInt64.add_assoc]
      congr 1
      exact UInt64.add_comm _ _
    rw [List.cons_append, tradesOf, tradesOf, ih, hlen]
    rfl

namespace Book

/-! ## What a sweep writes -/

/-- The sweep did `r`: it made the trades, counted them and reduced the taker. -/
structure Sweep.Did (seq : SeqNo) (s s' : Sweep) (r : Greedy.Outcome RestingOrder) : Prop where
  incoming : s'.incoming = { s.incoming with qty := UInt32.ofNat r.unmet }
  trades : s'.trades = s.trades ++ tradesOf s.incoming.orderId seq s.nextTradeId r.taken
  nextTradeId : s'.nextTradeId = s.nextTradeId + UInt64.ofNat r.taken.length

namespace Sweep.Did

variable {seq : SeqNo} {s s' s'' : Sweep} {r r' : Greedy.Outcome RestingOrder}

/-- A sweep that trades nothing. -/
theorem none (s : Sweep) (queue : List RestingOrder) (stopped : Bool) :
    Did seq s s ⟨[], queue, s.incoming.qty.toNat, stopped⟩ :=
  ⟨by simp, by simp [tradesOf], by simp⟩

/-- One part of a sweep after another. -/
theorem trans (h : Did seq s s' r) (h' : Did seq s' s'' r') :
    Did seq s s'' { r' with taken := r.taken ++ r'.taken } where
  incoming := by rw [h'.incoming, h.incoming]
  trades := by
    have hid : s'.incoming.orderId = s.incoming.orderId := by rw [h.incoming]
    rw [h'.trades, h.trades, h.nextTradeId, hid, List.append_assoc, ← tradesOf_append]
  nextTradeId := by
    rw [h'.nextTradeId, h.nextTradeId, List.length_append, UInt64.ofNat_add, UInt64.add_assoc]

/-- Only the trades and the rest of the demand matter. -/
theorem congr (h : Did seq s s' r) (ht : r'.taken = r.taken) (hu : r'.unmet = r.unmet) :
    Did seq s s' r' := ⟨by rw [h.incoming, hu], by rw [h.trades, ht], by rw [h.nextTradeId, ht]⟩

end Sweep.Did

/-- The pool and the id map while a level is swept: its chain is `xs`, and the slots in use
elsewhere are `others`. -/
structure Sweep.Inv (s : Sweep) (side : Side) (price : Price) (xs others vacant : List Index) :
    Prop where
  pool : s.pool.Repr vacant (xs ++ others)
  index : Indexed s.pool s.idMap (xs ++ others)
  chain : Chain s.pool side price xs

section Level

variable (seq : SeqNo) {s : Sweep} {side : Side} {price : Price} {i : Index} {maker : Order}
  {xs ys others vacant : List Index}

theorem notMem_of_nodup (h : (i :: (ys ++ others)).Nodup) :
    i ∉ ys ∧ i ∉ others := by
  rw [List.nodup_cons, List.mem_append, not_or] at h
  exact h.1

/-- **A trade that fills the maker** takes it out of the level, the id map and the pool. -/
theorem fillMaker_full (h : s.Inv side price (i :: ys) others vacant)
    (hm : s.pool.value? i = some maker) (hle : maker.qty.toNat ≤ s.incoming.qty.toNat) :
    ∃ s', fillMaker seq (.ofList price (i :: ys)) s i maker = .ok (.ofList price ys, s') ∧
      Sweep.Did seq s s' ⟨[(maker.resting, maker.qty.toNat)], [],
        s.incoming.qty.toNat - maker.qty.toNat, false⟩ ∧
      s'.Inv side price ys others (i :: vacant) ∧
      (∀ j ∈ ys, s'.pool.restingAt j = s.pool.restingAt j) ∧
      (∀ j ∈ others, s'.pool.value? j = s.pool.value? j) ∧
      s'.pool.slots.size = s.pool.slots.size := by
  have hle' : maker.qty ≤ s.incoming.qty := UInt32.le_iff_toNat_le.mpr hle
  have hmin : min s.incoming.qty maker.qty = maker.qty := by
    rw [← UInt32.toNat_inj, toNat_min, Nat.min_eq_right hle]
  obtain ⟨hiy, hio⟩ := notMem_of_nodup h.pool.nodup_used
  have hused : i ∈ i :: ys ++ others := by simp
  -- the maker with its quantity taken, still linked
  obtain ⟨emptied, hemptied⟩ : ∃ o : Order, { maker with qty := maker.qty - maker.qty } = o :=
    ⟨_, rfl⟩
  have hp₁ := h.pool.setValue (v := emptied) hused
  have hi₁ := h.index.setValue hm (show emptied.orderId = maker.orderId from hemptied ▸ rfl)
  have hv₁ : ∀ j, j ≠ i → (s.pool.setValue i emptied).value? j = s.pool.value? j :=
    fun j hj => value?_setValue_of_ne hj
  have hlist₁ : IsList (s.pool.setValue i emptied).nxt (s.pool.setValue i emptied).prv kNilIndex
      ([] ++ i :: ys) := by
    rw [nxt_setValue hm (hemptied ▸ rfl), prv_setValue hm (hemptied ▸ rfl)]
    exact h.chain.list
  have hholds₁ : (s.pool.setValue i emptied).Holds ([] ++ i :: ys) := fun j hj =>
    hp₁.occupied j (List.mem_append_left _ hj)
  have hlive₁ : Live (s.pool.setValue i emptied) side price ys :=
    (h.chain.orders.mono fun j hj => List.mem_cons_of_mem _ hj).congr fun j hj =>
      hv₁ j (ne_of_mem_of_not_mem hj hiy)
  -- out of the level
  obtain ⟨p₂, heq₂, hr₂, hlist₂, hv₂, -⟩ := levelUnlink_ofList price hlist₁ hholds₁
  have hp₂ : p₂.Repr vacant ([] ++ i :: (ys ++ others)) := hr₂.repr hp₁
  obtain ⟨o₂, ho₂⟩ := hp₂.occupied i hused
  -- out of the id map
  have hid : HasId p₂ i maker.orderId := by
    obtain ⟨o', ho', he⟩ := hr₂.value? (value?_setValue_self (lt_of_value? hm))
    rw [HasId, ho', Option.map_some]
    have hrest := congrArg RestingOrder.orderId (Order.resting_congr he)
    exact congrArg some (hrest.trans (hemptied ▸ rfl))
  have hi₂ : Indexed p₂ s.idMap ([] ++ i :: (ys ++ others)) := hi₁.relinks hr₂
  obtain ⟨m', heq₃, hi₃⟩ := hi₂.erase hp₂.nodup_used hid
  replace hi₃ : Indexed p₂ m' (ys ++ others) := hi₃
  -- out of the pool
  obtain ⟨p₄, heq₄, hp₄, hv₄, hg₄, -, hsize₄⟩ := hp₂.free
  have hsame : ∀ j, j ≠ i → p₄.restingAt j = s.pool.restingAt j := fun j hj => by
    rw [restingAt_congr (hv₄ j hj), restingAt_relinks hr₂, restingAt_congr (hv₁ j hj)]
  have hleft : s.incoming.qty - maker.qty
      = UInt32.ofNat (s.incoming.qty.toNat - maker.qty.toNat) := by
    rw [← UInt32.toNat_inj, UInt32.toNat_sub_of_le _ _ hle',
      toNat_ofNat_qty (a := s.incoming.qty) (Nat.sub_le _ _)]
  refine ⟨⟨p₄, m', s.nextTradeId + 1, { s.incoming with qty := s.incoming.qty - maker.qty },
      s.trades ++ [⟨maker.orderId, s.incoming.orderId, maker.price, maker.qty,
        s.nextTradeId, seq⟩]⟩, ?_, ⟨?_, ?_, rfl⟩, ⟨hp₄, ?_, ?_⟩, ?_, ?_, ?_⟩
  · have hzero : maker.qty - maker.qty = 0 := UInt32.sub_self _
    simp only [fillMaker, hmin, modify_of_value? hm, ok_bind, hemptied, if_pos hzero]
    rw [show Level.ofList price (i :: ys) = Level.ofList price ([] ++ i :: ys) from rfl, heq₂]
    simp only [ok_bind, heq₃, handleOf_of_value? ho₂, heq₄]
    rfl
  · simp only [hleft]
  · simp [tradesOf, Order.resting]
  · refine hi₃.congr (fun j hj id => ?_) (fun j hj => ?_) hsize₄
    · have hji : j ≠ i := by
        rintro rfl
        exact (List.mem_append.mp hj).elim hiy hio
      rw [HasId, HasId, hv₄ j hji]
    · refine hg₄ j ?_
      rintro rfl
      exact (List.mem_append.mp hj).elim hiy hio
  · refine Chain.congr ⟨hlist₂, hlive₁.relinks hr₂⟩ fun j hj => hv₄ j ?_
    exact ne_of_mem_of_not_mem hj hiy
  · exact fun j hj => hsame j (ne_of_mem_of_not_mem hj hiy)
  · intro j hj
    have hji := ne_of_mem_of_not_mem hj hio
    have hjy : j ∉ [] ++ i :: ys := by
      have hnd := (List.nodup_append.mp h.pool.nodup_used).2.2
      exact fun hmem => hnd j hmem j hj rfl
    rw [hv₄ j hji, hv₂ j hjy, hv₁ j hji]
  · rw [hsize₄, hr₂.size, size_setValue]

/-- **A trade that does not fill the maker** reduces it in place and uses the taker up. -/
theorem fillMaker_partial (h : s.Inv side price (i :: ys) others vacant)
    (hm : s.pool.value? i = some maker) (hlt : s.incoming.qty.toNat < maker.qty.toNat) :
    ∃ s', fillMaker seq (.ofList price (i :: ys)) s i maker = .ok (.ofList price (i :: ys), s') ∧
      Sweep.Did seq s s' ⟨[(maker.resting, s.incoming.qty.toNat)], [], 0, false⟩ ∧
      s'.Inv side price (i :: ys) others vacant ∧
      s'.pool.restingAt i = maker.resting.reduce s.incoming.qty.toNat ∧
      (∀ j, j ≠ i → s'.pool.value? j = s.pool.value? j) ∧
      s'.pool.slots.size = s.pool.slots.size := by
  have hle' : s.incoming.qty ≤ maker.qty := UInt32.le_iff_toNat_le.mpr hlt.le
  have hmin : min s.incoming.qty maker.qty = s.incoming.qty := if_pos hle'
  have hne : maker.qty - s.incoming.qty ≠ 0 := fun e => by
    have := congrArg UInt32.toNat e
    rw [UInt32.toNat_sub_of_le _ _ hle', UInt32.toNat_zero] at this
    omega
  have hused : i ∈ i :: ys ++ others := by simp
  obtain ⟨reduced, hreduced⟩ : ∃ o : Order, { maker with qty := maker.qty - s.incoming.qty } = o :=
    ⟨_, rfl⟩
  refine ⟨{ s with
      pool := s.pool.setValue i reduced, nextTradeId := s.nextTradeId + 1,
      incoming := { s.incoming with qty := s.incoming.qty - s.incoming.qty },
      trades := s.trades ++ [⟨maker.orderId, s.incoming.orderId, maker.price, s.incoming.qty,
        s.nextTradeId, seq⟩] }, ?_, ⟨?_, ?_, rfl⟩, ⟨h.pool.setValue hused, ?_, ?_⟩, ?_,
    fun j hj => value?_setValue_of_ne hj, size_setValue⟩
  · simp only [fillMaker, hmin, modify_of_value? hm, ok_bind, hreduced, if_neg hne]
    rfl
  · simp only [UInt32.sub_self]
    rfl
  · simp [tradesOf, Order.resting]
  · exact h.index.setValue hm (hreduced ▸ rfl)
  · exact h.chain.setValue hm (hreduced ▸ rfl) (hreduced ▸ rfl) (hreduced ▸ rfl) (hreduced ▸ rfl)
      (hreduced ▸ hne)
  · rw [restingAt_of_value? (value?_setValue_self (lt_of_value? hm)), ← hreduced]
    simp [Order.resting, RestingOrder.reduce]

/-- A taker that is done leaves the level as it is. -/
theorem sweepLevel_of_done {fuel : ℕ} (level : Level) (hq : s.incoming.qty.toNat = 0) :
    sweepLevel seq (fuel + 1) level s = .ok (level, s, false) := by
  rw [sweepLevel, if_neg fun h => by rw [pos_iff_toNat, hq] at h; exact absurd h.1 (lt_irrefl 0)]
  rfl

/-- **The inner loop** sweeps the orders of its level. The induction follows the makers that
leave; after a trade that does not fill its maker the loop runs once more and ends. -/
theorem sweepLevel_spec (reach : RestingOrder → Bool) {account : Account}
    {r : Greedy.Outcome RestingOrder} :
    ∀ fuel (xs : List Index) (s : Sweep) (vacant : List Index), xs.length < fuel →
      s.incoming.account = account → s.Inv side price xs others vacant →
      (∀ i ∈ xs, reach (s.pool.restingAt i) = true) →
      RestingOrder.sweep reach account s.incoming.qty.toNat (xs.map s.pool.restingAt) = r →
      ∃ s' zs vacant', sweepLevel seq fuel (.ofList price xs) s
          = .ok (.ofList price zs, s', r.stopped) ∧
        Sweep.Did seq s s' r ∧ s'.Inv side price zs others vacant' ∧
        zs.map s'.pool.restingAt = r.queue ∧
        (∀ j ∈ others, s'.pool.value? j = s.pool.value? j) ∧
        s'.pool.slots.size = s.pool.slots.size := by
  intro fuel
  induction fuel generalizing r with
  | zero => intro xs _ _ h; omega
  | succ fuel ih =>
    intro xs s vacant hfuel hacc h hreach hr
    by_cases hq : s.incoming.qty.toNat = 0
    · -- the demand is met
      rw [hq, RestingOrder.sweep, Greedy.sweep_zero] at hr
      subst hr
      refine ⟨s, xs, vacant, sweepLevel_of_done seq _ hq, ?_, h, rfl, fun _ _ => rfl, rfl⟩
      exact (Sweep.Did.none s [] false).congr rfl hq.symm
    cases xs with
    | nil =>
      subst hr
      refine ⟨s, [], vacant, ?_, Sweep.Did.none s _ _, h, rfl, fun _ _ => rfl, rfl⟩
      rw [sweepLevel, if_neg fun hc => hc.2 rfl]
      rfl
    | cons i ys =>
      obtain ⟨maker, hm, -⟩ := h.chain.orders i List.mem_cons_self
      have hrest := restingAt_of_value? hm
      obtain ⟨hiy, hio⟩ := notMem_of_nodup h.pool.nodup_used
      have hnil : i ≠ kNilIndex := h.pool.ne_nil_of_mem (by simp)
      have hgo : s.incoming.qty > 0 ∧ (Level.ofList price (i :: ys)).head ≠ kNilIndex :=
        ⟨(pos_iff_toNat _).mpr (Nat.pos_of_ne_zero hq), hnil⟩
      have hhead : (Level.ofList price (i :: ys)).head = i := rfl
      have hri : reach maker.resting = true := hrest ▸ hreach i List.mem_cons_self
      rw [List.map_cons, hrest, RestingOrder.sweep] at hr
      rw [sweepLevel, if_pos hgo, hhead, unchecked_of_value? hm]
      simp only [ok_bind]
      by_cases hown : maker.account = s.incoming.account
      · -- a self-match
        have hbi : (fun o : RestingOrder => o.account == account) maker.resting = true :=
          beq_iff_eq.mpr (hown.trans hacc)
        rw [Greedy.sweep_cons_barred hq hri hbi] at hr
        subst hr
        refine ⟨s, i :: ys, vacant, ?_, Sweep.Did.none s _ _, h, ?_, fun _ _ => rfl, rfl⟩
        · rw [if_pos hown]
          rfl
        · rw [List.map_cons, hrest]
      have hbi : (fun o : RestingOrder => o.account == account) maker.resting = false :=
        beq_eq_false_iff_ne.mpr fun e => hown (e.trans hacc.symm)
      rw [if_neg hown]
      by_cases hle : maker.qty.toNat ≤ s.incoming.qty.toNat
      · -- the maker is filled
        obtain ⟨s₁, heq, hdid, hinv, hsame, hoth, hsize⟩ := fillMaker_full seq h hm hle
        have hq₁ : s₁.incoming.qty.toNat = s.incoming.qty.toNat - maker.qty.toNat := by
          rw [hdid.incoming]
          exact toNat_ofNat_qty (a := s.incoming.qty) (Nat.sub_le _ _)
        have hacc₁ : s₁.incoming.account = account := by rw [hdid.incoming]; exact hacc
        have hmap : ys.map s₁.pool.restingAt = ys.map s.pool.restingAt := List.map_congr_left hsame
        obtain ⟨s', zs, vacant', heq', hdid', hinv', hqueue, hoth', hsize'⟩ :=
          ih ys s₁ (i :: vacant) (by simpa using hfuel) hacc₁ hinv
            (fun j hj => by rw [hsame j hj]; exact hreach j (List.mem_cons_of_mem _ hj)) rfl
        rw [Greedy.sweep_cons_full hq hri hbi hle] at hr
        rw [hq₁, hmap] at heq' hdid' hqueue
        subst hr
        refine ⟨s', zs, vacant', ?_, hdid.trans hdid', hinv', hqueue, fun j hj => ?_,
          hsize'.trans hsize⟩
        · rw [heq]
          exact heq'
        · rw [hoth' j hj, hoth j hj]
      · -- the taker is filled
        obtain ⟨s₁, heq, hdid, hinv, hred, hoth, hsize⟩ :=
          fillMaker_partial seq h hm (by omega)
        obtain ⟨fuel, rfl⟩ := Nat.exists_eq_add_one_of_ne_zero
          (show fuel ≠ 0 by rw [List.length_cons] at hfuel; omega)
        have hq₁ : s₁.incoming.qty.toNat = 0 := by rw [hdid.incoming]; rfl
        rw [Greedy.sweep_cons_part hq hri hbi (not_le.mp hle)] at hr
        subst hr
        refine ⟨s₁, i :: ys, vacant, ?_, hdid.congr rfl rfl, hinv, ?_, fun j hj => ?_, hsize⟩
        · rw [heq]
          exact sweepLevel_of_done seq _ hq₁
        · rw [List.map_cons, hred]
          congr 1
          exact List.map_congr_left fun j hj =>
            restingAt_congr (hoth j (ne_of_mem_of_not_mem hj hiy))
        · exact hoth j (ne_of_mem_of_not_mem hj hio)

end Level

/-! ## The outer loop -/

/-- The pool, the id map and the swept side between two levels of a sweep. -/
structure Sweep.SideInv (s : Sweep) (room : ℕ) (side : Side) (levels : PriceLevels) (L : Ladder)
    (others vacant : List Index) : Prop where
  pool : s.pool.Repr vacant (L.slots ++ others)
  index : Indexed s.pool s.idMap (L.slots ++ others)
  side : SideRepr s.pool room side levels L
  full : L.Full

section Side

variable (seq : SeqNo) {s : Sweep} {side : Side} {levels : PriceLevels} {L : Ladder}
  {others vacant : List Index} {room : ℕ} {crosses : Price → Price → Bool}

/-- A taker that is done leaves the levels as they are. -/
theorem sweepLevels_of_done {fuel : ℕ} (levels : PriceLevels) (hq : s.incoming.qty.toNat = 0) :
    sweepLevels crosses seq (fuel + 1) levels s = .ok (levels, s, false) := by
  rw [sweepLevels, if_neg fun h => by rw [pos_iff_toNat, hq] at h; exact absurd h.1 (lt_irrefl 0)]
  rfl

/-- The sweep of the best level, seen from its side: the other levels are as before. -/
theorem sweepBest_spec {account : Account} {limit price : Price} {xs : List Index} {B : Ladder}
    {r : Greedy.Outcome RestingOrder} (hacc : s.incoming.account = account)
    (h : s.SideInv room side levels ((price, xs) :: B) others vacant)
    (hc : crosses price limit = true)
    (hr : RestingOrder.sweep (fun o => crosses o.price limit) account s.incoming.qty.toNat
      (xs.map s.pool.restingAt) = r) :
    ∃ s' zs vacant', sweepLevel seq (s.pool.slots.size + 1) (.ofList price xs) s
        = .ok (.ofList price zs, s', r.stopped) ∧
      Sweep.Did seq s s' r ∧ s'.Inv side price zs (B.slots ++ others) vacant' ∧
      SideRepr s'.pool room side (levels.write B.length (.ofList price zs)) ((price, zs) :: B) ∧
      zs.map s'.pool.restingAt = r.queue ∧
      B.slots.map s'.pool.restingAt = B.slots.map s.pool.restingAt ∧
      (∀ j ∈ others, s'.pool.value? j = s.pool.value? j) ∧
      s'.pool.slots.size = s.pool.slots.size ∧ s'.incoming.qty.toNat = r.unmet := by
  have hchain : Chain s.pool side price xs := h.side.chain (A := [])
  have hreach : ∀ i ∈ xs, crosses (s.pool.restingAt i).price limit = true := fun i hi => by
    rw [hchain.price_restingAt hi]
    exact hc
  have hinv : s.Inv side price xs (B.slots ++ others) vacant :=
    ⟨by simpa using h.pool, by simpa using h.index, hchain⟩
  have hlen : xs.length < s.pool.slots.size + 1 := by
    have := hinv.pool.length_add
    rw [List.length_append] at this
    omega
  obtain ⟨s', zs, vacant', heq, hdid, hinv', hqueue, hoth, hsize⟩ :=
    sweepLevel_spec seq (fun o => crosses o.price limit) _ xs s vacant hlen hacc hinv hreach rfl
  rw [hr] at heq hdid hqueue
  have hB : ∀ i ∈ B.slots, s'.pool.value? i = s.pool.value? i := fun i hi =>
    hoth i (List.mem_append_left _ hi)
  refine ⟨s', zs, vacant', heq, hdid, hinv', ?_, hqueue, ?_, ?_, hsize, ?_⟩
  · exact SideRepr.write (A := []) h.side (by simpa using hB) hinv'.chain
  · exact List.map_congr_left fun i hi => restingAt_congr (hB i hi)
  · exact fun j hj => hoth j (List.mem_append_right _ hj)
  · rw [hdid.incoming]
    rw [RestingOrder.sweep] at hr
    exact toNat_ofNat_qty (a := s.incoming.qty) (hr ▸ Greedy.unmet_le)

/-- **The outer loop** sweeps a side, best level first. The induction follows the levels that
are popped; a level that keeps an order ends the sweep. -/
theorem sweepLevels_spec {account : Account} {limit : Price} {r : Greedy.Outcome RestingOrder} :
    ∀ fuel (L : Ladder) (levels : PriceLevels) (s : Sweep) (vacant : List Index),
      L.length < fuel → s.incoming.account = account → s.incoming.price = limit →
      s.SideInv room side levels L others vacant →
      RestingOrder.sweep (fun o => crosses o.price limit) account s.incoming.qty.toNat
        (L.slots.map s.pool.restingAt) = r →
      ∃ s' levels' L' vacant', sweepLevels crosses seq fuel levels s
          = .ok (levels', s', r.stopped) ∧
        Sweep.Did seq s s' r ∧ s'.SideInv room side levels' L' others vacant' ∧
        L'.slots.map s'.pool.restingAt = r.queue ∧
        (∀ j ∈ others, s'.pool.value? j = s.pool.value? j) ∧
        s'.pool.slots.size = s.pool.slots.size := by
  intro fuel
  induction fuel generalizing r with
  | zero => intro L _ _ _ h; omega
  | succ fuel ih =>
    intro L levels s vacant hfuel hacc hlim h hr
    by_cases hq : s.incoming.qty.toNat = 0
    · -- the demand is met
      rw [hq, RestingOrder.sweep, Greedy.sweep_zero] at hr
      subst hr
      refine ⟨s, levels, L, vacant, sweepLevels_of_done seq _ hq, ?_, h, rfl, fun _ _ => rfl, rfl⟩
      exact (Sweep.Did.none s [] false).congr rfl hq.symm
    rcases L with _ | ⟨⟨price, xs⟩, (B : Ladder)⟩
    · -- the side is empty
      have hempty : levels.empty = true := h.side.levels.empty_iff.mpr rfl
      subst hr
      refine ⟨s, levels, [], vacant, ?_, Sweep.Did.none s _ _, h, rfl, fun _ _ => rfl, rfl⟩
      rw [sweepLevels, if_neg fun hc => by rw [hempty] at hc; exact absurd hc.2 (by decide)]
      rfl
    have hxs : xs ≠ [] := h.full (price, xs) List.mem_cons_self
    have hchain : Chain s.pool side price xs := h.side.chain (A := [])
    have hgo : s.incoming.qty > 0 ∧ levels.empty = false := by
      refine ⟨(pos_iff_toNat _).mpr (Nat.pos_of_ne_zero hq), ?_⟩
      rw [← Bool.not_eq_true, h.side.levels.empty_iff]
      exact List.cons_ne_nil _ _
    have hbest : levels.best = .ok B.length := by
      rw [← Ladder.length_levels]
      exact PriceLevels.Repr.best (l := .ofList price xs) h.side.levels
    rw [sweepLevels, if_pos hgo]
    simp only [hbest, h.side.read (A := []), ok_bind, Level.price_ofList, hlim]
    rw [Ladder.slots_cons, List.map_append] at hr
    by_cases hc : crosses price limit = true
    · -- the level is within the price bound
      have hreach' : ∀ o ∈ xs.map s.pool.restingAt, crosses o.price limit = true := fun o ho => by
        obtain ⟨i, hi, rfl⟩ := List.mem_map.mp ho
        rw [hchain.price_restingAt hi]
        exact hc
      obtain ⟨r₁, hr₁⟩ : ∃ r₁, RestingOrder.sweep (fun o => crosses o.price limit) account
          s.incoming.qty.toNat (xs.map s.pool.restingAt) = r₁ := ⟨_, rfl⟩
      obtain ⟨s₁, zs, vacant₁, heq, hdid, hinv₁, hside₁, hqueue, hBmap, hoth, hsize, hq₁⟩ :=
        sweepBest_spec seq hacc h hc hr₁
      rw [RestingOrder.sweep] at hr hr₁
      simp only [hc, Bool.not_true, Bool.false_eq_true, if_false, heq, ok_bind]
      by_cases hzs : zs = []
      · -- the level is empty and is popped
        subst hzs
        have hqueue₁ : r₁.queue = [] := hqueue.symm
        have hstop : r₁.stopped = false := by
          rw [← Bool.not_eq_true]
          intro hst
          rw [← hr₁] at hst hqueue₁
          exact Greedy.ne_nil_of_stopped hst hqueue₁
        obtain ⟨levels₂, hpop, hside₂⟩ := hside₁.popBest
        have hinv₂ : s₁.SideInv room side levels₂ B others vacant₁ :=
          ⟨by simpa using hinv₁.pool, by simpa using hinv₁.index, hside₂,
            fun l hl => h.full l (List.mem_cons_of_mem _ hl)⟩
        obtain ⟨s', levels', L', vacant', heq', hdid', hinv', hqueue', hoth', hsize'⟩ :=
          ih B levels₂ s₁ vacant₁ (by simpa using hfuel) (by rw [hdid.incoming]; exact hacc)
            (by rw [hdid.incoming]; exact hlim) hinv₂ rfl
        rw [Greedy.sweep_append_of_empty (by rw [hr₁]; exact hqueue₁), hr₁] at hr
        rw [hq₁, hBmap] at heq' hdid' hqueue'
        subst hr
        refine ⟨s', levels', L', vacant', ?_, hdid.trans hdid', hinv', hqueue', fun j hj => ?_,
          hsize'.trans hsize⟩
        · simp only [hstop, Bool.false_eq_true, if_false, Level.head_ofList, List.headD_nil,
            if_true, hpop, ok_bind]
          exact heq'
        · rw [hoth' j hj, hoth j hj]
      · -- an order is left at the head of the level
        have hqueue₁ : r₁.queue ≠ [] := by
          rw [← hqueue]
          simpa using hzs
        have hinv₂ : s₁.SideInv room side (levels.write B.length (.ofList price zs))
            ((price, zs) :: B) others vacant₁ :=
          ⟨by simpa using hinv₁.pool, by simpa using hinv₁.index, hside₁,
            List.forall_mem_cons.mpr ⟨hzs, fun l hl => h.full l (List.mem_cons_of_mem _ hl)⟩⟩
        have hhead : (Level.ofList price zs).head ≠ kNilIndex := by
          rw [Level.head_ofList, ne_eq, IsList.head_eq_nil_iff hinv₁.chain.list.nil_notMem]
          exact hzs
        rw [Greedy.sweep_append_of_ne hreach' (by rw [hr₁]; exact hqueue₁), hr₁] at hr
        refine ⟨s₁, _, (price, zs) :: B, vacant₁, ?_, hdid.congr ?_ ?_, hinv₂, ?_,
          hoth, hsize⟩
        · cases hst : r₁.stopped with
          | true => simp [hst, ← hr]
          | false =>
            have hunmet : r₁.unmet = 0 := by
              rw [← hr₁] at hst hqueue₁ ⊢
              exact Greedy.unmet_of_ne hreach' hqueue₁ hst
            obtain ⟨fuel, rfl⟩ := Nat.exists_eq_add_one_of_ne_zero
              (show fuel ≠ 0 by simp at hfuel; omega)
            simp only [hst, Bool.false_eq_true, if_false, if_neg hhead, ← hr]
            exact sweepLevels_of_done seq _ (hq₁.trans hunmet)
        · rw [← hr]
        · rw [← hr]
        · rw [Ladder.slots_cons, List.map_append, hqueue, hBmap, ← hr]
    · -- the level is beyond the price bound
      obtain ⟨i, ys, rfl⟩ := List.exists_cons_of_ne_nil hxs
      have hout : crosses (s.pool.restingAt i).price limit = false := by
        rw [hchain.price_restingAt List.mem_cons_self]
        simpa using hc
      rw [List.map_cons, List.cons_append, RestingOrder.sweep,
        Greedy.sweep_cons_out (a := s.pool.restingAt i) hout] at hr
      subst hr
      refine ⟨s, levels, (price, i :: ys) :: B, vacant, ?_, Sweep.Did.none s _ _, h, ?_,
        fun _ _ => rfl, rfl⟩
      · simp only [Bool.not_eq_true] at hc
        simp [hc]
      · rw [Ladder.slots_cons, List.map_append, List.map_cons, List.cons_append]

end Side

end Book

end MatchingEngine
