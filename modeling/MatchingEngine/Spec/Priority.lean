import MatchingEngine.Spec.Effect
import MatchingEngine.Book.Observed

/-!
# Priority

A command takes orders out of a side and may put one order in. It never puts two orders in
another order (`Effect.identities_sublist`, `Effect.others_sublist`), and it takes nothing
from an order while one ahead of it still rests (`Effect.front_first`).
-/

namespace MatchingEngine

open PriorityList

/-- The order `x` is ahead of the order `y` on a side. -/
def Ahead (side : Side) (x y : OrderId) (l : List RestingOrder) : Prop :=
  [x, y].Sublist ((ofSide side l).map (·.orderId))

/-- A command that puts a resting order at another place: a modify that succeeds, other than
one at the same price to a quantity not above the current one. -/
def Repositions (l : List RestingOrder) (c : Command) (reply : Reply) (id : OrderId) : Prop :=
  c.kind = .modify ∧ c.id = id ∧ reply = .flag true ∧
    ∀ o ∈ l, o.orderId = id → ¬ (c.price = o.price ∧ c.qty ≤ o.qty)

/-- After every command of a history that begins with the orders `l`, the order `id` rests,
and no command repositions it. -/
def Stays (id : OrderId) : List RestingOrder → List (Command × Observed) → Prop
  | _, [] => True
  | l, (c, reply, shown) :: history =>
    ¬ Repositions l c reply id ∧ id ∈ shown.map (·.orderId) ∧ Stays id shown history

namespace PriorityBook

variable {s s' : PriorityBook} {c : Command} {side : Side} {o : RestingOrder} {id x y : OrderId}
  {reply : Reply}

/-! ## The orders of a side -/

/-- Everything but the order of a command keeps its place. -/
theorem others_insert (s : PriorityBook) (o : RestingOrder) (side : Side) :
    (((s.insert o).identities side).filter (·.orderId != o.orderId)).Sublist
      (s.identities side) := by
  by_cases hs : side = o.side
  · subst hs
    unfold identities
    rw [resting_insert]
    -- the new order is filtered out again
    have hsub : ∀ l : List RestingOrder,
        (((enqueue (RestingOrder.rank o.side) o l).map RestingOrder.identity).filter
          (·.orderId != o.orderId)).Sublist (l.map RestingOrder.identity) := by
      intro l
      induction l with
      | nil =>
        show (List.filter _ [o.identity]).Sublist []
        rw [List.filter_cons_of_neg (by simp [RestingOrder.identity]), List.filter_nil]
      | cons a l ih =>
        by_cases hlt : RestingOrder.rank o.side o < RestingOrder.rank o.side a
        · rw [enqueue_cons_of_lt hlt, List.map_cons,
            List.filter_cons_of_neg (by simp [RestingOrder.identity])]
          exact List.filter_sublist
        · rw [enqueue_cons_of_le (not_lt.mp hlt), List.map_cons, List.map_cons, List.filter_cons]
          split
          · exact ih.cons_cons _
          · exact ih.cons _
    exact hsub (s.resting o.side)
  · unfold identities
    rw [resting_insert_of_ne hs]
    exact List.filter_sublist

/-- The command gives no order a new place. -/
def Stationary (s : PriorityBook) (c : Command) (reply : Reply) : Prop :=
  c.id ∈ s.ids ∧ ¬ Repositions s.orders c reply c.id

theorem Effect.identities_swept (s : PriorityBook) (c : Command) (side : Side) :
    ((s.swept c).identities side).Sublist (s.identities side) :=
  identities_afterSweep s.tick c.side c.limit c.account c.qty.toNat side

/-- **A command that gives its own order no new place** only takes orders away. -/
theorem Effect.identities_sublist (h : s.Ok) (heff : Effect s c s' reply)
    (hstay : s.Stationary c reply) (side : Side) :
    (s'.identities side).Sublist (s.identities side) := by
  cases heff with
  | refused | killed | ignored => exact List.Sublist.refl _
  | matched | exhausted => exact Effect.identities_swept s c side
  | rested hq hid => exact absurd hstay.1 hid
  -- the orders keep their places in what is left of the side
  | cancelled o => exact identities_remove s.tick o side
  | reduced o =>
    rw [identities_setQty]
    exact List.Sublist.refl _
  | moved o hkind hfind hq hplace =>
    -- this is what repositioning means
    refine absurd ⟨hkind, rfl, rfl, fun o' ho' hid => ?_⟩ hstay.2
    obtain ⟨ho, hoid⟩ := mem_of_find hfind
    have hsame : o' = o := h.eq_of_orderId ho' ho (hid.trans hoid.symm)
    rw [hsame]
    exact hplace

/-- **No command** puts two other orders in another order. -/
theorem Effect.others_sublist (heff : Effect s c s' reply) (side : Side) :
    ((s'.identities side).filter (·.orderId != c.id)).Sublist (s.identities side) := by
  have hpart : ∀ t : PriorityBook, (t.identities side).Sublist (s.identities side) →
      ((t.identities side).filter (·.orderId != c.id)).Sublist (s.identities side) :=
    fun t ht => List.filter_sublist.trans ht
  cases heff with
  | refused | killed | ignored => exact List.filter_sublist
  | matched | exhausted => exact hpart _ (Effect.identities_swept s c side)
  | rested =>
    have hins := others_insert (s.swept c) (s.residual c) side
    exact hins.trans (Effect.identities_swept s c side)
  | cancelled o => exact hpart _ (identities_remove s.tick o side)
  | reduced o =>
    refine hpart _ ?_
    rw [identities_setQty]
    exact List.Sublist.refl _
  | moved o hkind hfind =>
    -- out of its place and in again: the others do not notice
    have hins := others_insert (s.tick.remove o) (s.modified o c) side
    have hid : (s.modified o c).orderId = c.id := (mem_of_find hfind).2
    rw [hid] at hins
    exact hins.trans (identities_remove s.tick o side)

/-! ## Two orders -/

/-- The ids of a side. -/
def idsOf (s : PriorityBook) (side : Side) : List OrderId := (s.resting side).map (·.orderId)

theorem idsOf_eq (s : PriorityBook) (side : Side) :
    s.idsOf side = (s.identities side).map (·.orderId) := by
  unfold idsOf identities
  rw [List.map_map]
  rfl

/-- One order is ahead of another if its id comes first. -/
theorem ahead_iff (h : s.Ok) : Ahead side x y s.orders ↔ [x, y].Sublist (s.idsOf side) := by
  unfold Ahead
  rw [ofSide_orders h]
  rfl

theorem mem_ids_iff : id ∈ s.ids ↔ ∃ side, id ∈ s.idsOf side := by
  rw [mem_ids]
  constructor
  · intro hid
    obtain ⟨o, ho, heq⟩ := hid
    obtain ⟨side, ho⟩ := mem_orders.mp ho
    exact ⟨side, List.mem_map.mpr ⟨o, ho, heq⟩⟩
  · intro hid
    obtain ⟨side, hid⟩ := hid
    obtain ⟨o, ho, heq⟩ := List.mem_map.mp hid
    exact ⟨o, mem_orders.mpr ⟨side, ho⟩, heq⟩

/-- An order rests on one side only. -/
theorem side_unique (h : s.Ok) {side' : Side} (hid : id ∈ s.idsOf side)
    (hid' : id ∈ s.idsOf side') : side' = side := by
  obtain ⟨o, ho, heq⟩ := List.mem_map.mp hid
  obtain ⟨o', ho', heq'⟩ := List.mem_map.mp hid'
  have hsame : o' = o := h.eq_of_orderId (mem_orders.mpr ⟨_, ho'⟩) (mem_orders.mpr ⟨_, ho⟩)
    (heq'.trans heq.symm)
  rw [← h.side side o ho, ← h.side side' o' ho', hsame]

/-- **Two orders keep their order** as long as both rest and neither is repositioned. -/
theorem Effect.ahead (h : s.Ok) (heff : Effect s c s' reply) (hxy : [x, y].Sublist (s.idsOf side))
    (hrx : ¬ Repositions s.orders c reply x) (hry : ¬ Repositions s.orders c reply y)
    (hx : x ∈ s'.ids) (hy : y ∈ s'.ids) : [x, y].Sublist (s'.idsOf side) := by
  have hxs : x ∈ s.idsOf side := hxy.subset List.mem_cons_self
  have hys : y ∈ s.idsOf side := hxy.subset (List.mem_cons_of_mem _ List.mem_cons_self)
  -- the part of a side that the command did not put there
  obtain ⟨kept, hnew, hold, hkept⟩ : ∃ kept : Side → List OrderId,
      (∀ side, (kept side).Sublist (s'.idsOf side)) ∧
      (∀ side, (kept side).Sublist (s.idsOf side)) ∧
      ∀ id, id = x ∨ id = y → ∀ side, id ∈ s'.idsOf side → id ∈ kept side := by
    by_cases hown : c.id = x ∨ c.id = y
    -- a command about one of the two leaves it where it is
    · have hstay : s.Stationary c reply := by
        rcases hown with hown | hown
        · exact ⟨hown ▸ mem_ids_iff.mpr ⟨side, hxs⟩, hown ▸ hrx⟩
        · exact ⟨hown ▸ mem_ids_iff.mpr ⟨side, hys⟩, hown ▸ hry⟩
      refine ⟨s'.idsOf, fun _ => List.Sublist.refl _, fun side => ?_, fun _ _ _ hid => hid⟩
      rw [idsOf_eq, idsOf_eq]
      exact (heff.identities_sublist h hstay side).map _
    · refine ⟨fun side => ((s'.identities side).filter (·.orderId != c.id)).map (·.orderId),
        fun side => ?_, fun side => ?_, fun id hid side hmem => ?_⟩
      · rw [idsOf_eq]
        exact List.filter_sublist.map _
      · rw [idsOf_eq]
        exact (heff.others_sublist side).map _
      · rw [idsOf_eq] at hmem
        obtain ⟨o, ho, heq⟩ := List.mem_map.mp hmem
        refine List.mem_map.mpr ⟨o, List.mem_filter.mpr ⟨ho, ?_⟩, heq⟩
        rw [bne_iff_ne, heq]
        intro hc
        exact hown (hid.imp (fun hid => hc.symm.trans hid) fun hid => hc.symm.trans hid)
  have hmem : ∀ id, id = x ∨ id = y → id ∈ s.idsOf side → id ∈ s'.ids → id ∈ kept side := by
    intro id hid hs hs'
    obtain ⟨side', hside'⟩ := mem_ids_iff.mp hs'
    have hk := hkept id hid side' hside'
    rw [side_unique h hs ((hold side').subset hk)] at hk
    exact hk
  -- so both are in one part of the side before, which is a part of the side after
  have hpair := pair_sublist (hold side) (keys_nodup h side) hxy (hmem x (Or.inl rfl) hxs hx)
    (hmem y (Or.inr rfl) hys hy)
  exact hpair.trans (hnew side)

/-! ## Trades -/

/-- A trade is with an order that the sweep took from. -/
theorem mem_tradesOf {taker : OrderId} {seq : SeqNo} {taken : List (RestingOrder × ℕ)} {t : Trade} :
    ∀ {tradeId}, t ∈ tradesOf taker seq tradeId taken →
      ∃ p ∈ taken, t.makerOrderId = p.1.orderId := by
  induction taken with
  | nil => exact fun ht => absurd ht List.not_mem_nil
  | cons p taken ih =>
    intro tradeId ht
    rw [tradesOf] at ht
    rcases List.mem_cons.mp ht with heq | ht
    · exact ⟨p, List.mem_cons_self, congrArg _ heq⟩
    · obtain ⟨p', hp', heq⟩ := ih ht
      exact ⟨p', List.mem_cons_of_mem _ hp', heq⟩

/-- An order that a sweep takes out of its queue is out of the book. -/
theorem notMem_swept (h : s.Ok) (ho : o ∈ s.resting c.side.opposite)
    (hq : o.orderId ∉ (s.sweepOf c).queue.map (·.orderId)) : o.orderId ∉ (s.swept c).ids := by
  intro hid
  obtain ⟨side, hid⟩ := mem_ids_iff.mp hid
  have hs : side = c.side.opposite := by
    apply side_unique h (List.mem_map_of_mem ho)
    rw [idsOf_eq]
    rw [idsOf_eq] at hid
    exact ((Effect.identities_swept s c side).map _).subset hid
  rw [hs] at hid
  unfold idsOf swept at hid
  rw [resting_afterSweep] at hid
  exact hq hid

/-- **A trade** takes away everything in front of its maker, and the maker too unless it is
only reduced. -/
theorem sweep_of_trade (h : s.Ok) {t : Trade} (ht : t ∈ s.tradesOfSweep c) :
    ∃ front o behind, s.resting c.side.opposite = front ++ o :: behind ∧
      t.makerOrderId = o.orderId ∧ (∀ o' ∈ front, o'.orderId ∉ (s.swept c).ids) ∧
      (o.orderId ∉ (s.swept c).ids ∨
        ∃ n, (s.swept c).resting c.side.opposite = o.reduce n :: behind) := by
  obtain ⟨p, hp, hmaker⟩ := mem_tradesOf ht
  have hqueue : (s.swept c).resting c.side.opposite = (s.sweepOf c).queue :=
    resting_afterSweep s.tick c.side (s.sweepOf c)
  obtain ⟨front, back, hl, hcase⟩ : ∃ front back, s.resting c.side.opposite = front ++ back ∧
      ((s.sweepOf c).taken = front.map (fun o => (o, o.amount)) ∧ (s.sweepOf c).queue = back ∨
        ∃ o behind n, back = o :: behind ∧ (s.sweepOf c).unmet = 0 ∧
          (s.sweepOf c).taken = front.map (fun o => (o, o.amount)) ++ [(o, n)] ∧
          (s.sweepOf c).queue = o.reduce n :: behind) := Greedy.sweep_shape
  have hids : (s.sweepOf c).queue.map (·.orderId) = back.map (·.orderId) := by
    rcases hcase with ⟨-, hq⟩ | ⟨o, behind, n, hback, -, -, hq⟩
    · rw [hq]
    · rw [hq, hback]
      rfl
  -- what is taken as a whole is gone
  have hgone : ∀ o ∈ front, o.orderId ∉ (s.swept c).ids := by
    intro o ho
    have hrest : o ∈ s.resting c.side.opposite := by
      rw [hl]
      exact List.mem_append_left _ ho
    refine notMem_swept h hrest fun hmem => ?_
    have hnd := keys_nodup h c.side.opposite
    rw [hl, List.map_append] at hnd
    rw [hids] at hmem
    exact (List.nodup_append.mp hnd).2.2 _ (List.mem_map_of_mem ho) _ hmem rfl
  have hwhole : p ∈ front.map (fun o => (o, o.amount)) →
      ∃ front o behind, s.resting c.side.opposite = front ++ o :: behind ∧
        t.makerOrderId = o.orderId ∧ (∀ o' ∈ front, o'.orderId ∉ (s.swept c).ids) ∧
        (o.orderId ∉ (s.swept c).ids ∨
          ∃ n, (s.swept c).resting c.side.opposite = o.reduce n :: behind) := by
    intro hp
    obtain ⟨o, ho, hpo⟩ := List.mem_map.mp hp
    obtain ⟨front₁, front₂, hsplit⟩ := List.append_of_mem ho
    refine ⟨front₁, o, front₂ ++ back, ?_, ?_, fun o' ho' => ?_, Or.inl (hgone o ho)⟩
    · rw [hl, hsplit, List.append_assoc, List.cons_append]
    · rw [hmaker, ← hpo]
    · apply hgone
      rw [hsplit]
      exact List.mem_append_left _ ho'
  rcases hcase with ⟨htaken, -⟩ | ⟨o, behind, n, hback, -, htaken, hq⟩
  · rw [htaken] at hp
    exact hwhole hp
  · rw [htaken] at hp
    rcases List.mem_append.mp hp with hp | hp
    · exact hwhole hp
    · refine ⟨front, o, behind, by rw [hl, hback], ?_, hgone, Or.inr ⟨n, by rw [hqueue, hq]⟩⟩
      rw [hmaker, List.mem_singleton.mp hp]

/-- What a command trades, its sweep trades. -/
theorem Effect.swept_of_trade (heff : Effect s c s' reply) {t : Trade} (ht : t ∈ reply.trades) :
    t ∈ s.tradesOfSweep c ∧ c.id ∉ s.ids ∧
      (s' = s.swept c ∨ s' = (s.swept c).insert (s.residual c)) := by
  cases heff with
  | refused | killed | ignored | cancelled | reduced | moved => exact absurd ht List.not_mem_nil
  | matched _ _ hid | exhausted _ hid => exact ⟨ht, hid, Or.inl rfl⟩
  | rested _ hid => exact ⟨ht, hid, Or.inr rfl⟩

/-- Of the orders that rested, what a sweep takes out does not come back. -/
theorem notMem_after {s' : PriorityBook} (hc : c.id ∉ s.ids)
    (hs' : s' = s.swept c ∨ s' = (s.swept c).insert (s.residual c)) (hid : id ∈ s.ids)
    (hgone : id ∉ (s.swept c).ids) : id ∉ s'.ids := by
  rcases hs' with rfl | rfl
  · exact hgone
  · have hperm := (orders_insert (s.swept c) (s.residual c)).map (·.orderId)
    unfold ids
    rw [hperm.mem_iff, List.map_cons, List.mem_cons, not_or]
    refine ⟨fun heq => ?_, hgone⟩
    rw [heq] at hid
    exact hc hid

/-- **The front comes first**: if an order trades, what was ahead of it is gone. -/
theorem Effect.front_first (h : s.Ok) (heff : Effect s c s' reply)
    (hxy : [x, y].Sublist (s.idsOf side)) {t : Trade} (ht : t ∈ reply.trades)
    (hmaker : t.makerOrderId = y) : x ∉ s'.ids := by
  obtain ⟨ht, hc, hs'⟩ := heff.swept_of_trade ht
  obtain ⟨front, o, behind, hl, hid, hgone, -⟩ := sweep_of_trade h ht
  have hxs : x ∈ s.idsOf side := hxy.subset List.mem_cons_self
  have hys : y ∈ s.idsOf side := hxy.subset (List.mem_cons_of_mem _ List.mem_cons_self)
  have hyo : y = o.orderId := hmaker.symm.trans hid
  have hsplit : s.idsOf c.side.opposite =
      (front.map (·.orderId) ++ [y]) ++ behind.map (·.orderId) := by
    unfold idsOf
    rw [hl, hyo, List.map_append, List.map_cons, List.append_assoc, List.singleton_append]
  have hside : side = c.side.opposite := by
    refine side_unique h ?_ hys
    rw [hsplit]
    simp
  have hnd : (s.idsOf side).Nodup := keys_nodup h side
  have hne : x ≠ y := by
    have hpair := hnd.sublist hxy
    simpa using hpair
  rw [hside, hsplit] at hxy hnd
  -- `x` is in front of the maker, so it is among what is gone
  have hx : x ∈ front.map (·.orderId) := by
    have hmem := mem_front_of_ahead hnd hxy (by simp)
    rcases List.mem_append.mp hmem with hx | hx
    · exact hx
    · exact absurd (List.mem_singleton.mp hx) hne
  obtain ⟨o', ho', hxo⟩ := List.mem_map.mp hx
  refine notMem_after hc hs' (mem_ids_iff.mpr ⟨side, hxs⟩) ?_
  rw [← hxo]
  exact hgone o' ho'

/-- **A partial fill** leaves an order in its place, which is now the front. -/
theorem Effect.partial_fill (h : s.Ok) (heff : Effect s c s' reply) (ho : o ∈ s.orders)
    {t : Trade} (ht : t ∈ reply.trades) (hmaker : t.makerOrderId = o.orderId)
    (hstill : o.orderId ∈ s'.ids) :
    ∃ front behind n, s.resting o.side = front ++ o :: behind ∧
      s'.resting o.side = o.reduce n :: behind := by
  obtain ⟨ht, hc, hs'⟩ := heff.swept_of_trade ht
  obtain ⟨front, o₁, behind, hl, hid, -, hcase⟩ := sweep_of_trade h ht
  have ho₁ : o₁ ∈ s.resting c.side.opposite := by
    rw [hl]
    simp
  have hsame : o₁ = o := h.eq_of_orderId (mem_orders.mpr ⟨_, ho₁⟩) ho (hid.symm.trans hmaker)
  rw [hsame] at hl ho₁ hcase
  have hside : o.side = c.side.opposite := h.side _ o ho₁
  have hrests : o.orderId ∈ s.ids := mem_ids.mpr ⟨o, ho, rfl⟩
  rcases hcase with hgone | ⟨n, hred⟩
  -- it still rests, so it was not taken as a whole
  · exact absurd hstill (notMem_after hc hs' hrests hgone)
  · refine ⟨front, behind, n, by rw [hside, hl], ?_⟩
    rw [hside, ← hred]
    rcases hs' with rfl | rfl
    · rfl
    · exact resting_insert_of_ne (Side.opposite_ne c.side)

/-- **A reduction in place** leaves an order in its place. -/
theorem Effect.reduce_in_place (h : s.Ok) (heff : Effect s c s' (.flag true)) (ho : o ∈ s.orders)
    (hkind : c.kind = .modify) (hid : c.id = o.orderId) (hprice : c.price = o.price)
    (hqty : c.qty ≤ o.qty) :
    ∃ front behind, s.resting o.side = front ++ o :: behind ∧
      s'.resting o.side = front ++ { o with qty := c.qty } :: behind := by
  have hfound : ∀ o', s.find c.id = some o' → o' = o := by
    intro o' hfind
    obtain ⟨ho', hid'⟩ := mem_of_find hfind
    exact h.eq_of_orderId ho' ho (hid'.trans hid)
  cases heff with
  | cancelled o' hcancel =>
    rw [hkind] at hcancel
    cases hcancel
  | reduced o' _ hfind =>
    rw [hfound o' hfind]
    obtain ⟨front, behind, hsplit, -, hset⟩ := resting_split h.tick ho
    exact ⟨front, behind, hsplit, hset c.qty⟩
  | moved o' _ hfind _ hplace =>
    rw [hfound o' hfind] at hplace
    exact absurd ⟨hprice, hqty⟩ hplace

end PriorityBook

end MatchingEngine
