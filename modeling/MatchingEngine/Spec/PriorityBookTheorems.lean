import MatchingEngine.Spec.PriorityBook

/-!
# The abstract book — invariants

`PriorityBook.Ok` holds in every reachable abstract book: each side is sorted by price, the
sides do not cross, no id rests twice, no order is empty, and no more orders rest than the
capacity allows. `PriorityBook.Timed n` adds the order in time, for books that have seen `n`
commands: the numbers of resting orders are in the past, and within a price they increase.

Everything but the quantity of an order is its `identity`. Sweeping, removing and reducing
orders leave a sublist of the identities of a side, which is all that most parts of the
invariant are about.
-/

namespace MatchingEngine

open PriorityList

/-! ## Reach -/

/-- Being within the limit is a bound on the rank. -/
theorem reaches_iff (taker : Side) (limit price : Price) :
    reaches taker (some limit) price = true ↔
      taker.opposite.best.rank price ≤ taker.opposite.best.rank limit := by
  cases taker with
  | buy => simp [reaches, Side.opposite, Side.best, Best.rank, Int64.le_iff_toInt_le]
  | sell => simp [reaches, Side.opposite, Side.best, Best.rank, Int64.le_iff_toInt_le]

namespace RestingOrder

/-- Everything but the quantity. -/
def identity (o : RestingOrder) : RestingOrder := { o with qty := 0 }

/-- What the identity determines. -/
theorem eq_of_identity {β : Type} (f : RestingOrder → β) (hf : ∀ o, f o.identity = f o)
    {o o' : RestingOrder} (h : o'.identity = o.identity) : f o' = f o := by
  rw [← hf o', h, hf]

/-- Reducing an order keeps its identity. -/
@[simp] theorem identity_reduce (o : RestingOrder) (n : ℕ) : (o.reduce n).identity = o.identity :=
  rfl

theorem amount_pos {o : RestingOrder} (h : o.qty ≠ 0) : 0 < o.amount := by
  rw [amount, Nat.pos_iff_ne_zero]
  exact fun e => h (UInt32.toNat_inj.mp e)

/-- An order that is not filled keeps a quantity. -/
theorem qty_reduce_ne {o : RestingOrder} {n : ℕ} (h : n < o.amount) : (o.reduce n).qty ≠ 0 := by
  have hn : (UInt32.ofNat n).toNat = n :=
    UInt32.toNat_ofNat_of_lt' (lt_trans h o.qty.toNat_lt)
  intro e
  have he := congrArg UInt32.toNat e
  rw [reduce, UInt32.toNat_sub_of_le _ _ (UInt32.le_iff_toNat_le.mpr (by rw [hn]; exact h.le)), hn,
    UInt32.toNat_zero] at he
  rw [amount] at h
  omega

end RestingOrder

namespace PriorityBook

variable {s s' : PriorityBook} {side taker : Side} {o : RestingOrder} {id : OrderId} {n : ℕ}
  {limit : Option Price} {account : Account} {q : ℕ}

/-! ## Fields -/

@[simp] theorem resting_tick : s.tick.resting = s.resting := rfl

@[simp] theorem orders_tick : s.tick.orders = s.orders := rfl

@[simp] theorem resting_setSide (s : PriorityBook) (side : Side) (l : List RestingOrder) :
    (s.setSide side l).resting side = l := Function.update_self ..

theorem resting_setSide_of_ne {side' : Side} (h : side' ≠ side) (l : List RestingOrder) :
    (s.setSide side l).resting side' = s.resting side' := Function.update_of_ne h ..

/-- A sweep leaves what it did not take. -/
@[simp] theorem resting_afterSweep (s : PriorityBook) (taker : Side)
    (r : Greedy.Outcome RestingOrder) :
    (s.afterSweep taker r).resting taker.opposite = r.queue := Function.update_self ..

/-- A sweep leaves the side of the taker alone. -/
theorem resting_afterSweep_of_ne (h : side ≠ taker.opposite) (r : Greedy.Outcome RestingOrder) :
    (s.afterSweep taker r).resting side = s.resting side := Function.update_of_ne h ..

/-- The orders are those of the two sides. -/
theorem mem_orders : o ∈ s.orders ↔ ∃ side, o ∈ s.resting side := by
  rw [orders, List.mem_append]
  constructor
  · rintro (h | h)
    · exact ⟨_, h⟩
    · exact ⟨_, h⟩
  · rintro ⟨side, h⟩
    cases side with
    | buy => exact Or.inl h
    | sell => exact Or.inr h

/-- The orders of both sides, one side first. -/
theorem orders_perm (s : PriorityBook) (side : Side) :
    s.orders.Perm (s.resting side ++ s.resting side.opposite) := by
  cases side with
  | buy => exact List.Perm.refl _
  | sell => exact List.perm_append_comm

/-- The resting orders are, up to order, those of one side's new queue and those the other side
keeps. -/
theorem orders_setSide (s : PriorityBook) (side : Side) (l : List RestingOrder) :
    (s.setSide side l).orders.Perm (l ++ s.resting side.opposite) := by
  have h := orders_perm (s.setSide side l) side
  rwa [resting_setSide, resting_setSide_of_ne (Side.opposite_ne side)] at h

theorem mem_ids : id ∈ s.ids ↔ ∃ o ∈ s.orders, o.orderId = id := List.mem_map

/-- A lookup fails exactly at an id that is not live. -/
theorem find_eq_none : s.find id = none ↔ id ∉ s.ids := by
  rw [find, List.find?_eq_none, mem_ids]
  simp

/-- A lookup yields a resting order under the id it was asked for. -/
theorem mem_of_find (h : s.find id = some o) : o ∈ s.orders ∧ o.orderId = id :=
  ⟨List.mem_of_find?_eq_some h, by simpa using List.find?_some h⟩

/-! ## The invariant -/

/-- What holds of every reachable book: the queues hold their own side's orders from best to worst,
the sides do not cross, ids are distinct, no order is empty, and the book holds no more orders than
it has room for. -/
structure Ok (s : PriorityBook) : Prop where
  side : ∀ side, ∀ o ∈ s.resting side, o.side = side
  sorted : ∀ side,
    (s.resting side).Pairwise fun a b => RestingOrder.rank side a ≤ RestingOrder.rank side b
  uncrossed : ∀ bid ∈ s.resting .buy, ∀ ask ∈ s.resting .sell, bid.price < ask.price
  nodup : s.ids.Nodup
  live : ∀ side, ∀ o ∈ s.resting side, o.qty ≠ 0
  fits : s.orders.length ≤ s.capacity

/-- The empty book is well formed. -/
theorem ok_new (capacity : ℕ) : (new capacity).Ok where
  side _ _ ho := absurd ho List.not_mem_nil
  sorted _ := List.Pairwise.nil
  uncrossed _ h := absurd h List.not_mem_nil
  nodup := List.nodup_nil
  live _ _ ho := absurd ho List.not_mem_nil
  fits := Nat.zero_le _

/-- The identities of a side. -/
def identities (s : PriorityBook) (side : Side) : List RestingOrder :=
  (s.resting side).map RestingOrder.identity

/-- A resting order's identity is listed on its side. -/
theorem mem_identities (ho : o ∈ s.resting side) : o.identity ∈ s.identities side :=
  List.mem_map_of_mem ho

theorem ids_eq (s : PriorityBook) :
    s.ids = (s.identities .buy ++ s.identities .sell).map (·.orderId) := by
  rw [ids, orders, identities, identities, ← List.map_append, List.map_map]
  rfl

/-- A side whose identities are a sublist stays in order. -/
theorem Ok.of_sublist (h : s.Ok) (hsub : ∀ side, (s'.identities side).Sublist (s.identities side))
    (hlive : ∀ side, ∀ o ∈ s'.resting side, o.qty ≠ 0) (hcap : s'.capacity = s.capacity) :
    s'.Ok where
  side side o ho := by
    obtain ⟨o', ho', he⟩ := List.mem_map.mp ((hsub side).subset (mem_identities ho))
    have hs := RestingOrder.eq_of_identity RestingOrder.side (fun _ => rfl) he
    rw [← hs]
    exact h.side side o' ho'
  sorted side := by
    have hs : (s.identities side).Pairwise
        fun a b => RestingOrder.rank side a ≤ RestingOrder.rank side b :=
      List.pairwise_map.mpr (h.sorted side)
    have hs' := hs.sublist (hsub side)
    rw [identities, List.pairwise_map] at hs'
    exact hs'
  uncrossed bid hb ask ha := by
    obtain ⟨bid', hb', heb⟩ := List.mem_map.mp ((hsub .buy).subset (mem_identities hb))
    obtain ⟨ask', ha', hea⟩ := List.mem_map.mp ((hsub .sell).subset (mem_identities ha))
    have h1 := RestingOrder.eq_of_identity RestingOrder.price (fun _ => rfl) heb
    have h2 := RestingOrder.eq_of_identity RestingOrder.price (fun _ => rfl) hea
    rw [← h1, ← h2]
    exact h.uncrossed bid' hb' ask' ha'
  nodup := by
    have hn := h.nodup
    rw [ids_eq] at hn ⊢
    exact hn.sublist (((hsub .buy).append (hsub .sell)).map _)
  live := hlive
  fits := by
    have h1 := ((hsub .buy).append (hsub .sell)).length_le
    have h2 := h.fits
    simp only [List.length_append, identities, List.length_map] at h1
    rw [orders, List.length_append] at h2 ⊢
    rw [hcap]
    omega

/-! ## Sweeping -/

/-- A sweep takes identities away from the opposite side and adds none. -/
theorem identities_afterSweep (s : PriorityBook) (taker : Side) (limit : Option Price)
    (account : Account) (q : ℕ) (side : Side) :
    ((s.afterSweep taker (s.sweep taker limit account q)).identities side).Sublist
      (s.identities side) := by
  by_cases hs : side = taker.opposite
  · subst hs
    rw [identities, identities, resting_afterSweep]
    exact Greedy.map_queue_sublist _ fun o n => o.identity_reduce n
  · rw [identities, identities, resting_afterSweep_of_ne hs]

/-- A sweep makes no id live. -/
theorem ids_afterSweep (h : id ∉ s.ids) :
    id ∉ (s.afterSweep taker (s.sweep taker limit account q)).ids := by
  rw [ids_eq] at h ⊢
  have hsub := ((identities_afterSweep s taker limit account q .buy).append
    (identities_afterSweep s taker limit account q .sell)).map (·.orderId)
  exact fun hmem => h (hsub.subset hmem)

/-- An order that a sweep reduces still has a quantity left. -/
theorem live_queue {reach : RestingOrder → Bool} {l : List RestingOrder}
    (h : ∀ o ∈ l, o.qty ≠ 0) : ∀ o ∈ (RestingOrder.sweep reach account q l).queue, o.qty ≠ 0 := by
  intro o ho
  rw [RestingOrder.sweep, Greedy.sweep_eq] at ho
  rcases List.mem_append.mp ho with ho | ho
  · rcases Greedy.mem_leaves ho with ho | ⟨a, _, n, _, hn, rfl⟩
    · exact h o (Greedy.eligible_isPrefix.subset ho)
    · exact RestingOrder.qty_reduce_ne hn
  · exact h o (List.mem_of_mem_drop ho)

/-- A sweep keeps the book well formed. -/
theorem Ok.afterSweep (h : s.Ok) (taker : Side) (limit : Option Price) (account : Account)
    (q : ℕ) : (s.afterSweep taker (s.sweep taker limit account q)).Ok := by
  refine h.of_sublist (identities_afterSweep s taker limit account q) (fun side o ho => ?_) rfl
  by_cases hs : side = taker.opposite
  · subst hs
    rw [resting_afterSweep] at ho
    exact live_queue (h.live _) o ho
  · rw [resting_afterSweep_of_ne hs] at ho
    exact h.live side o ho

/-- A taker that still wants more and was not stopped finds nothing within its limit. -/
theorem wouldTrade_afterSweep (h : s.Ok) {limit : Price}
    (hu : 0 < (s.sweep taker (some limit) account q).unmet)
    (hs : (s.sweep taker (some limit) account q).stopped = false) :
    (s.afterSweep taker (s.sweep taker (some limit) account q)).wouldTrade taker limit = false := by
  rw [wouldTrade, List.any_eq_false]
  intro o ho
  rw [resting_afterSweep] at ho
  have hq : (s.sweep taker (some limit) account q).queue = (s.resting taker.opposite).dropWhile
      fun o => reaches taker (some limit) o.price := Greedy.queue_of_unmet hu hs
  rw [hq] at ho
  -- behind the first order out of reach, which is sorted, everything is out of reach
  have hsorted := h.sorted taker.opposite
  generalize s.resting taker.opposite = l at ho hsorted
  induction l with
  | nil => exact absurd ho List.not_mem_nil
  | cons a l ih =>
    obtain ⟨ha, hl⟩ := List.pairwise_cons.mp hsorted
    by_cases hr : reaches taker (some limit) a.price = true
    · rw [List.dropWhile_cons_of_pos (by simpa using hr)] at ho
      exact ih ho hl
    · rw [List.dropWhile_cons_of_neg (by simpa using hr)] at ho
      rw [reaches_iff] at hr ⊢
      rcases List.mem_cons.mp ho with rfl | ho
      · exact hr
      · have := ha o ho
        rw [RestingOrder.rank, RestingOrder.rank] at this
        omega

/-! ## Inserting -/

/-- An order inserted takes its place by rank in its own side's queue. -/
theorem resting_insert (s : PriorityBook) (o : RestingOrder) :
    (s.insert o).resting o.side = enqueue (RestingOrder.rank o.side) o (s.resting o.side) := by
  rw [insert, resting_setSide]

theorem resting_insert_of_ne (h : side ≠ o.side) : (s.insert o).resting side = s.resting side := by
  rw [insert, resting_setSide_of_ne h]

/-- Insertion adds the one order to those that rest. -/
theorem orders_insert (s : PriorityBook) (o : RestingOrder) :
    (s.insert o).orders.Perm (o :: s.orders) := by
  rw [insert]
  refine (orders_setSide s o.side _).trans (((enqueue_perm o _).append_right _).trans ?_)
  exact (orders_perm s o.side).symm.cons o

theorem mem_resting_insert {o' : RestingOrder} (h : o' ∈ (s.insert o).resting side) :
    (o' = o ∧ side = o.side) ∨ o' ∈ s.resting side := by
  by_cases hs : side = o.side
  · subst hs
    rw [resting_insert, (enqueue_perm o _).mem_iff, List.mem_cons] at h
    exact h.imp_left fun e => ⟨e, rfl⟩
  · rw [resting_insert_of_ne hs] at h
    exact Or.inr h

/-- An order that would not trade can be inserted. -/
theorem Ok.insert (h : s.Ok) (hid : o.orderId ∉ s.ids) (hq : o.qty ≠ 0)
    (hcross : s.wouldTrade o.side o.price = false) (hroom : s.orders.length < s.capacity) :
    (s.insert o).Ok where
  side side o' ho' := by
    rcases mem_resting_insert ho' with ⟨rfl, hs⟩ | ho'
    · exact hs.symm
    · exact h.side side o' ho'
  sorted side := by
    by_cases hs : side = o.side
    · subst hs
      rw [resting_insert]
      exact pairwise_enqueue (h.sorted _) (h.sorted _) (fun _ _ => id) fun _ _ => le_of_lt
    · rw [resting_insert_of_ne hs]
      exact h.sorted side
  uncrossed bid hb ask ha := by
    have hno := List.any_eq_false.mp hcross
    rcases mem_resting_insert hb with ⟨rfl, hs⟩ | hb' <;>
      rcases mem_resting_insert ha with ⟨rfl, hs'⟩ | ha'
    · rw [← hs] at hs'
      cases hs'
    · rw [← hs] at hno
      have := hno ask ha'
      simpa [reaches] using this
    · rw [← hs'] at hno
      have := hno bid hb'
      simpa [reaches] using this
    · exact h.uncrossed bid hb' ask ha'
  nodup := by
    have hperm := (orders_insert s o).map (·.orderId)
    rw [ids, hperm.nodup_iff, List.map_cons, List.nodup_cons]
    exact ⟨hid, h.nodup⟩
  live side o' ho' := by
    rcases mem_resting_insert ho' with ⟨rfl, -⟩ | ho'
    · exact hq
    · exact h.live side o' ho'
  fits := by
    rw [(orders_insert s o).length_eq, List.length_cons]
    exact hroom

/-! ## Removing and reducing -/

/-- Removal takes identities away and adds none. -/
theorem identities_remove (s : PriorityBook) (o : RestingOrder) (side : Side) :
    ((s.remove o).identities side).Sublist (s.identities side) := by
  by_cases hs : side = o.side
  · subst hs
    rw [identities, identities, remove, resting_setSide]
    exact List.filter_sublist.map _
  · rw [identities, identities, remove, resting_setSide_of_ne hs]

/-- Removal keeps the book well formed. -/
theorem Ok.remove (h : s.Ok) (o : RestingOrder) : (s.remove o).Ok := by
  refine h.of_sublist (identities_remove s o) (fun side o' ho' => ?_) rfl
  by_cases hs : side = o.side
  · subst hs
    rw [PriorityBook.remove, resting_setSide] at ho'
    exact h.live _ o' (List.mem_of_mem_filter ho')
  · rw [PriorityBook.remove, resting_setSide_of_ne hs] at ho'
    exact h.live side o' ho'

/-- A changed quantity changes no identity. -/
theorem identities_setQty (s : PriorityBook) (o : RestingOrder) (qty : Qty) (side : Side) :
    (s.setQty o qty).identities side = s.identities side := by
  by_cases hs : side = o.side
  · subst hs
    rw [identities, identities, setQty, resting_setSide, List.map_map]
    refine List.map_congr_left fun o' _ => ?_
    rw [Function.comp_apply]
    split <;> rfl
  · rw [identities, identities, setQty, resting_setSide_of_ne hs]

/-- A nonzero new quantity keeps the book well formed. -/
theorem Ok.setQty (h : s.Ok) (o : RestingOrder) {qty : Qty} (hq : qty ≠ 0) :
    (s.setQty o qty).Ok := by
  refine h.of_sublist (fun side => ?_) (fun side o' ho' => ?_) rfl
  · rw [identities_setQty]
  · by_cases hs : side = o.side
    · subst hs
      rw [PriorityBook.setQty, resting_setSide] at ho'
      obtain ⟨o'', ho'', rfl⟩ := List.mem_map.mp ho'
      split
      · exact hq
      · exact h.live _ o'' ho''
    · rw [PriorityBook.setQty, resting_setSide_of_ne hs] at ho'
      exact h.live side o' ho'

theorem Ok.tick (h : s.Ok) : s.tick.Ok := ⟨h.side, h.sorted, h.uncrossed, h.nodup, h.live, h.fits⟩

/-- An id rests once. -/
theorem Ok.eq_of_orderId (h : s.Ok) {o' : RestingOrder} (ho : o ∈ s.orders) (ho' : o' ∈ s.orders)
    (hid : o.orderId = o'.orderId) : o = o' := List.inj_on_of_nodup_map h.nodup ho ho' hid

/-- No id rests twice on one side. -/
theorem keys_nodup (h : s.Ok) (side : Side) : ((s.resting side).map (·.orderId)).Nodup := by
  have hperm := (orders_perm s side).map RestingOrder.orderId
  have hnd := hperm.nodup_iff.mp h.nodup
  rw [List.map_append] at hnd
  exact (List.nodup_append.mp hnd).1

theorem amount_pos (h : s.Ok) (side : Side) : ∀ o ∈ s.resting side, 0 < o.amount := fun o ho =>
  RestingOrder.amount_pos (h.live side o ho)

/-- A resting order lies on the side it names. -/
theorem mem_resting (h : s.Ok) (ho : o ∈ s.orders) : o ∈ s.resting o.side := by
  obtain ⟨side, ho⟩ := mem_orders.mp ho
  rw [h.side side o ho]
  exact ho

/-- A resting order has one place in its side. Removing and reducing happen there. -/
theorem resting_split (h : s.Ok) (ho : o ∈ s.orders) :
    ∃ front back, s.resting o.side = front ++ o :: back ∧
      (s.remove o).resting o.side = front ++ back ∧
      ∀ qty, (s.setQty o qty).resting o.side = front ++ { o with qty } :: back := by
  obtain ⟨front, back, hsplit⟩ := List.append_of_mem (mem_resting h ho)
  have hnd := keys_nodup h o.side
  rw [hsplit, List.map_append, List.map_cons, List.nodup_middle, List.nodup_cons,
    ← List.map_append] at hnd
  have hne : ∀ o' ∈ front ++ back, o'.orderId ≠ o.orderId := fun o' ho' he =>
    hnd.1 (List.mem_map.mpr ⟨o', ho', he⟩)
  have hfront : ∀ o' ∈ front, o'.orderId ≠ o.orderId := fun o' ho' =>
    hne o' (List.mem_append_left _ ho')
  have hback : ∀ o' ∈ back, o'.orderId ≠ o.orderId := fun o' ho' =>
    hne o' (List.mem_append_right _ ho')
  refine ⟨front, back, hsplit, ?_, fun qty => ?_⟩
  · rw [PriorityBook.remove, resting_setSide, hsplit, List.filter_append,
      List.filter_cons_of_neg (by simp)]
    exact congrArg₂ _ (List.filter_eq_self.mpr fun o' ho' => bne_iff_ne.mpr (hfront o' ho'))
      (List.filter_eq_self.mpr fun o' ho' => bne_iff_ne.mpr (hback o' ho'))
  · have hkeep : ∀ l : List RestingOrder, (∀ o' ∈ l, o'.orderId ≠ o.orderId) →
        l.map (fun o' => if o'.orderId = o.orderId then { o' with qty } else o') = l := by
      intro l hl
      refine (List.map_congr_left fun o' ho' => ?_).trans l.map_id
      rw [if_neg (hl o' ho'), id_eq]
    rw [PriorityBook.setQty, resting_setSide, hsplit, List.map_append, List.map_cons,
      if_pos rfl, hkeep front hfront, hkeep back hback]

/-- The resting orders are the removed one and those the removal leaves. -/
theorem orders_remove (h : s.Ok) (ho : o ∈ s.orders) :
    s.orders.Perm (o :: (s.remove o).orders) := by
  obtain ⟨front, back, hsplit, hremove, -⟩ := resting_split h ho
  have hafter := orders_perm (s.remove o) o.side
  rw [hremove, remove, resting_setSide_of_ne (Side.opposite_ne o.side)] at hafter
  have hbefore := orders_perm s o.side
  rw [hsplit, List.append_assoc, List.cons_append] at hbefore
  rw [List.append_assoc] at hafter
  exact hbefore.trans (List.perm_middle.trans (hafter.symm.cons o))

/-- A changed quantity replaces the one order and leaves the others. -/
theorem orders_setQty (h : s.Ok) (ho : o ∈ s.orders) (qty : Qty) :
    (s.setQty o qty).orders.Perm ({ o with qty } :: (s.remove o).orders) := by
  obtain ⟨front, back, -, hremove, hset⟩ := resting_split h ho
  have hafter := orders_perm (s.remove o) o.side
  rw [hremove, remove, resting_setSide_of_ne (Side.opposite_ne o.side), List.append_assoc]
    at hafter
  have hqty := orders_perm (s.setQty o qty) o.side
  rw [hset, setQty, resting_setSide_of_ne (Side.opposite_ne o.side), List.append_assoc,
    List.cons_append] at hqty
  exact hqty.trans (List.perm_middle.trans (hafter.symm.cons _))

/-- A removed order is gone. -/
theorem notMem_ids_remove (h : s.Ok) (ho : o ∈ s.orders) : o.orderId ∉ (s.remove o).ids := by
  have hp := (orders_remove h ho).map RestingOrder.orderId
  exact (List.nodup_cons.mp (hp.nodup_iff.mp h.nodup)).1

/-- A removal shortens the book. -/
theorem length_remove_lt (h : s.Ok) (ho : o ∈ s.orders) :
    (s.remove o).orders.length < s.orders.length := by
  rw [(orders_remove h ho).length_eq]
  exact Nat.lt_succ_self _

/-- Removing an order does not change what its own side would trade with. -/
theorem wouldTrade_remove (s : PriorityBook) (o : RestingOrder) (price : Price) :
    (s.remove o).wouldTrade o.side price = s.wouldTrade o.side price := by
  rw [wouldTrade, wouldTrade, remove, resting_setSide_of_ne (by cases o.side <;> decide)]

/-! ## Commands -/

/-- An empty list of trades comes from a sweep that took nothing. -/
theorem tradesOf_eq_nil (id : OrderId) (seq : SeqNo) (tradeId : UInt64)
    {taken : List (RestingOrder × ℕ)} (h : tradesOf id seq tradeId taken = []) : taken = [] := by
  cases taken with
  | nil => rfl
  | cons t taken =>
    obtain ⟨maker, n⟩ := t
    rw [tradesOf] at h
    exact absurd h (List.cons_ne_nil _ _)

/-- The trades of a limit order are those of its sweep, whether it rests or not. -/
theorem trades_restResidual (s : PriorityBook) (o : RestingOrder) (r : AddResult) :
    (s.restResidual o r).2.trades = r.trades := by
  rw [PriorityBook.restResidual]
  split <;> rfl

/-- Resting a residual that crosses nothing, under an id that is not live, keeps the book well
formed. -/
theorem Ok.restResidual (h : s.Ok) (hid : o.orderId ∉ s.ids) (hq : o.qty ≠ 0)
    (hcross : s.wouldTrade o.side o.price = false) (r : AddResult) :
    (s.restResidual o r).1.Ok := by
  rw [PriorityBook.restResidual]
  split
  · next hroom => exact h.insert hid hq hcross hroom
  · exact h

theorem unmet_le_qty {qty : Qty} (s : PriorityBook) (taker : Side) (limit : Option Price)
    (account : Account) :
    (s.sweep taker limit account qty.toNat).unmet ≤ qty.toNat := Greedy.unmet_le

/-- A quantity the sweep left over is not zero once stored in 32 bits. -/
theorem ofNat_unmet_ne {qty : Qty} (h : 0 < (s.sweep taker limit account qty.toNat).unmet) :
    UInt32.ofNat (s.sweep taker limit account qty.toNat).unmet ≠ 0 := by
  intro e
  have := congrArg UInt32.toNat e
  rw [UInt32.toNat_ofNat_of_lt' (lt_of_le_of_lt (unmet_le_qty s taker limit account) qty.toNat_lt),
    UInt32.toNat_zero] at this
  omega

/-- A limit order keeps the book well formed, whatever `gate` the fill-or-kill check passes its
total through. -/
theorem Ok.addLimit (h : s.Ok) (gate : ℕ → ℕ) (id : OrderId) (side : Side) (price : Price)
    (qty : Qty) (account : Account) (tif : TimeInForce) :
    (s.addLimit gate id side price qty account tif).1.Ok := by
  simp only [PriorityBook.addLimit]
  split_ifs with h1 h2 h3
  · exact h.tick
  · exact h.tick
  · obtain ⟨-, hs, hu⟩ := h3
    rw [not_or] at h1
    exact (h.tick.afterSweep side (some price) account qty.toNat).restResidual
      (ids_afterSweep h1.2) (ofNat_unmet_ne hu) (wouldTrade_afterSweep h.tick hu hs) _
  · exact h.tick.afterSweep side (some price) account qty.toNat

/-- A market order keeps the book well formed. -/
theorem Ok.addMarket (h : s.Ok) (id : OrderId) (side : Side) (qty : Qty) (account : Account) :
    (s.addMarket id side qty account).1.Ok := by
  rw [PriorityBook.addMarket]
  split_ifs
  · exact h.tick
  · exact h.tick.afterSweep side none account qty.toNat

/-- A cancel keeps the book well formed. -/
theorem Ok.cancel (h : s.Ok) (id : OrderId) : (s.cancel id).1.Ok := by
  rw [PriorityBook.cancel]
  split
  · exact h.tick
  · exact h.tick.remove _

/-- A modify keeps the book well formed. -/
theorem Ok.modify (h : s.Ok) (id : OrderId) (newPrice : Price) (newQty : Qty) :
    (s.modify id newPrice newQty).1.Ok := by
  rw [PriorityBook.modify]
  by_cases hq : newQty = 0
  · rw [if_pos hq]
    exact h.tick
  rw [if_neg hq]
  cases hf : s.find id with
  | none => exact h.tick
  | some o =>
    obtain ⟨ho, -⟩ := mem_of_find hf
    dsimp only
    split_ifs with h1 h2
    · exact h.tick.setQty o hq
    · exact h.tick
    · -- the order leaves its place and comes back as a new one
      refine (h.tick.remove o).insert (notMem_ids_remove h.tick ho) hq ?_ ?_
      · rw [Bool.not_eq_true] at h2
        exact (wouldTrade_remove s.tick o newPrice).trans h2
      · exact lt_of_lt_of_le (length_remove_lt h.tick ho) h.fits

/-- **Every command keeps the book in order.** -/
theorem Ok.exec (h : s.Ok) (gate : ℕ → ℕ) (c : Command) : (s.exec gate c).1.Ok := by
  rw [PriorityBook.exec]
  cases c.kind with
  | limit => exact h.addLimit gate c.id c.side c.price c.qty c.account c.tif
  | market => exact h.addMarket c.id c.side c.qty c.account
  | cancel => exact h.cancel c.id
  | modify => exact h.modify c.id c.price c.qty

end PriorityBook

end MatchingEngine
