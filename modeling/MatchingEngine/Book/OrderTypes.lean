import MatchingEngine.Book.Observed
import MatchingEngine.Book.Slicing
import MatchingEngine.Spec.Reposition

/-!
# Types of orders

A market order is an immediate-or-cancel order without an effective limit, in every run and for
everything that comes after it (`market_is_unlimited_ioc`). An immediate-or-cancel order is one
that may rest and is cancelled at once (`ioc_is_gtc_then_cancel`).
-/

namespace MatchingEngine

open Run PriorityList

namespace PriorityBook

variable {s : PriorityBook} {c : Command} {o : RestingOrder}

/-! ## Market orders -/

/-- A limit that every price is within. -/
def unlimited : Side → Price
  | .buy => Int64.maxValue
  | .sell => Int64.minValue

/-- The market orders as limit orders. -/
def asLimit (c : Command) : Command :=
  if c.kind = .market then limitCommand c.id c.side (unlimited c.side) c.qty c.account .ioc else c

/-- A limit at the end of the prices reaches every price. -/
theorem reaches_unlimited (side : Side) (price : Price) :
    reaches side (some (unlimited side)) price = true := by
  cases side with
  | buy => exact decide_eq_true (Int64.le_maxValue price)
  | sell => exact decide_eq_true (Int64.minValue_le price)

/-- A market order does what its limit order does. -/
theorem exec_asLimit (gate : ℕ → ℕ) (s : PriorityBook) (c : Command) :
    s.exec gate (asLimit c) = s.exec gate c := by
  unfold asLimit
  by_cases hkind : c.kind = .market
  · have hreach : (fun o : RestingOrder => reaches c.side (some (unlimited c.side)) o.price) =
        fun o => reaches c.side none o.price := by
      funext o
      exact reaches_unlimited c.side o.price
    rw [if_pos hkind]
    unfold exec
    rw [hkind]
    show ((s.addLimit gate c.id c.side (unlimited c.side) c.qty c.account .ioc).1,
      Reply.added (s.addLimit gate c.id c.side (unlimited c.side) c.qty c.account .ioc).2) =
      ((s.addMarket c.id c.side c.qty c.account).1,
        Reply.added (s.addMarket c.id c.side c.qty c.account).2)
    have hsame : s.addLimit gate c.id c.side (unlimited c.side) c.qty c.account .ioc =
        s.addMarket c.id c.side c.qty c.account := by
      unfold addLimit addMarket sweep
      rw [hreach]
      simp
    rw [hsame]
  · rw [if_neg hkind]

/-! ## Resting for a moment -/

/-- Removing what was just inserted. -/
theorem remove_insert (h : s.Ok) (hid : o.orderId ∉ s.ids) : (s.insert o).remove o = s := by
  have hfront : ∀ l : List RestingOrder, (∀ o' ∈ l, o' ∈ s.resting o.side) →
      l.filter (fun o' => o'.orderId != o.orderId) = l := by
    intro l hl
    apply List.filter_eq_self.mpr
    intro o' ho'
    rw [bne_iff_ne]
    intro heq
    exact hid (mem_ids.mpr ⟨o', mem_orders.mpr ⟨o.side, hl o' ho'⟩, heq⟩)
  obtain ⟨as, bs, hsplit, henqueue, -, -⟩ := enqueue_split (h.sorted o.side) o
  have hfilter : (enqueue (RestingOrder.rank o.side) o (s.resting o.side)).filter
      (fun o' => o'.orderId != o.orderId) = s.resting o.side := by
    have has := hfront as fun o' ho' => by
      rw [hsplit]
      exact List.mem_append_left _ ho'
    have hbs := hfront bs fun o' ho' => by
      rw [hsplit]
      exact List.mem_append_right _ ho'
    rw [henqueue, List.filter_append, List.filter_cons_of_neg (by simp), has, hbs, ← hsplit]
  rw [remove, resting_insert, hfilter, insert, setSide, setSide]
  show ({ s with resting := Function.update (Function.update _ _ _) _ _ } : PriorityBook) = s
  rw [Function.update_idem, Function.update_eq_self]

/-- A limit order that is turned away is only counted. -/
theorem exec_bad (gate : ℕ → ℕ) (hkind : c.kind = .limit) (hbad : c.qty = 0 ∨ c.id ∈ s.ids) :
    s.exec gate c = (s.tick, .added {}) := by
  unfold exec
  rw [hkind]
  dsimp only
  rw [addLimit, if_pos hbad]

/-- A cancel of an unknown id is only counted. -/
theorem cancel_of_notMem {id : OrderId} (hid : id ∉ s.ids) : s.cancel id = (s.tick, false) := by
  rw [cancel, find_eq_none.mpr hid]

/-- The same order, immediate-or-cancel. -/
def asIoc (c : Command) : Command := { c with tif := .ioc }

/-- What an order does that may rest, and a cancel of it after it: the same as an
immediate-or-cancel order and a cancel, which finds nothing to cancel then. -/
theorem exec_asIoc (h : s.Ok) (hkind : c.kind = .limit) (htif : c.tif = .gtc) :
    ∃ r r', (s.exec counter32 (asIoc c)).2 = .added r ∧ (s.exec counter32 c).2 = .added r' ∧
      r = { r' with restingQty := 0, poolExhausted := false } ∧
      ((s.exec counter32 (asIoc c)).1.cancel c.id).1 = ((s.exec counter32 c).1.cancel c.id).1 ∧
      ((s.exec counter32 c).1.cancel c.id).2 =
        (((s.exec counter32 (asIoc c)).1.cancel c.id).2 || decide (r'.restingQty ≠ 0)) := by
  by_cases hbad : c.qty = 0 ∨ c.id ∈ s.ids
  · have hioc : s.exec counter32 (asIoc c) = (s.tick, .added {}) := exec_bad counter32 hkind hbad
    rw [exec_bad counter32 hkind hbad, hioc]
    exact ⟨{}, {}, rfl, rfl, rfl, rfl, (Bool.or_false _).symm⟩
  rw [not_or] at hbad
  obtain ⟨hq, hid⟩ := hbad
  have hioc : s.exec counter32 (asIoc c) = (s.swept c, .added
      { accepted := true, trades := s.tradesOfSweep c, stpRejected := (s.sweepOf c).stopped }) :=
    exec_takes h (Or.inr ⟨hkind, rfl⟩) hq hid
  have hswept : (s.swept c).Ok := by
    have hok := h.exec counter32 (asIoc c)
    rw [hioc] at hok
    exact hok
  have hnone : c.id ∉ (s.swept c).ids := ids_afterSweep hid
  have heff := exec_effect h counter32 c
  have hok := h.exec counter32 c
  rw [hioc]
  generalize s.exec counter32 c = p at heff hok
  obtain ⟨s', reply⟩ := p
  dsimp only at heff hok ⊢
  rw [cancel_of_notMem hnone]
  cases heff with
  | refused _ hbad => exact absurd hbad (not_or.mpr ⟨hq, hid⟩)
  | killed _ hfok => exact absurd (htif.symm.trans hfok) (by decide)
  | matched =>
    rw [cancel_of_notMem hnone]
    exact ⟨_, _, rfl, rfl, rfl, rfl, rfl⟩
  | exhausted _ _ hrest =>
    rw [cancel_of_notMem hnone]
    refine ⟨_, _, rfl, rfl, ?_, rfl, rfl⟩
    rw [hrest.unstopped]
  | rested _ _ hrest =>
    have hmem : s.residual c ∈ ((s.swept c).insert (s.residual c)).orders :=
      (orders_insert _ _).mem_iff.mpr List.mem_cons_self
    have hcancel : ((s.swept c).insert (s.residual c)).cancel c.id =
        (((s.swept c).insert (s.residual c)).tick.remove (s.residual c), true) :=
      cancel_of_mem hok hmem
    have hgone :
        ((s.swept c).insert (s.residual c)).tick.remove (s.residual c) = (s.swept c).tick :=
      remove_insert hswept.tick hnone
    have hqty : (s.residual c).qty ≠ 0 := ofNat_unmet_ne hrest.unmet
    rw [hcancel, hgone]
    refine ⟨_, _, rfl, rfl, ?_, rfl, ?_⟩
    · rw [hrest.unstopped]
    · rw [Bool.false_or, decide_eq_true hqty]
  | ignored hk =>
    rw [hkind] at hk
    exact absurd hk (by decide)
  | cancelled o hk => exact absurd (hkind.symm.trans hk) (by decide)
  | reduced o hk => exact absurd (hkind.symm.trans hk) (by decide)
  | moved o hk => exact absurd (hkind.symm.trans hk) (by decide)

/-- What is seen of it. -/
theorem observe_asIoc (h : s.Ok) (id : OrderId) (side : Side) (price : Price) (qty : Qty)
    (account : Account) :
    ∃ r r', (s.observe (limitCommand id side price qty account .ioc)).2.1 = .added r ∧
      (s.observe (limitCommand id side price qty account .gtc)).2.1 = .added r' ∧
      r = { r' with restingQty := 0, poolExhausted := false } ∧
      ((s.observe (limitCommand id side price qty account .ioc)).1.cancel id).1 =
        ((s.observe (limitCommand id side price qty account .gtc)).1.cancel id).1 ∧
      ((s.observe (limitCommand id side price qty account .gtc)).1.cancel id).2 =
        (((s.observe (limitCommand id side price qty account .ioc)).1.cancel id).2 ||
          decide (r'.restingQty ≠ 0)) :=
  exec_asIoc (c := limitCommand id side price qty account .gtc) h rfl rfl

/-- What is put out for a cancel. -/
theorem observe_cancel (s : PriorityBook) (id : OrderId) : s.observe (cancelCommand id) =
    ((s.cancel id).1, .flag (s.cancel id).2, (s.cancel id).1.orders) := rfl

end PriorityBook

namespace Book

/-- **A market order is an immediate-or-cancel order without a limit**: nothing that is ever
seen of a run tells which of the two was sent. -/
theorem market_is_unlimited_ioc (capacity : Index) (cmds : List Command) :
    ∃ b b' log, runM step (new capacity) cmds = .ok (b, log) ∧
      runM step (new capacity) (cmds.map PriorityBook.asLimit) = .ok (b', log) := by
  have hstep : ∀ (s : PriorityBook) (c : Command), True →
      (id s).observe (PriorityBook.asLimit c) = (id (s.observe c).1, id (s.observe c).2) ∧
        True := by
    intro s c _
    refine ⟨?_, trivial⟩
    unfold PriorityBook.observe
    rw [id, PriorityBook.exec_asLimit]
    rfl
  have hmap := run_map (P := fun _ => True) (k := id) hstep cmds (.new capacity.toNat) trivial
  rw [List.map_id] at hmap
  obtain ⟨b, hrun, -⟩ := run_step_spec (represents_new capacity) (PriorityBook.ok_new _) cmds
  obtain ⟨b', hrun', -⟩ := run_step_spec (represents_new capacity) (PriorityBook.ok_new _)
    (cmds.map PriorityBook.asLimit)
  have hsame : run PriorityBook.observe (.new capacity.toNat) (cmds.map PriorityBook.asLimit) =
      run PriorityBook.observe (.new capacity.toNat) cmds := hmap
  rw [hsame] at hrun'
  exact ⟨b, b', _, hrun, hrun'⟩

/-- What is seen of a run in which two commands follow on some others. -/
theorem run_twice (capacity : Index) (before later : List Command) (c c' : Command) :
    ∃ b front s, s.Ok ∧ front.length = before.length ∧
      (run PriorityBook.observe (.new capacity.toNat) before) = (s, front) ∧
      runM step (new capacity) (before ++ c :: c' :: later) =
        .ok (b, front ++ (s.observe c).2 :: ((s.observe c).1.observe c').2 ::
          (run PriorityBook.observe ((s.observe c).1.observe c').1 later).2) := by
  obtain ⟨-, -, -, hok⟩ := run_step_spec (represents_new capacity) (PriorityBook.ok_new _) before
  obtain ⟨b, hrun, -⟩ := run_step_spec (represents_new capacity) (PriorityBook.ok_new _)
    (before ++ c :: c' :: later)
  rw [run_append] at hrun
  exact ⟨b, _, _, hok, length_run _ before _, rfl, hrun⟩

/-- **An immediate-or-cancel order is one that may rest and is cancelled at once**: the same
trades, the same book afterwards and everything after it. Only the replies differ, in that the
cancel finds what rested. -/
theorem ioc_is_gtc_then_cancel (capacity : Index) (before later : List Command) (id : OrderId)
    (side : Side) (price : Price) (qty : Qty) (account : Account) :
    ∃ b b' front back r r' f f' shown shown' book,
      runM step (new capacity)
          (before ++ limitCommand id side price qty account .ioc :: cancelCommand id :: later) =
        .ok (b, front ++ (.added r, shown) :: (.flag f, book) :: back) ∧
      runM step (new capacity)
          (before ++ limitCommand id side price qty account .gtc :: cancelCommand id :: later) =
        .ok (b', front ++ (.added r', shown') :: (.flag f', book) :: back) ∧
      front.length = before.length ∧
      r = { r' with restingQty := 0, poolExhausted := false } ∧
      f' = (f || decide (r'.restingQty ≠ 0)) := by
  obtain ⟨b, front, s, hok, hlen, hfront, hioc⟩ := run_twice capacity before later
    (limitCommand id side price qty account .ioc) (cancelCommand id)
  obtain ⟨b', front', s', -, -, hfront', hgtc⟩ := run_twice capacity before later
    (limitCommand id side price qty account .gtc) (cancelCommand id)
  obtain ⟨rfl, rfl⟩ := Prod.mk.inj (hfront.symm.trans hfront')
  have hstep := PriorityBook.observe_asIoc hok id side price qty account
  rw [PriorityBook.observe_cancel] at hioc hgtc
  generalize s.observe (limitCommand id side price qty account .ioc) = p at hioc hstep
  generalize s.observe (limitCommand id side price qty account .gtc) = p' at hgtc hstep
  obtain ⟨t, reply, shown⟩ := p
  obtain ⟨t', reply', shown'⟩ := p'
  obtain ⟨r, r', rfl, rfl, hreply, hstate, hflag⟩ := hstep
  dsimp only at hioc hgtc hstate hflag
  rw [hstate] at hioc
  exact ⟨b, b', front, _, r, r', _, _, shown, shown', _, hioc, hgtc, hlen, hreply, hflag⟩

end Book

end MatchingEngine
