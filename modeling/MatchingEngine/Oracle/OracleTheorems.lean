import MatchingEngine.Oracle.Oracle
import MatchingEngine.Spec.Timed
import Mathlib.Data.Prod.Lex

/-!
# The reference implementation — scans and the matching loop

Scanning an unordered vector for the best order finds the front of the queue that the
abstract book keeps in order (`bestOpposite_spec`), so the matching loop is the same greedy
sweep (`matchLoop_spec`). Sorting the vector gives the queues themselves.
-/

namespace MatchingEngine

open PriorityList

/-! ## Keys -/

namespace RestingOrder

/-- Price, then time. -/
def key (side : Side) (o : RestingOrder) : ℤ ×ₗ ℕ := toLex (rank side o, o.seqNo.toNat)

/-- Price and time priority, as an order of keys. -/
theorem before_iff {side : Side} {a b : RestingOrder} :
    before side a b ↔ key side a < key side b := by
  rw [before, key, key, Prod.Lex.toLex_lt_toLex, UInt64.lt_iff_toNat_lt]

/-- Bids, then asks, each by price, then time. -/
def shownKey (o : RestingOrder) : ℕ ×ₗ (ℤ ×ₗ ℕ) :=
  toLex (match o.side with | .buy => 0 | .sell => 1, key o.side o)

end RestingOrder

namespace Oracle

open RestingOrder

variable {taker : Side} {hasLimit : Bool} {limit : Price} {a b o : RestingOrder}
  {l queue own orders : List RestingOrder}

/-- The oracle's comparison of two candidates is the order of their keys. -/
theorem better_iff : better taker a b = true ↔ key taker.opposite a < key taker.opposite b := by
  rw [← before_iff, before, rank, rank]
  unfold better
  by_cases hp : a.price = b.price
  · rw [if_neg (not_not.mpr hp), hp, decide_eq_true_iff]
    simp
  · rw [if_pos hp]
    have hne : taker.opposite.best.rank a.price ≠ taker.opposite.best.rank b.price := fun h =>
      hp (Best.rank_inj.mp h)
    rw [or_iff_left fun h => hne h.1, ← Best.better_iff]
    cases taker with
    | buy => exact Iff.rfl
    | sell => exact Iff.rfl

theorem not_better_eq (taker : Side) : (fun a b => !better taker b a) =
    fun a b => decide (key taker.opposite a ≤ key taker.opposite b) := by
  funext a b
  rw [Bool.eq_iff_iff, Bool.not_eq_true', ← Bool.not_eq_true, better_iff, decide_eq_true_iff,
    not_lt]

/-- The snapshot's comparison is the order of the shown keys. -/
theorem shownBefore_iff : shownBefore a b = true ↔ shownKey a < shownKey b := by
  rw [shownBefore, shownKey, shownKey, Prod.Lex.toLex_lt_toLex]
  by_cases hs : a.side = b.side
  · rw [if_neg (not_not.mpr hs), hs]
    have hbetter : better b.side.opposite a b = true ↔ key b.side a < key b.side b := by
      rw [better_iff, Side.opposite_opposite]
    simp only [lt_irrefl, false_or, true_and]
    rw [← hbetter]
    unfold better
    cases b.side <;> rfl
  · rw [if_pos hs]
    cases ha : a.side <;> cases hb : b.side <;> simp_all

theorem not_shownBefore_eq : (fun a b => !shownBefore b a) =
    fun a b => decide (shownKey a ≤ shownKey b) := by
  funext a b
  rw [Bool.eq_iff_iff, Bool.not_eq_true', ← Bool.not_eq_true, shownBefore_iff, decide_eq_true_iff,
    not_lt]

/-! ## Scanning for the best order -/

/-- The limit of the abstract commands. -/
def limitOf (hasLimit : Bool) (limit : Price) : Option Price :=
  if hasLimit then some limit else none

/-- The orders that the scan of `best_opposite` does not skip. -/
def candidate (taker : Side) (hasLimit : Bool) (limit : Price) (o : RestingOrder) : Bool :=
  o.side != taker && reaches taker (limitOf hasLimit limit) o.price

/-- A candidate is an order of the other side within the limit. -/
theorem candidate_iff : candidate taker hasLimit limit o = true ↔
    o.side = taker.opposite ∧ reaches taker (limitOf hasLimit limit) o.price = true := by
  rw [candidate, Bool.and_eq_true, bne_iff_ne, Side.ne_iff]

/-- `best` is the best candidate of `l`, with its position. -/
def IsBest (taker : Side) (hasLimit : Bool) (limit : Price) (l : List RestingOrder) :
    Option (ℕ × RestingOrder) → Prop
  | none => ∀ o ∈ l, candidate taker hasLimit limit o = false
  | some (m, b) => l[m]? = some b ∧ candidate taker hasLimit limit b = true ∧
      ∀ o ∈ l, candidate taker hasLimit limit o = true → better taker o b = false

/-- An order that is no candidate is skipped. -/
theorem bestRound_of_not {i : ℕ} {best : Option (ℕ × RestingOrder)}
    (h : candidate taker hasLimit limit o = false) :
    bestRound taker hasLimit limit i o best = best := by
  have hcross : crosses taker o.price limit = reaches taker (some limit) o.price := by
    cases taker <;> rfl
  unfold bestRound
  rw [hcross]
  by_cases hs : o.side = taker
  · rw [if_pos hs]
  · rw [candidate, bne_iff_ne.mpr hs, Bool.true_and] at h
    cases hasLimit with
    | false => cases h
    | true =>
      rw [limitOf, if_pos rfl] at h
      rw [if_neg hs, h]
      rfl

/-- A candidate is compared with the best so far. -/
theorem bestRound_of_candidate {i : ℕ} {best : Option (ℕ × RestingOrder)}
    (h : candidate taker hasLimit limit o = true) :
    bestRound taker hasLimit limit i o best =
      match best with
      | none => some (i, o)
      | some (j, b) => if better taker o b then some (i, o) else some (j, b) := by
  have hcross : crosses taker o.price limit = reaches taker (some limit) o.price := by
    cases taker <;> rfl
  obtain ⟨hs, hr⟩ := Bool.and_eq_true_iff.mp h
  have hskip : ¬ (hasLimit && !crosses taker o.price limit) = true := by
    cases hasLimit with
    | false => exact Bool.false_ne_true
    | true =>
      rw [limitOf, if_pos rfl] at hr
      rw [hcross, hr]
      decide
  unfold bestRound
  cases best with
  | none => exact (if_neg (bne_iff_ne.mp hs)).trans (if_neg hskip)
  | some mb => exact (if_neg (bne_iff_ne.mp hs)).trans (if_neg hskip)

/-- One round keeps the best order. -/
theorem IsBest.round {best : Option (ℕ × RestingOrder)} (h : IsBest taker hasLimit limit l best) :
    IsBest taker hasLimit limit (l ++ [o])
      (bestRound taker hasLimit limit l.length o best) := by
  have hlast : (l ++ [o])[l.length]? = some o := List.getElem?_concat_length ..
  cases hc : candidate taker hasLimit limit o with
  | false =>
    rw [bestRound_of_not hc]
    cases best with
    | none =>
      intro o' ho'
      rcases List.mem_append.mp ho' with ho' | ho'
      · exact h o' ho'
      · rw [List.mem_singleton.mp ho']
        exact hc
    | some mb =>
      obtain ⟨hget, hb, hmin⟩ := h
      refine ⟨?_, hb, fun o' ho' hc' => ?_⟩
      · rw [List.getElem?_append_left (List.getElem?_eq_some_iff.mp hget).1]
        exact hget
      · rcases List.mem_append.mp ho' with ho' | ho'
        · exact hmin o' ho' hc'
        · rw [List.mem_singleton.mp ho', hc] at hc'
          cases hc'
  | true =>
    have hirrefl : ∀ o : RestingOrder, better taker o o = false := fun o => by
      rw [← Bool.not_eq_true, better_iff]
      exact lt_irrefl _
    rw [bestRound_of_candidate hc]
    cases best with
    | none =>
      refine ⟨hlast, hc, fun o' ho' hc' => ?_⟩
      rcases List.mem_append.mp ho' with ho' | ho'
      · rw [h o' ho'] at hc'
        cases hc'
      · rw [List.mem_singleton.mp ho']
        exact hirrefl o
    | some mb =>
      obtain ⟨m, b⟩ := mb
      obtain ⟨hget, hb, hmin⟩ := h
      dsimp only
      by_cases hlt : better taker o b = true
      · rw [if_pos hlt]
        refine ⟨hlast, hc, fun o' ho' hc' => ?_⟩
        rcases List.mem_append.mp ho' with ho' | ho'
        · -- nothing before is better than `b`, which `o` beats
          have hle := hmin o' ho' hc'
          rw [← Bool.not_eq_true, better_iff, not_lt] at hle ⊢
          exact (better_iff.mp hlt).le.trans hle
        · rw [List.mem_singleton.mp ho']
          exact hirrefl o
      · rw [if_neg hlt]
        refine ⟨?_, hb, fun o' ho' hc' => ?_⟩
        · rw [List.getElem?_append_left (List.getElem?_eq_some_iff.mp hget).1]
          exact hget
        · rcases List.mem_append.mp ho' with ho' | ho'
          · exact hmin o' ho' hc'
          · rw [List.mem_singleton.mp ho', ← Bool.not_eq_true]
            exact hlt

/-- The scan keeps the best of the orders it has passed. -/
theorem bestFrom_isBest : ∀ (l pre : List RestingOrder) (best : Option (ℕ × RestingOrder)),
    IsBest taker hasLimit limit pre best →
    IsBest taker hasLimit limit (pre ++ l) (bestFrom taker hasLimit limit l pre.length best) := by
  intro l
  induction l with
  | nil =>
    intro pre best h
    rw [List.append_nil]
    exact h
  | cons o l ih =>
    intro pre best h
    have hrec := ih (pre ++ [o]) _ h.round
    rw [List.append_assoc, List.singleton_append, List.length_append, List.length_singleton] at hrec
    exact hrec

/-- The scan finds the best candidate, or says that there is none. -/
theorem bestOpposite_isBest (orders : List RestingOrder) (taker : Side) (hasLimit : Bool)
    (limit : Price) :
    IsBest taker hasLimit limit orders (bestOpposite orders taker hasLimit limit) :=
  bestFrom_isBest orders [] none fun _ ho => absurd ho List.not_mem_nil

/-- The orders of the vector: those a taker trades against, in priority order, and its own
side. -/
structure Sides (taker : Side) (orders queue own : List RestingOrder) : Prop where
  perm : orders.Perm (queue ++ own)
  other : ∀ o ∈ queue, o.side = taker.opposite
  same : ∀ o ∈ own, o.side = taker
  ordered : queue.Pairwise (before taker.opposite)

/-- With no order to trade against, the scan finds nothing. -/
theorem bestOpposite_nil (h : Sides taker orders [] own) :
    bestOpposite orders taker hasLimit limit = none := by
  have hbest := bestOpposite_isBest orders taker hasLimit limit
  cases hb : bestOpposite orders taker hasLimit limit with
  | none => rfl
  | some mb =>
    rw [hb] at hbest
    obtain ⟨hget, hc, -⟩ := hbest
    have hmem := h.perm.mem_iff.mp (List.mem_of_getElem? hget)
    rw [candidate_iff, h.same _ hmem] at hc
    exact absurd hc.1.symm (Side.opposite_ne taker)

/-- **The scan finds the front of the queue**, if that is within reach. -/
theorem bestOpposite_cons (h : Sides taker orders (a :: queue) own)
    (hr : reaches taker (limitOf hasLimit limit) a.price = true) :
    ∃ m, bestOpposite orders taker hasLimit limit = some (m, a) ∧ orders[m]? = some a := by
  have hbest := bestOpposite_isBest orders taker hasLimit limit
  have hmem : a ∈ orders := h.perm.mem_iff.mpr (by simp)
  have ha : candidate taker hasLimit limit a = true :=
    candidate_iff.mpr ⟨h.other a List.mem_cons_self, hr⟩
  cases hb : bestOpposite orders taker hasLimit limit with
  | none =>
    rw [hb] at hbest
    rw [hbest a hmem] at ha
    cases ha
  | some mb =>
    obtain ⟨m, b⟩ := mb
    rw [hb] at hbest
    obtain ⟨hget, hc, hmin⟩ := hbest
    -- the front of the queue is better than every other candidate
    have hbmem := h.perm.mem_iff.mp (List.mem_of_getElem? hget)
    have hbq : b ∈ a :: queue := by
      rcases List.mem_append.mp hbmem with hq | ho
      · exact hq
      · rw [candidate_iff, h.same _ ho] at hc
        exact absurd hc.1.symm (Side.opposite_ne taker)
    rcases List.mem_cons.mp hbq with rfl | hbq
    · exact ⟨m, rfl, hget⟩
    · have hlt := (List.pairwise_cons.mp h.ordered).1 b hbq
      have hnot := hmin a hmem ha
      rw [before_iff, ← better_iff, hnot] at hlt
      cases hlt

/-- A queue whose front is out of reach has nothing within reach. -/
theorem bestOpposite_out (h : Sides taker orders (a :: queue) own)
    (hr : reaches taker (limitOf hasLimit limit) a.price = false) :
    bestOpposite orders taker hasLimit limit = none := by
  have hbest := bestOpposite_isBest orders taker hasLimit limit
  cases hb : bestOpposite orders taker hasLimit limit with
  | none => rfl
  | some mb =>
    obtain ⟨m, b⟩ := mb
    rw [hb] at hbest
    obtain ⟨hget, hc, -⟩ := hbest
    have hbmem := h.perm.mem_iff.mp (List.mem_of_getElem? hget)
    rw [candidate_iff] at hc
    rcases List.mem_append.mp hbmem with hq | ho
    · rcases List.mem_cons.mp hq with rfl | hq
      · rw [hc.2] at hr
        cases hr
      · have hbefore := (List.pairwise_cons.mp h.ordered).1 b hq
        cases hasLimit with
        | false => cases hr
        | true =>
          have hc' : reaches taker (some limit) b.price = true := hc.2
          have hr' : reaches taker (some limit) a.price = false := hr
          rw [reaches_iff] at hc'
          rw [← Bool.not_eq_true, reaches_iff] at hr'
          rw [before, rank, rank] at hbefore
          omega
    · exact absurd ((h.same _ ho).symm.trans hc.1).symm (Side.opposite_ne taker)

/-! ## The matching loop -/

/-- A sweep of a queue, as the loop of the oracle has it to make. -/
def sweepOf (taker : Side) (hasLimit : Bool) (limit : Price) (account : Account) (qty : Qty)
    (queue : List RestingOrder) : Greedy.Outcome RestingOrder :=
  RestingOrder.sweep (fun o => reaches taker (limitOf hasLimit limit) o.price) account qty.toNat
    queue

section SweepOf

variable {account : Account} {qty : Qty}

theorem sweepOf_zero (hq : qty.toNat = 0) :
    sweepOf taker hasLimit limit account qty queue = ⟨[], queue, 0, false⟩ := by
  rw [sweepOf, hq]
  exact Greedy.sweep_zero

/-- A sweep stops at an order out of reach. -/
theorem sweepOf_out (hr : reaches taker (limitOf hasLimit limit) a.price = false) :
    sweepOf taker hasLimit limit account qty (a :: queue) = ⟨[], a :: queue, qty.toNat, false⟩ := by
  unfold sweepOf
  exact Greedy.sweep_cons_out hr

/-- A sweep stops at the taker's own order. -/
theorem sweepOf_own (hq : qty.toNat ≠ 0)
    (hr : reaches taker (limitOf hasLimit limit) a.price = true) (ha : a.account = account) :
    sweepOf taker hasLimit limit account qty (a :: queue) = ⟨[], a :: queue, qty.toNat, true⟩ := by
  unfold sweepOf
  exact Greedy.sweep_cons_barred hq hr (beq_iff_eq.mpr ha)

/-- A sweep takes an order whole and goes on with what is left. -/
theorem sweepOf_full (hq : qty.toNat ≠ 0)
    (hr : reaches taker (limitOf hasLimit limit) a.price = true) (ha : a.account ≠ account)
    (hle : a.amount ≤ qty.toNat) :
    sweepOf taker hasLimit limit account qty (a :: queue) =
      { sweepOf taker hasLimit limit account (qty - a.qty) queue with
        taken := (a, a.amount) ::
          (sweepOf taker hasLimit limit account (qty - a.qty) queue).taken } := by
  have hrest : (qty - a.qty).toNat = qty.toNat - a.amount :=
    UInt32.toNat_sub_of_le _ _ (UInt32.le_iff_toNat_le.mpr hle)
  unfold sweepOf
  rw [hrest]
  exact Greedy.sweep_cons_full hq hr (beq_eq_false_iff_ne.mpr ha) hle

/-- A sweep ends at the order it takes a part of. -/
theorem sweepOf_partial (hq : qty.toNat ≠ 0)
    (hr : reaches taker (limitOf hasLimit limit) a.price = true) (ha : a.account ≠ account)
    (hlt : qty.toNat < a.amount) :
    sweepOf taker hasLimit limit account qty (a :: queue) =
      ⟨[(a, qty.toNat)], a.reduce qty.toNat :: queue, 0, false⟩ := by
  unfold sweepOf
  exact Greedy.sweep_cons_part hq hr (beq_eq_false_iff_ne.mpr ha) hlt

end SweepOf

/-- Erasing the best order leaves the rest of its queue. -/
theorem Sides.erase (h : Sides taker orders (a :: queue) own) {m : ℕ} (hm : orders[m]? = some a)
    (x : RestingOrder) : Sides taker ((orders.set m x).eraseIdx m) queue own where
  perm := by
    obtain ⟨hlt, hget⟩ := List.getElem?_eq_some_iff.mp hm
    have hp := (List.getElem_cons_eraseIdx_perm hlt).trans h.perm
    rw [hget, List.cons_append, List.perm_cons] at hp
    rw [List.eraseIdx_set_eq]
    exact hp
  other o ho := h.other o (List.mem_cons_of_mem _ ho)
  same := h.same
  ordered := (List.pairwise_cons.mp h.ordered).2

theorem Sides.set_perm (h : Sides taker orders (a :: queue) own) {m : ℕ}
    (hm : orders[m]? = some a) (x : RestingOrder) :
    (orders.set m x).Perm (x :: queue ++ own) := by
  obtain ⟨hlt, -⟩ := List.getElem?_eq_some_iff.mp hm
  have hp := (h.erase hm x).perm
  rw [List.eraseIdx_set_eq] at hp
  exact (List.set_perm_cons_eraseIdx hlt x).trans (hp.cons x)

/-- The loop ended with the outcome `r` of a sweep. -/
structure Swept (own : List RestingOrder) (id : OrderId) (seq : SeqNo) (tradeId : UInt64)
    (trades : List Trade) (r : Greedy.Outcome RestingOrder) (w : Matching) : Prop where
  orders : w.orders.Perm (r.queue ++ own)
  nextTradeId : w.nextTradeId = tradeId + UInt64.ofNat r.taken.length
  qty : w.qty = UInt32.ofNat r.unmet
  trades : w.trades = trades ++ tradesOf id seq tradeId r.taken
  stpRejected : w.stpRejected = r.stopped

/-- A sweep that took nothing leaves everything as it was. -/
theorem swept_of_idle (hp : orders.Perm (queue ++ own)) (id : OrderId) (seq : SeqNo)
    (tradeId : UInt64) (qty : Qty) (trades : List Trade) (stopped : Bool) :
    Swept own id seq tradeId trades ⟨[], queue, qty.toNat, stopped⟩
      ⟨orders, tradeId, qty, trades, stopped⟩ :=
  ⟨hp, (UInt64.add_zero _).symm, UInt32.ofNat_toNat.symm, (List.append_nil _).symm, rfl⟩

/-- **The matching loop is a greedy sweep** of the queue. -/
theorem matchLoop_spec (id : OrderId) (taker : Side) (hasLimit : Bool) (limit : Price)
    (account : Account) (seq : SeqNo) : ∀ (queue own orders : List RestingOrder) (fuel : ℕ)
    (tradeId : UInt64) (qty : Qty) (trades : List Trade), Sides taker orders queue own →
    queue.length + 2 ≤ fuel →
    ∃ w, matchLoop id taker hasLimit limit account seq fuel ⟨orders, tradeId, qty, trades, false⟩
        = .ok w ∧
      Swept own id seq tradeId trades (sweepOf taker hasLimit limit account qty queue) w := by
  intro queue
  induction queue with
  | nil =>
    intro own orders fuel tradeId qty trades h hfuel
    obtain ⟨fuel, rfl⟩ := Nat.exists_eq_add_one_of_ne_zero (by omega : fuel ≠ 0)
    refine ⟨⟨orders, tradeId, qty, trades, false⟩, ?_,
      swept_of_idle h.perm id seq tradeId qty trades false⟩
    unfold matchLoop
    rw [bestOpposite_nil h]
    split <;> rfl
  | cons a queue ih =>
    intro own orders fuel tradeId qty trades h hfuel
    obtain ⟨fuel, rfl⟩ := Nat.exists_eq_add_one_of_ne_zero (by omega : fuel ≠ 0)
    rw [List.length_cons] at hfuel
    unfold matchLoop
    by_cases hq : qty > 0
    swap
    · -- the quantity is used up
      have hzero : qty.toNat = 0 := by
        rw [pos_iff_toNat] at hq
        omega
      have hidle := swept_of_idle h.perm id seq tradeId qty trades false
      rw [hzero] at hidle
      rw [if_neg hq, sweepOf_zero hzero]
      exact ⟨_, rfl, hidle⟩
    have hq0 : qty.toNat ≠ 0 := by
      rw [pos_iff_toNat] at hq
      omega
    rw [if_pos hq]
    by_cases hr : reaches taker (limitOf hasLimit limit) a.price = true
    swap
    · -- the front of the queue is out of reach
      rw [Bool.not_eq_true] at hr
      rw [bestOpposite_out h hr, sweepOf_out hr]
      exact ⟨_, rfl, swept_of_idle h.perm id seq tradeId qty trades false⟩
    obtain ⟨m, hbest, hm⟩ := bestOpposite_cons h hr
    simp only [hbest]
    by_cases ha : a.account = account
    · -- the front of the queue is the taker's own
      rw [if_pos ha, sweepOf_own hq0 hr ha]
      exact ⟨_, rfl, swept_of_idle h.perm id seq tradeId qty trades true⟩
    rw [if_neg ha]
    by_cases hle : a.amount ≤ qty.toNat
    · -- the front of the queue is taken as a whole
      have hmin : min qty a.qty = a.qty := by
        rw [← UInt32.toNat_inj, toNat_min]
        exact Nat.min_eq_right hle
      obtain ⟨w, heq, hw⟩ := ih own _ fuel (tradeId + 1) (qty - a.qty)
        (trades ++ [⟨a.orderId, id, a.price, a.qty, tradeId, seq⟩])
        (h.erase hm { a with qty := 0 }) (by omega)
      rw [hmin, UInt32.sub_self, if_pos rfl, sweepOf_full hq0 hr ha hle]
      refine ⟨w, heq, hw.orders, ?_, hw.qty, ?_, hw.stpRejected⟩
      · rw [hw.nextTradeId, List.length_cons, Nat.add_comm, UInt64.ofNat_add, UInt64.add_assoc]
        rfl
      · have hqty : UInt32.ofNat a.amount = a.qty := UInt32.ofNat_toNat
        rw [hw.trades, List.append_assoc, tradesOf, hqty]
        rfl
    · -- the quantity ends inside the front of the queue
      rw [not_le] at hle
      have hle' : qty ≤ a.qty := UInt32.le_iff_toNat_le.mpr hle.le
      have hmin : min qty a.qty = qty := if_pos hle'
      have hne : a.qty - qty ≠ 0 := fun e => by
        have hsub := congrArg UInt32.toNat e
        rw [UInt32.toNat_sub_of_le _ _ hle', UInt32.toNat_zero] at hsub
        rw [amount] at hle
        omega
      have hred : a.reduce qty.toNat = { a with qty := a.qty - qty } := by
        rw [reduce, UInt32.ofNat_toNat]
      obtain ⟨fuel, rfl⟩ := Nat.exists_eq_add_one_of_ne_zero (by omega : fuel ≠ 0)
      rw [hmin, UInt32.sub_self, if_neg hne, sweepOf_partial hq0 hr ha hle, hred]
      refine ⟨_, rfl, h.set_perm hm _, rfl, rfl, ?_, rfl⟩
      rw [tradesOf, UInt32.ofNat_toNat]
      rfl

end Oracle

end MatchingEngine
