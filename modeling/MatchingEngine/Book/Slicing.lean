import MatchingEngine.Book.Refinement
import MatchingEngine.Library.GreedySlices
import MatchingEngine.Spec.Ledger

/-!
# Orders in slices

A market order, or an immediate-or-cancel order, may be sent as one order or in slices one after
the other: the book that is left is the same, and every maker trades the same quantity.
-/

namespace MatchingEngine

open Run

namespace PriorityBook

variable {s : PriorityBook} {c : Command} {q : Qty}

/-- An order of which nothing rests, whatever becomes of it. -/
def Takes (c : Command) : Prop := c.kind = .market ∨ c.kind = .limit ∧ c.tif = .ioc

/-- The command for a part of the quantity. -/
def slice (c : Command) (q : Qty) : Command := { c with qty := q }

/-- A slice takes as the whole order does. -/
theorem takes_slice (h : Takes c) (q : Qty) : Takes (slice c q) := h

/-- Reducing a resting order keeps whatever a sweep asks of it. -/
theorem divides (reach : RestingOrder → Bool) (account : Account)
    (hreach : ∀ o n, reach (RestingOrder.reduce o n) = reach o) :
    Greedy.Divides RestingOrder.amount RestingOrder.reduce reach (fun o => o.account == account)
      RestingOrder.orderId where
  amount_reduce _ _ h := RestingOrder.amount_reduce h
  reduce_reduce o n m := by
    have hqty : o.qty - UInt32.ofNat n - UInt32.ofNat m = o.qty - UInt32.ofNat (n + m) := by
      rw [UInt32.ofNat_add]
      grind
    show { o with qty := o.qty - UInt32.ofNat n - UInt32.ofNat m } = _
    rw [hqty]
    rfl
  reach_reduce := hreach
  barred_reduce _ _ := rfl
  key_reduce _ _ := rfl

/-- What becomes of an order of which nothing rests. -/
theorem exec_takes (h : s.Ok) (hc : Takes c) (hq : c.qty ≠ 0) (hid : c.id ∉ s.ids) :
    s.exec counter32 c = (s.swept c, .added
      { accepted := true, trades := s.tradesOfSweep c, stpRejected := (s.sweepOf c).stopped }) := by
  have heff := exec_effect h counter32 c
  have hkind : ¬ (c.kind = .cancel ∨ c.kind = .modify) := by
    rcases hc with hk | ⟨hk, -⟩
    · rw [hk]
      decide
    · rw [hk]
      decide
  have hnot : ¬ s.MayRest c := by
    intro hrest
    rcases hc with hk | ⟨-, htif⟩
    · exact absurd (hk.symm.trans hrest.kind) (by decide)
    · exact absurd (htif.symm.trans hrest.tif) (by decide)
  generalize s.exec counter32 c = p at heff
  obtain ⟨s', reply⟩ := p
  dsimp only at heff
  cases heff with
  | refused hadds hbad => exact absurd hbad (not_or.mpr ⟨hq, hid⟩)
  | killed hk htif =>
    rcases hc with hk' | ⟨-, htif'⟩
    · exact absurd (hk'.symm.trans hk) (by decide)
    · exact absurd (htif'.symm.trans htif) (by decide)
  | matched => rfl
  | exhausted _ _ hrest => exact absurd hrest hnot
  | rested _ _ hrest => exact absurd hrest hnot
  | ignored hk => exact absurd hk hkind
  | cancelled o hk => exact absurd (Or.inl hk) hkind
  | reduced o hk => exact absurd (Or.inr hk) hkind
  | moved o hk => exact absurd (Or.inr hk) hkind

/-- What becomes of an order that is refused. -/
theorem exec_refused (hc : Takes c) (gate : ℕ → ℕ) (hid : c.id ∈ s.ids) :
    s.exec gate c = (s.tick, .added {}) := by
  unfold exec
  rcases hc with hk | ⟨hk, -⟩
  · rw [hk]
    dsimp only
    rw [addMarket, if_pos (Or.inr hid)]
  · rw [hk]
    dsimp only
    rw [addLimit, if_pos (Or.inr hid)]

/-! ## Slices -/

/-- What the slices of an order did together: `r` is the sweep with the whole demand. -/
structure Sliced (s : PriorityBook) (c : Command) (r : Greedy.Outcome RestingOrder)
    (s' : PriorityBook) (replies : List Reply) : Prop where
  ok : s'.Ok
  resting : s'.resting = Function.update s.resting c.side.opposite r.queue
  traded : ∀ maker, tradedBy maker (replies.flatMap Reply.trades) =
    Greedy.takenFrom (·.orderId) r.taken maker
  last : ∃ r', replies.getLast? = some (.added r') ∧ r'.accepted = true ∧
    r'.stpRejected = r.stopped

/-- What is traded with a maker adds up over the trades. -/
theorem tradedBy_append (maker : OrderId) (trades trades' : List Trade) :
    tradedBy maker (trades ++ trades') = tradedBy maker trades + tradedBy maker trades' := by
  rw [tradedBy, List.filter_append, volume, List.map_append, List.sum_append]
  rfl

/-- **The slices of an order** do what the whole order does. -/
theorem run_slices (c : Command) (hc : Takes c) : ∀ (qs : List Qty) (s : PriorityBook), qs ≠ [] →
    s.Ok → c.id ∉ s.ids → (∀ q ∈ qs, q ≠ 0) →
      Sliced s c (s.sweep c.side c.limit c.account (qs.map UInt32.toNat).sum)
        (run (exec counter32) s (qs.map (slice c))).1
        (run (exec counter32) s (qs.map (slice c))).2 := by
  intro qs
  induction qs with
  | nil => exact fun _ h => absurd rfl h
  | cons q qs ih =>
    intro s _ h hid hpos
    rw [List.forall_mem_cons] at hpos
    have hexec : s.exec counter32 (slice c q) = (s.swept (slice c q), .added
        { accepted := true, trades := s.tradesOfSweep (slice c q)
          stpRejected := (s.sweepOf (slice c q)).stopped }) :=
      exec_takes h (takes_slice hc q) hpos.1 hid
    have hok : (s.swept (slice c q)).Ok := by
      have hok := h.exec counter32 (slice c q)
      rwa [hexec] at hok
    have hfirst : ∀ maker, tradedBy maker (s.tradesOfSweep (slice c q)) =
        Greedy.takenFrom (·.orderId) (s.sweep c.side c.limit c.account q.toNat).taken maker :=
      tradedBy_sweep h (slice c q)
    rw [List.map_cons, List.map_cons, List.sum_cons, run, hexec]
    dsimp only
    by_cases hnil : qs = []
    · subst hnil
      refine ⟨hok, rfl, fun maker => ?_, _, rfl, rfl, rfl⟩
      show tradedBy maker (s.tradesOfSweep (slice c q) ++ []) = _
      rw [List.append_nil]
      exact hfirst maker
    · -- the other slices go on with what the first one left
      have hrest := ih (s.swept (slice c q)) hnil hok (ids_afterSweep hid) hpos.2
      have hsum : (qs.map UInt32.toNat).sum ≠ 0 := by
        obtain ⟨q', qs', rfl⟩ := List.exists_cons_of_ne_nil hnil
        have hq' :=
          (pos_iff_toNat q').mp (UInt32.pos_iff_ne_zero.mpr (hpos.2 q' List.mem_cons_self))
        rw [List.map_cons, List.sum_cons]
        omega
      have hjoin : Greedy.Joins RestingOrder.orderId
          (s.sweep c.side c.limit c.account (q.toNat + (qs.map UInt32.toNat).sum))
          (s.sweep c.side c.limit c.account q.toNat)
          ((s.swept (slice c q)).sweep c.side c.limit c.account (qs.map UInt32.toNat).sum) := by
        have hadd := Greedy.sweep_add (divides (fun o => reaches c.side c.limit o.price) c.account
          fun _ _ => rfl) hsum (s.resting c.side.opposite) q.toNat
        have hqueue : (s.swept (slice c q)).resting c.side.opposite = _ :=
          resting_afterSweep s.tick c.side (s.sweepOf (slice c q))
        unfold sweep
        rw [hqueue]
        exact hadd
      obtain ⟨r', hlast, haccepted, hstopped⟩ := hrest.last
      refine ⟨hrest.ok, ?_, fun maker => ?_, r', ?_, haccepted, hstopped.trans hjoin.stopped.symm⟩
      · rw [hrest.resting, hjoin.queue]
        show Function.update (Function.update s.resting c.side.opposite _) _ _ = _
        rw [Function.update_idem]
      · rw [hjoin.taken, ← hfirst, ← hrest.traded, ← tradedBy_append]
        rfl
      · rw [List.getLast?_cons, hlast]
        rfl

/-- Slices of an order whose id rests are refused, as the order is. -/
theorem run_slices_refused (c : Command) (hc : Takes c) : ∀ (qs : List Qty) (s : PriorityBook),
    c.id ∈ s.ids → (run (exec counter32) s (qs.map (slice c))).1.resting = s.resting ∧
      (run (exec counter32) s (qs.map (slice c))).2 = List.replicate qs.length (.added {}) := by
  intro qs
  induction qs with
  | nil => exact fun _ _ => ⟨rfl, rfl⟩
  | cons q qs ih =>
    intro s hid
    have hexec : s.exec counter32 (slice c q) = (s.tick, .added {}) :=
      exec_refused (takes_slice hc q) counter32 hid
    obtain ⟨hresting, hreplies⟩ := ih s.tick hid
    rw [List.map_cons, run, hexec]
    dsimp only
    rw [hresting, hreplies]
    exact ⟨rfl, rfl⟩

end PriorityBook

namespace Book

open PriorityBook

/-- A run from any book does what the abstract book says. -/
theorem run_from {b : Book} {s : PriorityBook} (h : b.Represents s) (hok : s.Ok)
    (cmds : List Command) :
    ∃ b', runM exec b cmds = .ok (b', (run (PriorityBook.exec counter32) s cmds).2) ∧
      b'.Represents (run (PriorityBook.exec counter32) s cmds).1 := by
  have hrun := runM_eq_run_of_forall (N := cmds.length)
    (R := fun _ (b : Book) (s : PriorityBook) => b.Represents s ∧ s.Ok)
    (fun _ b s c _ h => by
      obtain ⟨b', heq, hrep⟩ := exec_spec h.1 h.2 c
      exact ⟨b', heq, hrep, h.2.exec counter32 c⟩) cmds le_rfl ⟨h, hok⟩
  obtain ⟨b', heq, hrep, -⟩ := hrun
  exact ⟨b', heq, hrep⟩

/-- **Slicing changes nothing.** In every reachable book, an order of which nothing rests leaves
the same book and trades the same quantity with every maker whether it is sent as a whole or in
slices. The last slice is stopped by an own order if the whole order is. -/
theorem slicing_changes_nothing (b : Book) (h : b.Reachable) (c : Command)
    (hc : c.kind = .market ∨ c.kind = .limit ∧ c.tif = .ioc) (qs : List Qty) (hne : qs ≠ [])
    (hpos : ∀ q ∈ qs, q ≠ 0) (hsum : (qs.map UInt32.toNat).sum = c.qty.toNat) :
    ∃ b₁ b₂ r replies l, b.exec c = .ok (b₁, .added r) ∧
      runM exec b (qs.map fun q => { c with qty := q }) = .ok (b₂, replies) ∧
      b₁.snapshot = .ok l ∧ b₂.snapshot = .ok l ∧
      (∀ maker, tradedBy maker (replies.flatMap Reply.trades) = tradedBy maker r.trades) ∧
      ∃ r', replies.getLast? = some (.added r') ∧ r'.accepted = r.accepted ∧
        r'.stpRejected = r.stpRejected := by
  obtain ⟨s, hrep, hok⟩ := h.represents
  obtain ⟨b₁, hexec, hrep₁⟩ := exec_spec hrep hok c
  obtain ⟨b₂, hrun, hrep₂⟩ := run_from hrep hok (qs.map (slice c))
  have hshow : ∀ t t' : PriorityBook, t.resting = t'.resting → t.orders = t'.orders := by
    intro t t' heq
    rw [orders, orders, heq]
  by_cases hid : c.id ∈ s.ids
  · obtain ⟨hresting, hreplies⟩ := run_slices_refused c hc qs s hid
    have hwhole : s.exec counter32 c = (s.tick, .added {}) := exec_refused hc counter32 hid
    rw [hwhole] at hexec hrep₁
    rw [hreplies] at hrun
    have hlast : (List.replicate qs.length (Reply.added {})).getLast? = some (.added {}) := by
      rw [List.getLast?_replicate, if_neg (fun h => hne (List.length_eq_zero_iff.mp h))]
    refine ⟨b₁, b₂, {}, _, _, hexec, hrun, snapshot_spec hrep₁, ?_, fun maker => ?_, {}, hlast,
      rfl, rfl⟩
    · rw [snapshot_spec hrep₂, hshow _ _ hresting]
      rfl
    · have hnil : (List.replicate qs.length (Reply.added {})).flatMap Reply.trades = [] := by
        rw [List.flatMap_eq_nil_iff]
        intro reply hreply
        rw [List.eq_of_mem_replicate hreply]
        rfl
      rw [hnil]
  · have hq : c.qty ≠ 0 := by
      obtain ⟨q, qs', rfl⟩ := List.exists_cons_of_ne_nil hne
      have hq' := (pos_iff_toNat q).mp (UInt32.pos_iff_ne_zero.mpr (hpos q List.mem_cons_self))
      rw [List.map_cons, List.sum_cons] at hsum
      intro hzero
      rw [hzero, UInt32.toNat_zero] at hsum
      omega
    have hsliced := run_slices c hc qs s hne hok hid hpos
    rw [hsum] at hsliced
    have hwhole := exec_takes hok hc hq hid
    rw [hwhole] at hexec hrep₁
    obtain ⟨r', hlast, haccepted, hstopped⟩ := hsliced.last
    refine ⟨b₁, b₂, _, _, _, hexec, hrun, snapshot_spec hrep₁, ?_, fun maker => ?_, r', hlast,
      haccepted, hstopped⟩
    · rw [snapshot_spec hrep₂, hshow _ (s.swept c) hsliced.resting]
    · rw [hsliced.traded]
      exact (tradedBy_sweep hok c maker).symm

/-- Seven sold at once, or in three slices, to a buyer of five and another one of five. -/
theorem slicing_changes_nothing_three_slices :
    ∃ b₁ b₂ r replies l,
      exec (after 4 [limitCommand 1 .buy 100 5 1, limitCommand 2 .buy 99 5 2])
        (marketCommand 3 .sell 7 9) = .ok (b₁, .added r) ∧
      runM exec (after 4 [limitCommand 1 .buy 100 5 1, limitCommand 2 .buy 99 5 2])
        ([2, 4, 1].map fun q => marketCommand 3 .sell q 9) = .ok (b₂, replies) ∧
      b₁.snapshot = .ok l ∧ b₂.snapshot = .ok l ∧
      (∀ maker, tradedBy maker (replies.flatMap Reply.trades) = tradedBy maker r.trades) ∧
      ∃ r', replies.getLast? = some (.added r') ∧ r'.accepted = r.accepted ∧
        r'.stpRejected = r.stpRejected :=
  slicing_changes_nothing _ (reachable_after 4 _) (marketCommand 3 .sell 7 9) (Or.inl rfl)
    [2, 4, 1] (by decide) (by simp) (by decide)

end Book

end MatchingEngine
