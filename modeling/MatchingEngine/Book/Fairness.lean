import MatchingEngine.Spec.Priority

/-!
# Priority is never jumped

Two orders of one side, `x` ahead of `y`, in any reachable book and over any run from there.
-/

namespace MatchingEngine

open Run

variable {s : PriorityBook} {side : Side} {x y : OrderId}

/-- Over a whole run, as long as both rest and neither is repositioned. -/
theorem PriorityBook.ahead_run : ∀ (cmds : List Command) (s : PriorityBook), s.Ok →
    Ahead side x y s.orders →
    Stays x s.orders (cmds.zip (run observe s cmds).2) →
    Stays y s.orders (cmds.zip (run observe s cmds).2) →
    Ahead side x y (run observe s cmds).1.orders := by
  intro cmds
  induction cmds with
  | nil => exact fun _ _ hxy _ _ => hxy
  | cons c cmds ih =>
    intro s hok hxy hx hy
    obtain ⟨hrx, hinx, hx⟩ := hx
    obtain ⟨hry, hiny, hy⟩ := hy
    have heff := exec_effect hok counter32 c
    have hok' : (s.observe c).1.Ok := hok.exec counter32 c
    refine ih (s.observe c).1 hok' ?_ hx hy
    rw [ahead_iff hok']
    exact heff.ahead hok ((ahead_iff hok).mp hxy) hrx hry hinx hiny

namespace Book

/-- **Priority is never jumped.** -/
theorem priority_is_never_jumped {b : Book} (hb : b.Reachable) {l : List RestingOrder}
    (hl : b.snapshot = .ok l) {side : Side} {x y : OrderId} (hxy : Ahead side x y l) :
    (∀ cmds, ∃ b' log l', runM step b cmds = .ok (b', log) ∧ b'.snapshot = .ok l' ∧
      (Stays x l (cmds.zip log) → Stays y l (cmds.zip log) → Ahead side x y l')) ∧
    ∀ c, ∃ b' reply l', b.step c = .ok (b', reply, l') ∧
      ((∃ t ∈ reply.trades, t.makerOrderId = y) → x ∉ l'.map (·.orderId)) ∧
      ∀ a ∈ l,
        ((∃ t ∈ reply.trades, t.makerOrderId = a.orderId) → a.orderId ∈ l'.map (·.orderId) →
          ∃ front behind n, ofSide a.side l = front ++ a :: behind ∧
            ofSide a.side l' = a.reduce n :: behind) ∧
        (c.kind = .modify → c.id = a.orderId → reply = .flag true → c.price = a.price →
          c.qty ≤ a.qty → ∃ front behind, ofSide a.side l = front ++ a :: behind ∧
            ofSide a.side l' = front ++ { a with qty := c.qty } :: behind) := by
  obtain ⟨s, hrep, hok, rfl⟩ := hb.shows hl
  refine ⟨fun cmds => ?_, fun c => ?_⟩
  · obtain ⟨b', hrun, hrep', -⟩ := run_step_spec hrep hok cmds
    exact ⟨b', _, _, hrun, snapshot_spec hrep', PriorityBook.ahead_run cmds s hok hxy⟩
  · obtain ⟨b', hstep, -⟩ := observe_spec hrep hok c
    have hok' : (s.exec counter32 c).1.Ok := hok.exec counter32 c
    have heff := PriorityBook.exec_effect hok counter32 c
    refine ⟨b', _, _, hstep, ?_, fun a ha => ⟨fun htrade hstill => ?_, ?_⟩⟩
    · intro htrade
      obtain ⟨t, ht, hmaker⟩ := htrade
      exact heff.front_first hok ((PriorityBook.ahead_iff hok).mp hxy) ht hmaker
    · obtain ⟨t, ht, hmaker⟩ := htrade
      have hfill := heff.partial_fill hok ha ht hmaker hstill
      rw [← PriorityBook.ofSide_orders hok, ← PriorityBook.ofSide_orders hok'] at hfill
      exact hfill
    · intro hkind hid hflag hprice hqty
      have hreply : (s.exec counter32 c).2 = .flag true := hflag
      rw [hreply] at heff
      have hplace := heff.reduce_in_place hok ha hkind hid hprice hqty
      rw [← PriorityBook.ofSide_orders hok, ← PriorityBook.ofSide_orders hok'] at hplace
      exact hplace

/-- Two bids at one price, of accounts 1 and 2. -/
def twoBuys : Book := after 4 [limitCommand 1 .buy 100 5 1, limitCommand 2 .buy 100 5 2]

/-- The first order is filled in part, the second is reduced: they keep their order. -/
theorem priority_is_never_jumped_twoBuys :
    ∃ b' log l', runM step twoBuys [limitCommand 3 .sell 100 3 9, modifyCommand 2 100 4]
        = .ok (b', log) ∧ b'.snapshot = .ok l' ∧ Ahead .buy 1 2 l' := by
  have hsnap : twoBuys.snapshot = .ok [⟨.buy, 100, 1, 5, 1, 0⟩, ⟨.buy, 100, 2, 5, 2, 1⟩] := by
    decide +kernel
  have hlog : Except.map Prod.snd
      (runM step twoBuys [limitCommand 3 .sell 100 3 9, modifyCommand 2 100 4]) = .ok
        [(.added { accepted := true, trades := [⟨1, 3, 100, 3, 0, 2⟩] },
          [⟨.buy, 100, 1, 2, 1, 0⟩, ⟨.buy, 100, 2, 5, 2, 1⟩]),
        (.flag true, [⟨.buy, 100, 1, 2, 1, 0⟩, ⟨.buy, 100, 2, 4, 2, 1⟩])] := by
    decide +kernel
  have hahead : Ahead .buy 1 2 [⟨.buy, 100, 1, 5, 1, 0⟩, ⟨.buy, 100, 2, 5, 2, 1⟩] := by
    show [1, 2].Sublist [1, 2]
    exact List.Sublist.refl _
  have hreach : twoBuys.Reachable := reachable_after 4 _
  obtain ⟨b', log, l', hrun, hsnap', hall⟩ := (priority_is_never_jumped hreach hsnap hahead).1
    [limitCommand 3 .sell 100 3 9, modifyCommand 2 100 4]
  rw [hrun] at hlog
  obtain rfl := Except.ok.inj hlog
  refine ⟨b', _, l', hrun, hsnap', hall ?_ ?_⟩
  · simp [Stays, Repositions, limitCommand, modifyCommand]
  · simp [Stays, Repositions, limitCommand, modifyCommand]

end Book

end MatchingEngine
