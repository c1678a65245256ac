import MatchingEngine.Spec.Numbering

/-!
# Numbers are positions

In a run of fewer than `2 ^ 64` commands no counter wraps around, so the numbers of trades and
resting orders are exact.
-/

namespace MatchingEngine

open Run

namespace Book

/-- **Sequence and trade numbers are exact positions**, of commands and of trades. -/
theorem numbers_are_positions (capacity : Index) (cmds : List Command)
    (hlen : cmds.length < 2 ^ 64) :
    ∃ b log l, runM step (new capacity) cmds = .ok (b, log) ∧ b.snapshot = .ok l ∧
      log.length = cmds.length ∧
      (∀ (k : ℕ) (p : Command × Observed), (cmds.zip log)[k]? = some p →
        ∀ t ∈ p.2.1.trades, t.seqNo.toNat = k) ∧
      (History.trades (cmds.zip log)).map (fun t => t.tradeId.toNat) =
        List.range (History.trades (cmds.zip log)).length ∧
      ∀ o ∈ l, History.LastPlaced (cmds.zip log) o.orderId o.seqNo.toNat := by
  obtain ⟨b, hrun, hrep, -⟩ := run_step_spec (represents_new capacity) (PriorityBook.ok_new _) cmds
  have hlog := length_run PriorityBook.observe cmds (.new capacity.toNat)
  have hn := run_induction (P := Numbered) (fun _ _ c h => h.step c) cmds [] _
    (numbered_new capacity.toNat)
  rw [List.nil_append] at hn
  refine ⟨b, _, _, hrun, snapshot_spec hrep, hlog, ?_⟩
  generalize (run PriorityBook.observe (.new capacity.toNat) cmds).2 = log at hn hlog
  generalize (run PriorityBook.observe (.new capacity.toNat) cmds).1 = s at hn
  have hsize : (cmds.zip log).length = cmds.length := by
    rw [List.length_zip, hlog, Nat.min_self]
  -- below the length of the run, a number is its remainder
  have hexact : ∀ k, k < (cmds.zip log).length → (UInt64.ofNat k).toNat = k := fun k hk =>
    UInt64.toNat_ofNat_of_lt' (show k < 2 ^ 64 by omega)
  refine ⟨fun k p hp t ht => ?_, ?_, fun o ho => ?_⟩
  · rw [hn.seqNo k p hp t ht]
    exact hexact k (List.getElem?_eq_some_iff.mp hp).1
  · have hcount := hn.count
    have hids := congrArg (List.map UInt64.toNat) hn.tradeId
    rw [List.map_map, List.map_map] at hids
    refine hids.trans ((List.map_congr_left fun i hi => ?_).trans (List.map_id _))
    have hi := List.mem_range.mp hi
    exact hexact i (by omega)
  · obtain ⟨k, hk, hlast⟩ := hn.placed o ho
    obtain ⟨p, hp, -⟩ := hlast.places
    rw [hk, hexact k (List.getElem?_eq_some_iff.mp hp).1]
    exact hlast

/-- A rejected order, a rest, a trade, and a modify that moves an order behind another. -/
theorem numbers_are_positions_mixed_commands :
    ∃ b log l, runM step (new 3) [limitCommand 1 .sell 100 0 1, limitCommand 1 .sell 100 5 1,
        limitCommand 2 .sell 100 5 2, limitCommand 3 .buy 100 2 3, modifyCommand 1 100 9] =
        .ok (b, log) ∧ b.snapshot = .ok l ∧
      ∀ o ∈ l, History.LastPlaced ([limitCommand 1 .sell 100 0 1, limitCommand 1 .sell 100 5 1,
        limitCommand 2 .sell 100 5 2, limitCommand 3 .buy 100 2 3, modifyCommand 1 100 9].zip log)
        o.orderId o.seqNo.toNat := by
  obtain ⟨b, log, l, hrun, hsnap, -, -, -, hplaced⟩ := numbers_are_positions 3
    [limitCommand 1 .sell 100 0 1, limitCommand 1 .sell 100 5 1, limitCommand 2 .sell 100 5 2,
      limitCommand 3 .buy 100 2 3, modifyCommand 1 100 9] (by decide)
  exact ⟨b, log, l, hrun, hsnap, hplaced⟩

end Book

end MatchingEngine
