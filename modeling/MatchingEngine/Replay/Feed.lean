import MatchingEngine.Replay.ReplayTheorems
import MatchingEngine.Replay.Unambiguous
import MatchingEngine.Spec.Effect
import MatchingEngine.Spec.Reposition

/-!
# The log says what the book is

Whoever reads the log can keep the book without matching anything: the trades of an event are
taken from their makers, and what rests, goes or moves is in the event (`follow`). So the events
of a run rebuild its book (`feed_rebuilds_book`), and two replays with one log have one book, of
whatever capacities the books were and whatever the journals looked like
(`equal_logs_equal_books`).
-/

namespace MatchingEngine

namespace PriorityBook

variable {s s' t : PriorityBook} {c : Command} {reply : Reply}

/-! ## Following a log -/

/-- Take what was traded from the makers of a side. -/
def strip (s : PriorityBook) (side : Side) (trades : List Trade) : PriorityBook :=
  s.setSide side (removeTrades trades (s.resting side))

/-- The book after an event, as far as its orders go. Nothing is matched, and no capacity is
known. -/
def follow (s : PriorityBook) (e : Replay.Event) : PriorityBook :=
  let c := e.command
  match c.kind with
  | .limit =>
    let after := s.tick.strip c.side.opposite e.trades
    if e.outcome.restingQty = 0 then after
    else after.insert ⟨c.side, c.price, c.id, e.outcome.restingQty, c.account, s.nextSeq⟩
  | .market => s.tick.strip c.side.opposite e.trades
  | .cancel =>
    match s.find c.id, e.outcome.ok with
    | some o, true => s.tick.remove o
    | _, _ => s.tick
  | .modify =>
    match s.find c.id, e.outcome.ok with
    | some o, true =>
      if c.price = o.price ∧ c.qty ≤ o.qty then s.tick.setQty o c.qty
      else (s.tick.remove o).insert { o with price := c.price, qty := c.qty, seqNo := s.nextSeq }
    | _, _ => s.tick

/-- Two books with the same orders, at the same place of a run. -/
def SameOrders (s t : PriorityBook) : Prop := s.resting = t.resting ∧ s.nextSeq = t.nextSeq

theorem sameOrders_refl (s : PriorityBook) : s.SameOrders s := ⟨rfl, rfl⟩

/-- Following looks at the orders only. -/
theorem SameOrders.follow (h : s.SameOrders t) (e : Replay.Event) :
    (s.follow e).SameOrders (t.follow e) := by
  obtain ⟨capacity, resting, nextSeq, nextTradeId⟩ := s
  obtain ⟨capacity', resting', nextSeq', nextTradeId'⟩ := t
  obtain ⟨hresting, hseq⟩ := h
  dsimp only at hresting hseq
  subst hresting hseq
  unfold PriorityBook.follow
  dsimp only
  have hfind : ∀ id, find ⟨capacity, resting, nextSeq, nextTradeId⟩ id =
      find ⟨capacity', resting, nextSeq, nextTradeId'⟩ id := fun _ => rfl
  cases e.command.kind with
  | limit =>
    dsimp only
    split
    · exact ⟨rfl, rfl⟩
    · exact ⟨rfl, rfl⟩
  | market => exact ⟨rfl, rfl⟩
  | cancel =>
    dsimp only
    rw [hfind]
    cases find ⟨capacity', resting, nextSeq, nextTradeId'⟩ e.command.id with
    | none => exact ⟨rfl, rfl⟩
    | some o =>
      cases e.outcome.ok with
      | false => exact ⟨rfl, rfl⟩
      | true => exact ⟨rfl, rfl⟩
  | modify =>
    dsimp only
    rw [hfind]
    cases find ⟨capacity', resting, nextSeq, nextTradeId'⟩ e.command.id with
    | none => exact ⟨rfl, rfl⟩
    | some o =>
      cases e.outcome.ok with
      | false => exact ⟨rfl, rfl⟩
      | true =>
        dsimp only
        split
        · exact ⟨rfl, rfl⟩
        · exact ⟨rfl, rfl⟩

/-- The fields that the kind does not use are not followed. -/
theorem follow_canon (s : PriorityBook) (c : Command) (o : Replay.Outcome) (trades : List Trade) :
    s.follow ⟨Journal.canon c, o, trades⟩ = s.follow ⟨c, o, trades⟩ := by
  unfold follow
  dsimp only
  rw [Journal.kind_canon]
  unfold Journal.canon
  cases c.kind <;> rfl

theorem strip_nil (h : s.Ok) (side : Side) : s.strip side [] = s := by
  have hnil : removeTrades [] (s.resting side) = s.resting side := by
    have hkeep : ∀ o ∈ s.resting side, (if tradedBy o.orderId [] = o.amount then none
        else some (o.reduce (tradedBy o.orderId []))) = some o := by
      intro o ho
      have hpos := amount_pos h side o ho
      have hzero : tradedBy o.orderId [] = 0 := rfl
      rw [hzero, if_neg (by omega)]
      show some { o with qty := o.qty - 0 } = some o
      rw [UInt32.sub_zero]
    rw [removeTrades, List.filterMap_congr hkeep, List.filterMap_some]
  rw [strip, hnil]
  exact s.setSide_self side

/-- The trades of a command say what its sweep left. -/
theorem strip_sweep (h : s.Ok) (c : Command) :
    (s.tick.strip c.side.opposite (s.tradesOfSweep c)).SameOrders (s.swept c) := by
  refine ⟨?_, rfl⟩
  have hqueue : (s.sweepOf c).queue =
      removeTrades (s.tradesOfSweep c) (s.resting c.side.opposite) := queue_eq_removeTrades h ..
  show Function.update s.resting _ _ = Function.update s.resting _ _
  rw [hqueue]
  rfl

/-- Insertion looks at the resting orders only. -/
theorem SameOrders.insert (h : s.SameOrders t) (o : RestingOrder) :
    (s.insert o).SameOrders (t.insert o) := by
  refine ⟨?_, h.2⟩
  show Function.update s.resting _ (PriorityList.enqueue _ o (s.resting o.side)) =
    Function.update t.resting _ (PriorityList.enqueue _ o (t.resting o.side))
  rw [h.1]

/-! ## The events of a run -/

/-- What the log records of a command. -/
def eventOf (s : PriorityBook) (c : Command) : Replay.Event :=
  ⟨Journal.canon c, Replay.outcomeOf (s.exec counter32 c).2, (s.exec counter32 c).2.trades⟩

/-- The events of a run from a book. -/
def eventsFrom (s : PriorityBook) : List Command → List Replay.Event
  | [] => []
  | c :: cmds => s.eventOf c :: (s.exec counter32 c).1.eventsFrom cmds

/-- The book after some commands. -/
def after (s : PriorityBook) (cmds : List Command) : PriorityBook :=
  cmds.foldl (fun s c => (s.exec counter32 c).1) s

/-- **Whatever a command does, its event says it.** -/
theorem follow_effect (h : s.Ok) (heff : Effect s c s' reply) :
    (s.follow ⟨c, Replay.outcomeOf reply, reply.trades⟩).SameOrders s' := by
  have hlimit : c.kind = .limit → ∀ (o : Replay.Outcome) trades,
      s.follow ⟨c, o, trades⟩ = if o.restingQty = 0 then s.tick.strip c.side.opposite trades
        else (s.tick.strip c.side.opposite trades).insert
          ⟨c.side, c.price, c.id, o.restingQty, c.account, s.nextSeq⟩ := by
    intro hkind o trades
    unfold follow
    dsimp only
    rw [hkind]
  have hmarket : c.kind = .market → ∀ (o : Replay.Outcome) trades,
      s.follow ⟨c, o, trades⟩ = s.tick.strip c.side.opposite trades := by
    intro hkind o trades
    unfold follow
    dsimp only
    rw [hkind]
  -- an order of which nothing rests
  have hadds : c.Adds → ∀ (o : Replay.Outcome) trades, o.restingQty = 0 →
      s.follow ⟨c, o, trades⟩ = s.tick.strip c.side.opposite trades := by
    intro hadds o trades hrest
    rcases hadds with hkind | hkind
    · rw [hlimit hkind, if_pos hrest]
    · exact hmarket hkind o trades
  cases heff with
  | refused hkind hbad =>
    rw [hadds hkind _ _ rfl]
    exact (strip_nil h.tick _).symm ▸ sameOrders_refl _
  | killed hkind htif =>
    rw [hadds (Or.inl hkind) _ _ rfl]
    exact (strip_nil h.tick _).symm ▸ sameOrders_refl _
  | matched hkind hq hid hrest =>
    rw [hadds hkind _ _ rfl]
    exact strip_sweep h c
  | exhausted hq hid hrest hfull =>
    rw [hadds (Or.inl hrest.kind) _ _ rfl]
    exact strip_sweep h c
  | rested hq hid hrest hroom =>
    have hne : (s.residual c).qty ≠ 0 := ofNat_unmet_ne hrest.unmet
    rw [hlimit hrest.kind]
    show (if (s.residual c).qty = 0 then _ else _ : PriorityBook).SameOrders _
    rw [if_neg hne]
    exact (strip_sweep h c).insert (s.residual c)
  | ignored hkind =>
    unfold follow
    dsimp only
    rcases hkind with hkind | hkind
    · rw [hkind]
      cases s.find c.id <;> exact sameOrders_refl _
    · rw [hkind]
      cases s.find c.id <;> exact sameOrders_refl _
  | cancelled o hkind hfind =>
    unfold follow
    dsimp only
    rw [hkind, hfind]
    exact sameOrders_refl _
  | reduced o hkind hfind hq hprice hle =>
    unfold follow
    dsimp only
    rw [hkind, hfind]
    dsimp only [Replay.outcomeOf]
    rw [if_pos ⟨hprice, hle⟩]
    exact sameOrders_refl _
  | moved o hkind hfind hq hplace =>
    unfold follow
    dsimp only
    rw [hkind, hfind]
    dsimp only [Replay.outcomeOf]
    rw [if_neg hplace]
    exact sameOrders_refl _

/-- Following an event leads to the orders that its command left. -/
theorem follow_eventOf (h : s.Ok) (c : Command) :
    (s.follow (s.eventOf c)).SameOrders (s.exec counter32 c).1 := by
  rw [eventOf, follow_canon]
  exact follow_effect h (exec_effect h counter32 c)

/-- **The events of a run lead to its book.** -/
theorem foldl_follow (cmds : List Command) : ∀ s t : PriorityBook, s.Ok → t.SameOrders s →
    ((s.eventsFrom cmds).foldl follow t).SameOrders (s.after cmds) := by
  induction cmds with
  | nil => exact fun _ _ _ h => h
  | cons c cmds ih =>
    intro s t hok h
    have hstep := h.follow (s.eventOf c)
    have hevent := follow_eventOf hok c
    exact ih _ _ (hok.exec counter32 c) ⟨hstep.1.trans hevent.1, hstep.2.trans hevent.2⟩

end PriorityBook

namespace Replay

open Journal Reader Delimited PriorityBook

variable {capacity : Index} {cmds : List Command} {data data' : List UInt8} {r r' : Replayed}

/-! ## The log of a run -/

/-- The trades that a command leaves in the reused result are those of its reply. -/
theorem trades_scratchOf (reply : Reply) : (scratchOf reply).trades = reply.trades := by
  cases reply <;> rfl

/-- The live run logs the events of the run. -/
theorem foldlM_step_events (cmds : List Command) : ∀ (l : Live) (s : PriorityBook),
    l.book.Represents s → s.Ok → ∃ l', cmds.foldlM Live.step l = .ok l' ∧
      l'.book.Represents (s.after cmds) ∧
      logFrom l.log l.commands (s.eventsFrom cmds) = .ok l'.log := by
  induction cmds with
  | nil => exact fun l s h _ => ⟨l, rfl, h, rfl⟩
  | cons c cmds ih =>
    intro l s h hok
    obtain ⟨b, happly, hb⟩ := apply_spec h hok c l.scratch
    obtain ⟨l', hrun, hbook, hlog⟩ := ih
      { book := b, scratch := scratchOf (s.exec counter32 c).2
        log := l.log ++ events l.commands c (outcomeOf (s.exec counter32 c).2)
          (s.exec counter32 c).2.trades
        commands := l.commands + 1 } _ hb (hok.exec counter32 c)
    refine ⟨l', ?_, hbook, ?_⟩
    · rw [List.foldlM_cons, Live.step, happly, ok_bind]
      dsimp only
      rw [appendEvents_eq, ok_bind, trades_scratchOf]
      exact hrun
    · rw [eventsFrom, logFrom, eventOf, appendEvents_canon, appendEvents_eq, ok_bind]
      exact hlog

/-- The events of a live run. -/
def eventsOf (capacity : Index) (cmds : List Command) : List Event :=
  (PriorityBook.new capacity.toNat).eventsFrom cmds

/-- The live run ends, with the log of the events. -/
theorem live_events (capacity : Index) (cmds : List Command) :
    ∃ l, live capacity cmds = .ok l ∧
      l.book.Represents ((PriorityBook.new capacity.toNat).after cmds) ∧
      logFrom [] 0 (eventsOf capacity cmds) = .ok l.log :=
  foldlM_step_events cmds { book := Book.new capacity } _ (Book.represents_new capacity) (ok_new _)

/-- The events carry the commands, as their records do. -/
theorem command_eventsFrom (cmds : List Command) : ∀ s : PriorityBook,
    (s.eventsFrom cmds).map (·.command) = cmds.map canon := by
  induction cmds with
  | nil => exact fun _ => rfl
  | cons c cmds ih =>
    intro s
    rw [eventsFrom, List.map_cons, List.map_cons, ih]
    rfl

theorem plain_eventOf (s : PriorityBook) (c : Command) :
    Plain (s.eventOf c).command (s.eventOf c).outcome := by
  intro hkind
  show outcomeOf (s.exec counter32 c).2 = _
  have hkind : c.kind = .cancel ∨ c.kind = .modify := by
    rw [← kind_canon c]
    exact hkind
  unfold eventOf exec
  rcases hkind with hkind | hkind <;> rw [hkind] <;> rfl

/-- Every event could have come from a journal. -/
theorem plain_eventsFrom (cmds : List Command) : ∀ s : PriorityBook, ∀ e ∈ s.eventsFrom cmds,
    Canonical e.command ∧ Plain e.command e.outcome := by
  induction cmds with
  | nil => exact fun _ e he => absurd he List.not_mem_nil
  | cons c cmds ih =>
    intro s
    rw [eventsFrom, List.forall_mem_cons]
    exact ⟨⟨canon_canon c, plain_eventOf s c⟩, ih _⟩

/-- What the events lead to from an empty book. -/
def rebuild (es : List Event) : List RestingOrder :=
  (es.foldl follow (PriorityBook.new 0)).orders

/-- The orders built from the events alone are those that rest after the run. -/
theorem rebuild_eventsOf (capacity : Index) (cmds : List Command) :
    rebuild (eventsOf capacity cmds) = ((PriorityBook.new capacity.toNat).after cmds).orders := by
  have hsame := foldl_follow cmds (PriorityBook.new capacity.toNat) (PriorityBook.new 0) (ok_new _)
    ⟨rfl, rfl⟩
  rw [rebuild, eventsOf, orders, orders, hsame.1]

/-- **The log of a run rebuilds its book**, without a look at how orders match. -/
theorem feed_rebuilds_book (capacity : Index) (cmds : List Command) :
    ∃ l es, live capacity cmds = .ok l ∧ logFrom [] 0 es = .ok l.log ∧
      es.map (·.command) = cmds.map canon ∧ l.book.snapshot = .ok (rebuild es) := by
  obtain ⟨l, hlive, hbook, hlog⟩ := live_events capacity cmds
  refine ⟨l, eventsOf capacity cmds, hlive, hlog, command_eventsFrom cmds _, ?_⟩
  rw [rebuild_eventsOf]
  exact Book.snapshot_spec hbook

/-! ## Two replays -/

/-- **What `replay` can do**: turn a header away, or replay some commands up to where the reader
stops. -/
theorem replay_cases (data : List UInt8) :
    (∃ status, status ≠ .ok ∧ replay data = .ok (false, { stop := status })) ∨
      ∃ capacity cmds t status, (∀ c ∈ cmds, Canonical c) ∧
        data = journalBytes capacity cmds ++ t ∧
        ∃ l text, live capacity cmds = .ok l ∧ serializeBook l.book = .ok text ∧
          replay data = .ok (true,
            { log := l.log, book := text, commands := UInt64.ofNat cmds.length, stop := status,
              validBytes := (journalBytes capacity cmds).length }) := by
  rcases open_cases data with ⟨status, hne, hopen⟩ | ⟨capacity, rest, rfl, -⟩
  · refine Or.inl ⟨status, hne, ?_⟩
    rw [replay, hopen, ok_bind]
    exact if_pos hne
  · obtain ⟨cs, more, status, hne, hcs, rfl, hend, -⟩ := readFrom_spec (rest.length + 1) capacity
      (encodeHeader capacity) rest {} (Nat.lt_succ_self _)
    have hreplay := replay_journal hne hend
    rw [journalBytes, List.append_assoc] at hreplay
    refine Or.inr ⟨capacity, cs, more, status, hcs, ?_, hreplay⟩
    rw [journalBytes, List.append_assoc]

/-- A replay that was made replayed some commands. -/
theorem events_of_replay (h : replay data = .ok (true, r)) :
    ∃ capacity cmds, logFrom [] 0 (eventsOf capacity cmds) = .ok r.log ∧
      r.book = bookText (rebuild (eventsOf capacity cmds)) ∧
      r.commands = UInt64.ofNat (eventsOf capacity cmds).length := by
  rcases replay_cases data with ⟨status, -, hreplay⟩ | ⟨capacity, cmds, t, status, -, -, l, text,
    hlive, htext, hreplay⟩
  · rw [h, Except.ok.injEq, Prod.mk.injEq] at hreplay
    exact absurd hreplay.1 (by decide)
  rw [h, Except.ok.injEq, Prod.mk.injEq] at hreplay
  obtain ⟨-, rfl⟩ := hreplay
  obtain ⟨l', hlive', hbook, hlog⟩ := live_events capacity cmds
  rw [hlive, Except.ok.injEq] at hlive'
  subst hlive'
  refine ⟨capacity, cmds, hlog, ?_, ?_⟩
  · rw [serializeBook_eq (Book.snapshot_spec hbook), Except.ok.injEq] at htext
    rw [rebuild_eventsOf]
    exact htext.symm
  · have hlength := congrArg List.length (command_eventsFrom cmds (PriorityBook.new capacity.toNat))
    rw [List.length_map, List.length_map] at hlength
    rw [eventsOf, hlength]

/-- **Replays with one log have one book**, of whatever capacities the books were and whatever
the journals looked like. -/
theorem equal_logs_equal_books (data data' : List UInt8) (r r' : Replayed)
    (h : replay data = .ok (true, r)) (h' : replay data' = .ok (true, r')) (hlog : r.log = r'.log) :
    r.book = r'.book ∧ r.commands = r'.commands := by
  obtain ⟨capacity, cmds, hevents, hbook, hcommands⟩ := events_of_replay h
  obtain ⟨capacity', cmds', hevents', hbook', hcommands'⟩ := events_of_replay h'
  have hsame : eventsOf capacity cmds = eventsOf capacity' cmds' := by
    rw [hlog, ← hevents', logFrom_eq, logFrom_eq, Except.ok.injEq, List.nil_append,
      List.nil_append] at hevents
    have hlines := terminated_injective (eventLines_one_line 0 _) (eventLines_one_line 0 _) hevents
    have hgroups := groups_injective (group_eventLines 0 _) (group_eventLines 0 _) hlines
    exact eventLines_injective (plain_eventsFrom cmds _) (plain_eventsFrom cmds' _) 0 hgroups
  rw [hbook, hbook', hcommands, hcommands', hsame]
  exact ⟨rfl, rfl⟩

/-- A journal for one order and one for eight, with an unknown kind byte behind the second. -/
theorem equal_logs_equal_books_capacities :
    ∃ r r', replay (journalBytes 1 [limitCommand 1 .buy 5 7 1] ++ []) = .ok (true, r) ∧
      replay (journalBytes 8 [limitCommand 1 .buy 5 7 1] ++ [7]) = .ok (true, r') ∧
      r.book = r'.book ∧ r.commands = r'.commands := by
  have hstop : ∀ out, (between 8 (journalBytes 8 [limitCommand 1 .buy 5 7 1]) [7]).next out =
      .ok (between 8 (journalBytes 8 [limitCommand 1 .buy 5 7 1]) [7], out, .badKind) :=
    fun _ => next_badKind rfl
  obtain ⟨l, text, hlive, -, hreplay⟩ := replay_journal (show Status.end ≠ .ok by decide)
    (next_end 1 (journalBytes 1 [limitCommand 1 .buy 5 7 1]))
  obtain ⟨l', text', hlive', -, hreplay'⟩ :=
    replay_journal (show Status.badKind ≠ .ok by decide) hstop
  have hlog : l.log = l'.log := by
    obtain ⟨m, hm, -, hlog⟩ := live_events 1 [limitCommand 1 .buy 5 7 1]
    obtain ⟨m', hm', -, hlog'⟩ := live_events 8 [limitCommand 1 .buy 5 7 1]
    rw [hlive, Except.ok.injEq] at hm
    rw [hlive', Except.ok.injEq] at hm'
    have hevents : eventsOf 1 [limitCommand 1 .buy 5 7 1] =
        eventsOf 8 [limitCommand 1 .buy 5 7 1] := by decide
    rw [hevents, hlog', Except.ok.injEq] at hlog
    rw [hm, hm', hlog]
  exact ⟨_, _, hreplay, hreplay', equal_logs_equal_books _ _ _ _ hreplay hreplay' hlog⟩

end Replay

end MatchingEngine
