import MatchingEngine.Replay.Lines
import MatchingEngine.Journal.Reading
import MatchingEngine.Book.Refinement

/-!
# Replay equals the live run

A command does the same whatever the scratch result held before (`apply_spec`), and whatever
the fields hold that its kind does not use (`apply_canon`). So the loop of `replay` makes the
steps of the live run, record by record (`replayFrom_encodeAll`), and stops where the reader
stops.
-/

namespace MatchingEngine

namespace Replay

open Journal Reader Run

variable {capacity : Index} {cmds : List Command} {t rest : List UInt8} {status : Status}
  {s : PriorityBook} {b : Book} {l l' : Live}

/-! ## One command -/

/-- What `apply` leaves in the scratch result. -/
def scratchOf : Reply → AddResult
  | .added r => r
  | .flag _ => {}

/-- What `apply` returns. -/
def outcomeOf : Reply → Outcome
  | .added r => ⟨r.accepted, r.restingQty, r.stpRejected, r.poolExhausted⟩
  | .flag ok => { ok }

/-- **`apply` does what the command means**, whatever the scratch result holds. -/
theorem apply_spec (h : b.Represents s) (hok : s.Ok) (c : Command) (scratch : AddResult) :
    ∃ b', apply b c scratch =
        .ok (b', scratchOf (s.exec counter32 c).2, outcomeOf (s.exec counter32 c).2) ∧
      b'.Represents (s.exec counter32 c).1 := by
  unfold apply PriorityBook.exec
  cases c.kind with
  | limit =>
    obtain ⟨b', heq, hrep⟩ :=
      Book.addLimitOrder_spec h scratch c.id c.side c.price c.qty c.account c.tif
    exact ⟨b', by simp only [heq]; rfl, hrep⟩
  | market =>
    obtain ⟨b', heq, hrep⟩ := Book.addMarketOrder_spec h scratch c.id c.side c.qty c.account
    exact ⟨b', by simp only [heq]; rfl, hrep⟩
  | cancel =>
    obtain ⟨b', heq, hrep⟩ := Book.cancelOrder_spec h c.id
    exact ⟨b', by simp only [heq]; rfl, hrep⟩
  | modify =>
    obtain ⟨b', heq, hrep⟩ := Book.modifyOrder_spec h hok c.id c.price c.qty
    exact ⟨b', by simp only [heq]; rfl, hrep⟩

/-- The fields that a journal drops do not reach the book. -/
theorem apply_canon (b : Book) (c : Command) (scratch : AddResult) :
    apply b (canon c) scratch = apply b c scratch := by
  unfold apply
  rw [kind_canon]
  unfold canon
  cases c.kind <;> rfl

/-- Nor do they reach the log. -/
theorem commandLine_canon (position : UInt64) (c : Command) (o : Outcome) :
    commandLine position (canon c) o = commandLine position c o := by
  unfold commandLine
  rw [kind_canon]
  unfold canon
  cases c.kind <;> rfl

/-- The log shows only what a command's record carries. -/
theorem appendEvents_canon (log : Text) (position : UInt64) (c : Command) (o : Outcome)
    (trades : List Trade) :
    appendEvents log position (canon c) o trades = appendEvents log position c o trades := by
  rw [appendEvents, appendEvents, commandLine_canon]

/-! ## The live run -/

/-- A step of the live run. -/
theorem step_spec (h : l.book.Represents s) (hok : s.Ok) (c : Command) :
    ∃ l', l.step c = .ok l' ∧ l'.book.Represents (s.exec counter32 c).1 := by
  obtain ⟨b', heq, hrep⟩ := apply_spec h hok c l.scratch
  rw [Live.step, heq, ok_bind]
  dsimp only
  rw [appendEvents_eq, ok_bind]
  exact ⟨_, rfl, hrep⟩

/-- A step that is made logs to the end of what is there. -/
theorem step_cases {c : Command} (h : l.step c = .ok l') :
    ∃ b scratch o log, apply l.book c l.scratch = .ok (b, scratch, o) ∧
      appendEvents l.log l.commands c o scratch.trades = .ok log ∧ l.log <+: log ∧
      l' = { book := b, scratch, log, commands := l.commands + 1 } := by
  rw [Live.step] at h
  obtain ⟨⟨b, scratch, o⟩, happly, h⟩ := bind_eq_ok.mp h
  obtain ⟨log, hlog, h⟩ := bind_eq_ok.mp h
  have hstart : l.log <+: log := by
    rw [appendEvents_eq, Except.ok.injEq] at hlog
    rw [← hlog]
    exact List.prefix_append ..
  exact ⟨b, scratch, o, log, happly, hlog, hstart, (Except.ok.inj h).symm⟩

/-- The live run never runs into a fault. -/
theorem exists_foldlM_step : ∀ (cmds : List Command) (l : Live) (s : PriorityBook),
    l.book.Represents s → s.Ok →
      ∃ l' s', cmds.foldlM Live.step l = .ok l' ∧ l'.book.Represents s' := by
  intro cmds
  induction cmds with
  | nil =>
    intro l s h _
    exact ⟨l, s, rfl, h⟩
  | cons c cmds ih =>
    intro l s h hok
    obtain ⟨l₁, hstep, h₁⟩ := step_spec h hok c
    obtain ⟨l₂, s₂, hrun, h₂⟩ := ih l₁ _ h₁ (hok.exec counter32 c)
    refine ⟨l₂, s₂, ?_, h₂⟩
    rw [List.foldlM_cons, hstep, ok_bind, hrun]

/-- Every live run logs its commands and leaves a book that can be written down. -/
theorem live_spec (capacity : Index) (cmds : List Command) :
    ∃ l text, live capacity cmds = .ok l ∧ serializeBook l.book = .ok text := by
  obtain ⟨l, s, hrun, hrep⟩ := exists_foldlM_step cmds { book := Book.new capacity }
    (.new capacity.toNat) (Book.represents_new capacity) (PriorityBook.ok_new _)
  exact ⟨l, _, hrun, serializeBook_eq (Book.snapshot_spec hrep)⟩

/-- The log of a run starts with the log of its beginning, and its commands are counted. -/
theorem foldlM_step_spec : ∀ (cmds : List Command) (l l' : Live),
    cmds.foldlM Live.step l = .ok l' →
      l.log <+: l'.log ∧ l'.commands = l.commands + UInt64.ofNat cmds.length := by
  intro cmds
  induction cmds with
  | nil =>
    intro l l' h
    rw [List.foldlM_nil, pure_eq_ok, Except.ok.injEq] at h
    rw [h, List.length_nil]
    exact ⟨List.prefix_rfl, (UInt64.add_zero _).symm⟩
  | cons c cmds ih =>
    intro l l' h
    rw [List.foldlM_cons] at h
    obtain ⟨l₁, hstep, hrun⟩ := bind_eq_ok.mp h
    obtain ⟨b, scratch, o, log, -, -, hstart, rfl⟩ := step_cases hstep
    obtain ⟨hlog, hcommands⟩ := ih _ l' hrun
    refine ⟨hstart.trans hlog, ?_⟩
    rw [hcommands, List.length_cons, UInt64.ofNat_add]
    show l.commands + 1 + UInt64.ofNat cmds.length = _
    rw [UInt64.add_assoc, UInt64.add_comm 1]
    rfl

/-! ## Replay -/

/-- **The loop of `replay`** makes the steps of the live run. -/
theorem replayFrom_encodeAll (hne : status ≠ .ok) :
    ∀ (cmds : List Command) (fuel : ℕ) (pre : List UInt8) (c : Command) (l l' : Live)
      (out : Replayed), cmds.length < fuel →
      (∀ out, (between capacity (pre ++ encodeAll cmds) rest).next out =
        .ok (between capacity (pre ++ encodeAll cmds) rest, out, status)) →
      cmds.foldlM Live.step l = .ok l' → out.log = l.log → out.commands = l.commands →
      replayFrom fuel (between capacity pre (encodeAll cmds ++ rest)) l.book l.scratch c out =
        .ok (between capacity (pre ++ encodeAll cmds) rest, l'.book,
          { out with stop := status, log := l'.log, commands := l'.commands }) := by
  intro cmds
  induction cmds with
  | nil =>
    intro fuel pre c l l' out hfuel hstop hrun hlog hcommands
    obtain ⟨fuel, rfl⟩ := Nat.exists_eq_add_one_of_ne_zero (by omega : fuel ≠ 0)
    rw [List.foldlM_nil, pure_eq_ok, Except.ok.injEq] at hrun
    rw [encodeAll_nil, List.append_nil] at hstop
    rw [replayFrom, encodeAll_nil, List.nil_append, List.append_nil, hstop, ok_bind, ← hrun,
      ← hlog, ← hcommands]
    exact if_neg hne
  | cons c₁ cmds ih =>
    intro fuel pre c l l' out hfuel hstop hrun hlog hcommands
    rw [List.length_cons] at hfuel
    obtain ⟨fuel, rfl⟩ := Nat.exists_eq_add_one_of_ne_zero (by omega : fuel ≠ 0)
    rw [encodeAll_cons, ← List.append_assoc] at hstop
    rw [List.foldlM_cons] at hrun
    obtain ⟨l₁, hstep, hrun⟩ := bind_eq_ok.mp hrun
    obtain ⟨b, scratch, o, log, happly, hevents, -, rfl⟩ := step_cases hstep
    have hreplay := ih fuel (pre ++ encode c₁) (canon c₁) _ l'
      { out with stop := .ok, log, commands := out.commands + 1 } (by omega) hstop hrun rfl
      (congrArg (· + 1) hcommands)
    rw [List.append_assoc] at hreplay
    rw [replayFrom, encodeAll_cons, List.append_assoc, next_encode, ok_bind]
    dsimp only
    rw [if_pos rfl, apply_canon, happly, ok_bind]
    dsimp only
    rw [appendEvents_canon, hlog, hcommands, hevents, ok_bind, ← hcommands, hreplay]

/-- Replay of written records and something behind them that does not read. -/
theorem replay_journal (hne : status ≠ .ok)
    (hstop : ∀ out, (between capacity (journalBytes capacity cmds) t).next out =
      .ok (between capacity (journalBytes capacity cmds) t, out, status)) :
    ∃ l text, live capacity cmds = .ok l ∧ serializeBook l.book = .ok text ∧
      replay (journalBytes capacity cmds ++ t) = .ok (true,
        { log := l.log, book := text, commands := UInt64.ofNat cmds.length, stop := status,
          validBytes := (journalBytes capacity cmds).length }) := by
  obtain ⟨l, text, hlive, htext⟩ := live_spec capacity cmds
  obtain ⟨-, hcommands⟩ := foldlM_step_spec cmds _ l hlive
  have hfuel : cmds.length < (journalBytes capacity cmds ++ t).length + 1 := by
    have hle := length_le_encodeAll cmds
    rw [journalBytes, List.length_append, List.length_append]
    omega
  have hopen := open_encodeHeader capacity (encodeAll cmds ++ t)
  rw [← List.append_assoc] at hopen
  have hloop := replayFrom_encodeAll hne cmds _ (encodeHeader capacity) {}
    { book := Book.new capacity } l { stop := .ok } hfuel hstop hlive rfl rfl
  refine ⟨l, text, hlive, htext, ?_⟩
  rw [replay]
  show ((Reader.new (encodeHeader capacity ++ encodeAll cmds ++ t)).openHeader >>= _) = _
  rw [hopen, ok_bind]
  dsimp only
  rw [if_neg (not_not.mpr rfl)]
  show (replayFrom ((journalBytes capacity cmds ++ t).length + 1) _ _ _ _ _ >>= _) = _
  rw [poolCapacity_between, hloop, ok_bind, htext, hcommands]
  dsimp only [ok_bind]
  rw [UInt64.zero_add]
  rfl

/-- **Replay of a journal equals the live run**, whatever is behind its last record. So replay
of a journal that is cut off behind its header equals the live run of the records that are
whole. -/
theorem replay_eq_live (capacity : Index) (cmds : List Command) (t : List UInt8) (r : Reader)
    (cs : List Command) (status : Status)
    (hread : readAll (journalBytes capacity cmds ++ t) = .ok (r, cs, status))
    (hend : r.validBytes = (journalBytes capacity cmds).length) :
    ∃ l text, live capacity cmds = .ok l ∧ serializeBook l.book = .ok text ∧
      replay (journalBytes capacity cmds ++ t) = .ok (true,
        { log := l.log, book := text, commands := UInt64.ofNat cmds.length, stop := status,
          validBytes := (journalBytes capacity cmds).length }) ∧
      -- a buffer is smaller than the address space
      ((journalBytes capacity cmds ++ t).length < 2 ^ 64 →
        (UInt64.ofNat cmds.length).toNat = cmds.length) ∧
      ∀ data, data <+: journalBytes capacity cmds → encodeHeader capacity <+: data →
        ∃ k ≤ cmds.length, ∃ torn, data = journalBytes capacity (cmds.take k) ++ torn ∧
          (torn = [] ∨ ∃ c, cmds[k]? = some c ∧ torn <+: encode c ∧ torn ≠ [] ∧
            torn ≠ encode c) ∧
          ∃ l' text', live capacity (cmds.take k) = .ok l' ∧ l'.log <+: l.log ∧
            serializeBook l'.book = .ok text' ∧
            replay data = .ok (true,
              { log := l'.log, book := text', commands := UInt64.ofNat k,
                stop := if torn = [] then .end else .truncated,
                validBytes := (journalBytes capacity (cmds.take k)).length }) := by
  obtain ⟨hne, hstop⟩ := stop_of_readAll hread hend
  obtain ⟨l, text, hlive, htext, hreplay⟩ := replay_journal hne hstop
  refine ⟨l, text, hlive, htext, hreplay, ?_, ?_⟩
  · intro hlt
    have hle := length_le_encodeAll cmds
    rw [List.length_append, journalBytes, List.length_append] at hlt
    exact UInt64.toNat_ofNat_of_lt' (show cmds.length < 2 ^ 64 by omega)
  · intro data hpre hheader
    obtain ⟨more, rfl⟩ := hheader
    rw [journalBytes, List.prefix_append_right_inj] at hpre
    obtain ⟨k, hk, torn, rfl, htorn⟩ := exists_whole_records cmds more hpre
    refine ⟨k, hk, torn, by rw [journalBytes, List.append_assoc], htorn, ?_⟩
    -- the part of a record that is left does not read
    have hstop : ∀ out, (between capacity (journalBytes capacity (cmds.take k)) torn).next out =
        .ok (between capacity (journalBytes capacity (cmds.take k)) torn, out,
          if torn = [] then .end else .truncated) := by
      intro out
      rcases htorn with rfl | ⟨c, -, hpre, hnil, hproper⟩
      · exact next_end ..
      · rw [if_neg hnil]
        exact next_partial hpre hnil hproper
    have hne : (if torn = [] then Status.end else .truncated) ≠ .ok := by
      split <;> decide
    obtain ⟨l', text', hlive', htext', hreplay'⟩ := replay_journal hne hstop
    have hlog : l'.log <+: l.log := by
      have hrest := hlive
      rw [live, ← List.take_append_drop k cmds, List.foldlM_append] at hrest
      obtain ⟨l₁, hlive₁, hrest⟩ := bind_eq_ok.mp hrest
      rw [← live, hlive', Except.ok.injEq] at hlive₁
      subst hlive₁
      exact (foldlM_step_spec _ _ _ hrest).1
    rw [journalBytes, List.append_assoc, List.length_take_of_le hk] at hreplay'
    exact ⟨l', text', hlive', hlog, htext', hreplay'⟩

/-- A journal with a record that trades, and an unknown kind byte behind it. -/
theorem replay_eq_live_badKind :
    ∃ l text, live 4 [limitCommand 1 .buy 5 7 1, marketCommand 2 .sell 3 2] = .ok l ∧
      serializeBook l.book = .ok text ∧
      replay (journalBytes 4 [limitCommand 1 .buy 5 7 1, marketCommand 2 .sell 3 2] ++ [7]) =
        .ok (true,
          { log := l.log, book := text, commands := 2, stop := .badKind, validBytes := 73 }) := by
  obtain ⟨l, text, hlive, htext, hreplay, -⟩ := replay_eq_live 4
    [limitCommand 1 .buy 5 7 1, marketCommand 2 .sell 3 2] [7]
    (between 4 (journalBytes 4 [limitCommand 1 .buy 5 7 1, marketCommand 2 .sell 3 2]) [7])
    [limitCommand 1 .buy 5 7 1, marketCommand 2 .sell 3 2] .badKind
    (readAll_journal 4 [limitCommand 1 .buy 5 7 1, marketCommand 2 .sell 3 2] (by decide)
      fun out => next_badKind rfl)
    rfl
  exact ⟨l, text, hlive, htext, hreplay⟩

end Replay

end MatchingEngine
