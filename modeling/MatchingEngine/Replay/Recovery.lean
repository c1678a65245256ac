import MatchingEngine.Journal.Load
import MatchingEngine.Journal.WriterTheorems
import MatchingEngine.Replay.ReplayTheorems

/-!
# Recovery

From a writer that was stopped at any point, over what `stdio` made of its calls, to the replay of
the file that was left: the replayed book is the one of a live run of every command that was
acknowledged, and of at most one more.
-/

namespace MatchingEngine

namespace Replay

open Journal Reader Interaction

variable {capacity : Index} {acked failed : List Command} {file : List UInt8}

/-- Replay of a journal and a part of what could follow it. -/
theorem replay_part (hlo : journalBytes capacity acked <+: file)
    (hhi : file <+: journalBytes capacity (acked ++ failed)) :
    ∃ more status l text, more <+: failed ∧ (status = .end ∨ status = .truncated) ∧
      live capacity (acked ++ more) = .ok l ∧ serializeBook l.book = .ok text ∧
      replay file = .ok (true,
        { log := l.log, book := text, commands := UInt64.ofNat (acked ++ more).length,
          stop := status, validBytes := (journalBytes capacity (acked ++ more)).length }) := by
  obtain ⟨torn, rfl⟩ := hlo
  rw [journalBytes, journalBytes, encodeAll_append, ← List.append_assoc,
    List.prefix_append_right_inj] at hhi
  obtain ⟨k, hk, t, rfl, ht⟩ := exists_whole_records failed torn hhi
  have hsplit : journalBytes capacity acked ++ (encodeAll (failed.take k) ++ t) =
      journalBytes capacity (acked ++ failed.take k) ++ t := by
    rw [journalBytes, journalBytes, encodeAll_append]
    simp only [List.append_assoc]
  rw [hsplit]
  rcases ht with rfl | ⟨c, -, hpre, hnil, hproper⟩
  · obtain ⟨l, text, hlive, htext, hreplay⟩ := replay_journal (show Status.end ≠ .ok by decide)
      (next_end capacity (journalBytes capacity (acked ++ failed.take k)))
    exact ⟨_, _, l, text, List.take_prefix .., Or.inl rfl, hlive, htext, hreplay⟩
  · have hstop : ∀ out, (between capacity (journalBytes capacity (acked ++ failed.take k)) t).next
        out = .ok (between capacity (journalBytes capacity (acked ++ failed.take k)) t, out,
          .truncated) := fun _ => next_partial hpre hnil hproper
    obtain ⟨l, text, hlive, htext, hreplay⟩ :=
      replay_journal (show Status.truncated ≠ .ok by decide) hstop
    exact ⟨_, _, l, text, List.take_prefix .., Or.inr rfl, hlive, htext, hreplay⟩

/-- A live run goes on from what it did before. -/
theorem live_append {more : List Command} {l : Live} (h : live capacity (acked ++ more) = .ok l) :
    ∃ l₀, live capacity acked = .ok l₀ ∧ more.foldlM Live.step l₀ = .ok l ∧ l₀.log <+: l.log := by
  rw [live, List.foldlM_append] at h
  obtain ⟨l₀, hlive, hmore⟩ := bind_eq_ok.mp h
  exact ⟨l₀, hlive, hmore, (foldlM_step_spec more l₀ l hmore).1⟩

/-- **What is recovered is what was acknowledged.** The program was stopped at any point, and the
file it left was loaded: the replay of it is the live run of every command that was
acknowledged, in order, and of at most one more, the first whose append failed or was in
progress. -/
theorem recovered_book_is_live (capacity : Index) (log : List (Command × Bool))
    (pending : Option Command) (file : List UInt8) (h : Stopped capacity log pending file)
    (fuel : ℕ) (out data : List UInt8) (s : Input) (hfuel : file.length < fuel)
    (hload : Reaches reading { file } (load fuel out) s (.ret (some (true, data)))) :
    ∃ acked failed more, log = acked.map (·, true) ++ failed.map (·, false) ∧
      more <+: (failed ++ pending.toList).take 1 ∧
      ∃ l₀ l text status, live capacity acked = .ok l₀ ∧ more.foldlM Live.step l₀ = .ok l ∧
        l₀.log <+: l.log ∧ serializeBook l.book = .ok text ∧
        (status = .end ∨ status = .truncated) ∧
        replay data = .ok (true,
          { log := l.log, book := text, commands := UInt64.ofNat (acked ++ more).length,
            stop := status, validBytes := (journalBytes capacity (acked ++ more)).length }) := by
  have hdata : data = file := by
    obtain ⟨hrefused, hread⟩ := hload.result (load_wp fuel { file } out hfuel)
    cases hopened : s.opened with
    | false =>
      have hr := hrefused hopened
      rw [Option.some_inj, Prod.mk.injEq] at hr
      exact Bool.noConfusion hr.1
    | true =>
      obtain ⟨data', hr, -, hwhole⟩ := hread hopened
      rw [Option.some_inj, Prod.mk.injEq] at hr
      rw [hr.2]
      apply hwhole
      rw [← Bool.not_eq_true', ← hr.1]
  rw [hdata]
  obtain ⟨acked, failed, hlog, hlo, hhi⟩ := h.inv
  obtain ⟨more, status, l, text, hmore, hstatus, hlive, htext, hreplay⟩ := replay_part hlo hhi
  obtain ⟨l₀, hlive₀, hrun, hprefix⟩ := live_append hlive
  exact ⟨acked, failed, more, hlog, hmore, l₀, l, text, status, hlive₀, hrun, hprefix, htext,
    hstatus, hreplay⟩

/-- A disk that was full after two bytes of the second record. -/
theorem recovered_book_is_live_fullDisk :
    ∃ acked failed more, [(cancelCommand 1, true), (cancelCommand 2, false)] =
        acked.map (·, true) ++ failed.map (·, false) ∧ more <+: (failed ++ []).take 1 ∧
      ∃ l₀ l text status, live 4 acked = .ok l₀ ∧ more.foldlM Live.step l₀ = .ok l ∧
        l₀.log <+: l.log ∧ serializeBook l.book = .ok text ∧
        (status = .end ∨ status = .truncated) ∧
        replay (journalBytes 4 [cancelCommand 1] ++ (encode (cancelCommand 2)).take 2) =
          .ok (true,
            { log := l.log, book := text, commands := UInt64.ofNat (acked ++ more).length,
              stop := status, validBytes := (journalBytes 4 (acked ++ more)).length }) := by
  have halive : Writer.Alive { file := true } := ⟨rfl, rfl⟩
  obtain ⟨s₀, hr₀, h₀⟩ := exists_opened 4
  obtain ⟨s₁, hr₁, h₁⟩ := exists_write_done halive h₀ (encode (cancelCommand 1))
  obtain ⟨s₂, hr₂, h₂⟩ := exists_write_failed halive h₁
    (List.take_prefix 2 (encode (cancelCommand 2))) (List.cons_ne_nil _ _)
  have hsession : Session 4 [(cancelCommand 1, true), (cancelCommand 2, false)] _ s₂ :=
    ((Session.opened hr₀).append hr₁).append hr₂
  have hstopped := Stopped.between hsession (stdio.drift_refl s₂)
  have hfile : encodeHeader 4 ++ encode (cancelCommand 1) = journalBytes 4 [cancelCommand 1] := by
    rw [journalBytes, encodeAll_singleton]
  rw [hfile] at h₂
  rw [h₂] at hstopped
  have hlength : (journalBytes 4 [cancelCommand 1] ++ (encode (cancelCommand 2)).take 2).length =
      35 := by decide
  have hload := exists_loaded
    (journalBytes 4 [cancelCommand 1] ++ (encode (cancelCommand 2)).take 2) []
    (List.ne_nil_of_length_eq_add_one hlength) (by omega)
  exact recovered_book_is_live 4 _ none _ hstopped _ [] _ _ (Nat.lt_succ_self _) hload

end Replay

end MatchingEngine
