import MatchingEngine.Journal.Writer
import MatchingEngine.Journal.Reading
import Mathlib.Data.List.Infix

/-!
# What a writer leaves behind

A write is either reported as done, and then all its bytes are in the file, or it is the last
one that hands bytes to the stream (`write_wp`). So a file holds the records of all commands
that were acknowledged, and behind them at most a part of the first record that was not
(`Session.inv`), however and whenever the program was stopped
(`acknowledged_commands_survive`).
-/

namespace MatchingEngine

namespace Journal

open Interaction Reader

variable {capacity : Index} {bytes done file : List UInt8} {w w' : Writer} {s s' : Stream}
  {c : Command} {log : List (Command × Bool)} {acked failed : List Command} {ok : Bool}

/-! ## One write -/

/-- The writer still writes. -/
def Writer.Alive (w : Writer) : Prop := w.file = true ∧ w.failed = false

/-- Exactly `done` was handed to the stream, and all of it is in the file. -/
structure Settled (done : List UInt8) (s : Stream) : Prop where
  full : s.full = true
  handed : s.handed = done
  delivered : s.delivered = done

/-- All of `done` is in the file, and at most `bytes` were handed to the stream behind it. -/
structure Holds (done bytes : List UInt8) (s : Stream) : Prop where
  kept : done <+: s.delivered
  handed : s.handed = done ∨ s.handed = done ++ bytes

theorem Settled.holds (h : Settled done s) (bytes : List UInt8) : Holds done bytes s :=
  ⟨h.delivered.symm ▸ List.prefix_rfl, Or.inl h.handed⟩

/-- All that was handed is in the file already, so the file does not change any more. -/
theorem Settled.drift (h : Settled done s) (hd : drift s s') : Settled done s' := by
  obtain ⟨hhanded, hfull, hgrow⟩ := hd
  have hin := s'.inOrder
  rw [hhanded, h.handed] at hin
  rw [h.delivered] at hgrow
  exact ⟨hfull.trans h.full, hhanded.trans h.handed, hin.eq_of_length_le hgrow.length_le⟩

/-- What is handed over stays in the file. -/
theorem Holds.drift (h : Holds done bytes s) (hd : drift s s') : Holds done bytes s' := by
  obtain ⟨hhanded, -, hgrow⟩ := hd
  refine ⟨h.kept.trans hgrow, ?_⟩
  rw [hhanded]
  exact h.handed

theorem Settled.hand (h : Settled done s) (bytes : List UInt8) (n : ℕ) :
    Holds done bytes (s.hand bytes n) := by
  refine ⟨?_, Or.inr ?_⟩
  · show done <+: s.delivered
    rw [h.delivered]
  · show s.handed ++ bytes = done ++ bytes
    rw [h.handed]

/-- A writer that does not write any more makes no call. -/
theorem write_of_not_alive (h : ¬ w.Alive) (bytes : List UInt8) :
    w.write bytes = .ret (w, false) := by
  have hdead : w.file = false ∨ w.failed = true := by
    unfold Writer.Alive at h
    rw [not_and_or, Bool.not_eq_true, Bool.not_eq_false] at h
    exact h
  rw [Writer.write, if_pos hdead]
  rfl

/-- **A write**: if it is reported as done, its bytes are in the file, and if not, the writer
does not write any more. -/
theorem write_wp (hw : w.Alive) (h : Settled done s) (bytes : List UInt8) :
    wp stdio (Holds done bytes) (fun s' r =>
      r = (w, true) ∧ Settled (done ++ bytes) s' ∨
        r = ({ w with failed := true }, false) ∧ Holds done bytes s')
      (w.write bytes) s := by
  have hlive : ¬ (w.file = false ∨ w.failed = true) := by
    rw [hw.1, hw.2]
    decide
  rw [Writer.write, if_neg hlive]
  intro s₁ hd₁
  have h₁ := h.drift hd₁
  refine ⟨h₁.holds bytes, ?_⟩
  intro n s₂ hs₂
  have hs₂ : s₂ = s₁.hand bytes n := hs₂
  have h₂ : Holds done bytes s₂ := by
    rw [hs₂]
    exact h₁.hand bytes n
  by_cases hn : n ≠ bytes.length
  · -- a short write
    show wp stdio _ _ (if n ≠ bytes.length then _ else _) s₂
    rw [if_pos hn]
    intro s₃ hd₃
    exact ⟨h₂.drift hd₃, Or.inr ⟨rfl, h₂.drift hd₃⟩⟩
  show wp stdio _ _ (if n ≠ bytes.length then _ else _) s₂
  rw [if_neg hn]
  rw [not_not] at hn
  intro s₃ hd₃
  have h₃ := h₂.drift hd₃
  refine ⟨h₃, ?_⟩
  intro r s₄ hs₄
  obtain ⟨hs₄, hflushed⟩ : s₄ = s₃ ∧ (r = 0 → s₃.full = true → s₃.delivered = s₃.handed) := hs₄
  subst hs₄
  by_cases hr : r ≠ 0
  · -- a flush that failed
    show wp stdio _ _ (if r ≠ 0 then _ else _) s₄
    rw [if_pos hr]
    intro s₅ hd₅
    exact ⟨h₃.drift hd₅, Or.inr ⟨rfl, h₃.drift hd₅⟩⟩
  show wp stdio _ _ (if r ≠ 0 then _ else _) s₄
  rw [if_neg hr]
  rw [not_not] at hr
  have hfull : s₄.full = true := by
    rw [hd₃.2.1, hs₂]
    show (s₁.full && decide (n = bytes.length)) = true
    rw [h₁.full, hn, decide_eq_true rfl]
    rfl
  have hhanded : s₄.handed = done ++ bytes := by
    rw [hd₃.1, hs₂]
    show s₁.handed ++ bytes = done ++ bytes
    rw [h₁.handed]
  have hsettled : Settled (done ++ bytes) s₄ :=
    ⟨hfull, hhanded, (hflushed hr hfull).trans hhanded⟩
  intro s₅ hd₅
  exact ⟨h₃.drift hd₅, Or.inl ⟨rfl, hsettled.drift hd₅⟩⟩

/-- Opening, when no other file is open. -/
theorem openFile_of_closed (hw : w.file = false) (capacity : Index) :
    w.openFile capacity = .call .fopen fun opened =>
      if opened = false then .ret ({ w with file := false, failed := false }, false)
      else Writer.write { w with file := true, failed := false } (encodeHeader capacity) := by
  have hclose : w.close = .ret { w with file := false } := by
    rw [Writer.close, if_neg (by rw [hw]; decide)]
    rfl
  rw [Writer.openFile, hclose]
  rfl

/-- A write can be reported as done. -/
theorem exists_write_done (hw : w.Alive) (h : Settled done s) (bytes : List UInt8) :
    ∃ s', Reaches stdio s (w.write bytes) s' (.ret (w, true)) ∧ Settled (done ++ bytes) s' := by
  have hlive : ¬ (w.file = false ∨ w.failed = true) := by
    rw [hw.1, hw.2]
    decide
  let s' : Stream := { handed := done ++ bytes, delivered := done ++ bytes }
  have hd : stdio.drift (s.hand bytes bytes.length) s' := by
    refine ⟨?_, ?_, ?_⟩
    · show done ++ bytes = s.handed ++ bytes
      rw [h.handed]
    · show true = (s.full && decide (bytes.length = bytes.length))
      rw [h.full, decide_eq_true rfl]
      rfl
    · show s.delivered <+: done ++ bytes
      rw [h.delivered]
      exact List.prefix_append ..
  have hflushed : stdio.answers s' .fflush (0 : ℤ) s' := ⟨rfl, fun _ _ => rfl⟩
  have hwritten : stdio.answers s (.fwrite bytes) bytes.length (s.hand bytes bytes.length) := rfl
  refine ⟨s', ?_, rfl, rfl, rfl⟩
  rw [Writer.write, if_neg hlive]
  refine .call hwritten ?_
  show Reaches stdio _ (if bytes.length ≠ bytes.length then _ else _) s' _
  rw [if_neg (not_not.mpr rfl)]
  exact .drift hd (.call hflushed (.refl ..))

/-- A write can fail with any part of its bytes in the file. -/
theorem exists_write_failed (hw : w.Alive) (h : Settled done s) {part : List UInt8}
    (hpart : part <+: bytes) (hne : bytes ≠ []) :
    ∃ s', Reaches stdio s (w.write bytes) s' (.ret ({ w with failed := true }, false)) ∧
      s'.delivered = done ++ part := by
  have hlive : ¬ (w.file = false ∨ w.failed = true) := by
    rw [hw.1, hw.2]
    decide
  have hshort : 0 ≠ bytes.length := fun heq => hne (List.length_eq_zero_iff.mp heq.symm)
  let s' : Stream :=
    { handed := done ++ bytes
      delivered := done ++ part
      full := false
      inOrder := (List.prefix_append_right_inj done).mpr hpart }
  have hwritten : stdio.answers s (.fwrite bytes) (0 : ℕ) (s.hand bytes 0) := rfl
  have hd : stdio.drift (s.hand bytes 0) s' := by
    refine ⟨?_, ?_, ?_⟩
    · show done ++ bytes = s.handed ++ bytes
      rw [h.handed]
    · show false = (s.full && decide (0 = bytes.length))
      rw [decide_eq_false hshort, Bool.and_false]
    · show s.delivered <+: done ++ part
      rw [h.delivered]
      exact List.prefix_append ..
  refine ⟨s', ?_, rfl⟩
  rw [Writer.write, if_neg hlive]
  refine .call hwritten ?_
  show Reaches stdio _ (if 0 ≠ bytes.length then _ else _) s' _
  rw [if_pos hshort]
  exact .drift hd (.refl ..)

/-- A file that was opened holds its header. -/
theorem openFile_wp (w : Writer) (s : Stream) (capacity : Index) :
    wp stdio (fun _ => True) (fun s' r => r.2 = true →
      r.1.Alive ∧ Settled (encodeHeader capacity) s') (w.openFile capacity) s := by
  -- with no other file open
  have hopen : ∀ (w : Writer) (s : Stream), w.file = false →
      wp stdio (fun _ => True) (fun s' r => r.2 = true →
        r.1.Alive ∧ Settled (encodeHeader capacity) s') (w.openFile capacity) s := by
    intro w s hw
    rw [openFile_of_closed hw]
    intro s₁ _
    refine ⟨trivial, ?_⟩
    intro opened s₂ hs₂
    cases opened with
    | false => exact fun _ _ => ⟨trivial, fun hfalse => Bool.noConfusion hfalse⟩
    | true =>
      have hempty : Settled [] s₂ := by
        have hs₂ : s₂ = {} := hs₂
        rw [hs₂]
        exact ⟨rfl, rfl, rfl⟩
      have halive : Writer.Alive { w with file := true, failed := false } := ⟨rfl, rfl⟩
      have hwrite := write_wp halive hempty (encodeHeader capacity)
      rw [List.nil_append] at hwrite
      simp only [Bool.true_eq_false, ↓reduceIte]
      refine wp_mono hwrite (fun _ _ => trivial) ?_
      intro s' r hr htrue
      rcases hr with ⟨rfl, hsettled⟩ | ⟨rfl, -⟩
      · exact ⟨halive, hsettled⟩
      · exact Bool.noConfusion htrue
  by_cases hfile : w.file = true
  · -- the other file is closed first
    have hclosed := openFile_of_closed (w := { w with file := false }) rfl capacity
    have hfirst : w.openFile capacity =
        .call .fclose fun _ => Writer.openFile { w with file := false } capacity := by
      rw [hclosed, Writer.openFile, Writer.close, if_pos hfile]
      rfl
    rw [hfirst]
    exact fun s₁ _ => ⟨trivial, fun _ s₂ _ => hopen _ s₂ rfl⟩
  · exact hopen w s (Bool.eq_false_of_not_eq_true hfile)

/-- A file can be opened. -/
theorem exists_opened (capacity : Index) :
    ∃ s, Reaches stdio {} (Writer.openFile {} capacity) s (.ret ({ file := true }, true)) ∧
      Settled (encodeHeader capacity) s := by
  have hempty : Settled [] {} := ⟨rfl, rfl, rfl⟩
  have halive : Writer.Alive { file := true } := ⟨rfl, rfl⟩
  obtain ⟨s, hr, hsettled⟩ := exists_write_done halive hempty (encodeHeader capacity)
  rw [List.nil_append] at hsettled
  have hopened : stdio.answers {} .fopen true {} := rfl
  refine ⟨s, ?_, hsettled⟩
  rw [openFile_of_closed rfl]
  refine .call hopened ?_
  simp only [Bool.true_eq_false, ↓reduceIte]
  exact hr

/-! ## Sessions -/

/-- The commands `acked` were acknowledged and then those in `failed` were not. -/
structure Inv (capacity : Index) (w : Writer) (s : Stream) (acked failed : List Command) :
    Prop where
  kept : journalBytes capacity acked <+: s.delivered
  handed : s.handed <+: journalBytes capacity (acked ++ failed.take 1)
  alive : w.Alive → failed = [] ∧ Settled (journalBytes capacity acked) s

/-- The journal of one command more. -/
theorem journalBytes_concat (capacity : Index) (cmds : List Command) (c : Command) :
    journalBytes capacity (cmds ++ [c]) = journalBytes capacity cmds ++ encode c := by
  rw [journalBytes, journalBytes, encodeAll_append, encodeAll_singleton, List.append_assoc]

/-- The journal of the first commands is the front of the journal. -/
theorem journalBytes_prefix (capacity : Index) (cmds cmds' : List Command) :
    journalBytes capacity cmds <+: journalBytes capacity (cmds ++ cmds') := by
  rw [journalBytes, journalBytes, encodeAll_append, ← List.append_assoc]
  exact List.prefix_append ..

theorem Inv.drift (h : Inv capacity w s acked failed) (hd : drift s s') :
    Inv capacity w s' acked failed where
  kept := h.kept.trans hd.2.2
  handed := hd.1 ▸ h.handed
  alive hw := ⟨(h.alive hw).1, (h.alive hw).2.drift hd⟩

/-- What was handed to the stream is still no more than the first command that failed. -/
theorem Inv.handed_append (h : Inv capacity w s acked failed) (cmds : List Command) :
    s.handed <+: journalBytes capacity (acked ++ (failed ++ cmds).take 1) := by
  refine h.handed.trans ?_
  cases failed with
  | nil =>
    rw [List.take_nil, List.append_nil]
    exact journalBytes_prefix ..
  | cons c failed => exact List.prefix_rfl

/-- Once the writer does not write any more, an append hands nothing to the stream. -/
theorem append_of_not_alive (hw : ¬ w.Alive) {p : Prog Answer (Writer × Bool)}
    (hr : Reaches stdio s (w.append c) s' p) : p = .ret (w, false) ∧ drift s s' := by
  rw [Writer.append, write_of_not_alive hw] at hr
  exact hr.of_ret

/-- What was handed over so far is the front of the journal of one command more. -/
theorem Holds.handed_prefix (h : Holds (journalBytes capacity acked) (encode c) s) :
    s.handed <+: journalBytes capacity (acked ++ [c]) := by
  rcases h.handed with heq | heq
  · rw [heq]
    exact journalBytes_prefix ..
  · rw [heq, journalBytes_concat]

/-- **The middle of an append**: behind the commands that are acknowledged there is at most a
part of the first one that is not. -/
theorem Inv.appending (h : Inv capacity w s acked failed) {p : Prog Answer (Writer × Bool)}
    (hr : Reaches stdio s (w.append c) s' p) :
    journalBytes capacity acked <+: s'.delivered ∧
      s'.handed <+: journalBytes capacity (acked ++ (failed ++ [c]).take 1) := by
  by_cases hw : w.Alive
  · obtain ⟨hnil, hsettled⟩ := h.alive hw
    have hholds := hr.stop (write_wp hw hsettled (encode c))
    rw [hnil]
    exact ⟨hholds.kept, hholds.handed_prefix⟩
  · obtain ⟨-, hd⟩ := append_of_not_alive hw hr
    exact ⟨h.kept.trans hd.2.2, hd.1 ▸ h.handed_append [c]⟩

/-- **An append** that has returned. -/
theorem Inv.append (h : Inv capacity w s acked failed)
    (hr : Reaches stdio s (w.append c) s' (.ret (w', ok))) :
    ok = true ∧ failed = [] ∧ Inv capacity w' s' (acked ++ [c]) [] ∨
      ok = false ∧ Inv capacity w' s' acked (failed ++ [c]) := by
  by_cases hw : w.Alive
  · obtain ⟨hnil, hsettled⟩ := h.alive hw
    rcases hr.result (write_wp hw hsettled (encode c)) with ⟨heq, hdone⟩ | ⟨heq, hholds⟩
    · rw [Prod.mk.injEq] at heq
      rw [← journalBytes_concat] at hdone
      refine Or.inl ⟨heq.2, hnil, ?_, ?_, fun _ => ⟨rfl, hdone⟩⟩
      · rw [hdone.delivered]
      · rw [hdone.handed]
        exact journalBytes_prefix ..
    · rw [Prod.mk.injEq] at heq
      refine Or.inr ⟨heq.2, hholds.kept, ?_, ?_⟩
      · rw [hnil]
        exact hholds.handed_prefix
      · -- the writer remembers that it failed
        intro hw'
        rw [heq.1] at hw'
        exact Bool.noConfusion hw'.2
  · obtain ⟨heq, hd⟩ := append_of_not_alive hw hr
    cases heq
    refine Or.inr ⟨rfl, h.kept.trans hd.2.2, hd.1 ▸ h.handed_append [c], fun hw' => absurd hw' hw⟩

/-- **Closing**: late bytes may still reach the file, but no others. -/
theorem Inv.closing (h : Inv capacity w s acked failed) {p : Prog Answer Writer}
    (hr : Reaches stdio s w.close s' p) :
    Inv capacity w s' acked failed ∧
      ∀ w', p = .ret w' → Inv capacity w' s' acked failed := by
  have hclosed : ∀ {s : Stream}, Inv capacity w s acked failed →
      Inv capacity { w with file := false } s acked failed := fun h =>
    ⟨h.kept, h.handed, fun hw => Bool.noConfusion hw.1⟩
  have hwp : wp stdio (fun s => Inv capacity w s acked failed)
      (fun s w' => Inv capacity w' s acked failed) w.close s := by
    unfold Writer.close
    by_cases hfile : w.file = true
    · rw [if_pos hfile]
      intro s₁ hd₁
      refine ⟨h.drift hd₁, ?_⟩
      intro _ s₂ hs₂ s₃ hd₃
      have hs₂ : s₂ = s₁ := hs₂
      subst hs₂
      exact ⟨(h.drift hd₁).drift hd₃, hclosed ((h.drift hd₁).drift hd₃)⟩
    · rw [if_neg hfile]
      intro s₁ hd₁
      exact ⟨h.drift hd₁, hclosed (h.drift hd₁)⟩
  refine ⟨hr.stop hwp, ?_⟩
  intro w' hw'
  subst hw'
  exact hr.result hwp

/-- **Every session** keeps what it acknowledged. -/
theorem Session.inv (h : Session capacity log w s) :
    ∃ acked failed, log = acked.map (·, true) ++ failed.map (·, false) ∧
      Inv capacity w s acked failed := by
  induction h with
  | @opened w w' s s' hr =>
    obtain ⟨halive, hsettled⟩ := hr.result (openFile_wp w s capacity) rfl
    have hheader : journalBytes capacity [] = encodeHeader capacity := List.append_nil _
    rw [← hheader] at hsettled
    refine ⟨[], [], rfl, ?_, ?_, fun _ => ⟨rfl, hsettled⟩⟩
    · rw [hsettled.delivered]
    · rw [hsettled.handed]
      exact List.prefix_rfl
  | @append log w w' s s' c ok _ hr ih =>
    obtain ⟨acked, failed, rfl, hinv⟩ := ih
    rcases hinv.append hr with ⟨rfl, rfl, hinv'⟩ | ⟨rfl, hinv'⟩
    · exact ⟨acked ++ [c], [], by simp, hinv'⟩
    · exact ⟨acked, failed ++ [c], by simp, hinv'⟩
  | close _ hr ih =>
    obtain ⟨acked, failed, hlog, hinv⟩ := ih
    exact ⟨acked, failed, hlog, (hinv.closing hr).2 _ rfl⟩

/-! ## What is read back -/

/-- A journal and a part of what could follow it read back as the commands of the journal and
those that follow in full. -/
theorem readAll_part (hcanon : ∀ c ∈ acked ++ failed, Canonical c)
    (hlo : journalBytes capacity acked <+: file)
    (hhi : file <+: journalBytes capacity (acked ++ failed)) :
    ∃ r more status, readAll file = .ok (r, acked ++ more, status) ∧ more <+: failed ∧
      (status = .end ∨ status = .truncated) := by
  obtain ⟨torn, rfl⟩ := hlo
  rw [journalBytes, journalBytes, encodeAll_append, ← List.append_assoc,
    List.prefix_append_right_inj] at hhi
  obtain ⟨k, hk, t, rfl, ht⟩ := exists_whole_records failed torn hhi
  have hall : ∀ c ∈ acked ++ failed.take k, Canonical c := fun c hc =>
    hcanon c (List.mem_append.mpr ((List.mem_append.mp hc).imp_right List.mem_of_mem_take))
  have hsplit : journalBytes capacity acked ++ (encodeAll (failed.take k) ++ t) =
      journalBytes capacity (acked ++ failed.take k) ++ t := by
    rw [journalBytes, journalBytes, encodeAll_append]
    simp only [List.append_assoc]
  rw [hsplit]
  rcases ht with rfl | ⟨c, -, hpre, hnil, hproper⟩
  · have hend : Status.end ≠ .ok := by decide
    have hread := readAll_journal capacity (acked ++ failed.take k) hend (next_end capacity _)
    rw [map_canon hall] at hread
    exact ⟨_, _, _, hread, List.take_prefix .., Or.inl rfl⟩
  · have htruncated : Status.truncated ≠ .ok := by decide
    have hread := readAll_journal capacity (acked ++ failed.take k) htruncated
      fun out => next_partial hpre hnil hproper
    rw [map_canon hall] at hread
    exact ⟨_, _, _, hread, List.take_prefix .., Or.inr rfl⟩

/-- A stopped program leaves the records of the commands that were acknowledged, and behind
them at most a part of the record of the first one that was not. -/
theorem Stopped.inv {pending : Option Command} (h : Stopped capacity log pending file) :
    ∃ acked failed, log = acked.map (·, true) ++ failed.map (·, false) ∧
      journalBytes capacity acked <+: file ∧
      file <+: journalBytes capacity (acked ++ (failed ++ pending.toList).take 1) := by
  cases h with
  | @between w s s' h hd =>
    obtain ⟨acked, failed, hlog, hinv⟩ := h.inv
    have hinv' := hinv.drift hd
    exact ⟨acked, failed, hlog, hinv'.kept, s'.inOrder.trans (hinv'.handed_append [])⟩
  | @appending w s s' c p h hr =>
    obtain ⟨acked, failed, hlog, hinv⟩ := h.inv
    obtain ⟨hkept, hhanded⟩ := hinv.appending hr
    exact ⟨acked, failed, hlog, hkept, s'.inOrder.trans hhanded⟩
  | @closing w s s' p h hr =>
    obtain ⟨acked, failed, hlog, hinv⟩ := h.inv
    have hinv' := (hinv.closing hr).1
    exact ⟨acked, failed, hlog, hinv'.kept, s'.inOrder.trans (hinv'.handed_append [])⟩

/-- **Acknowledged commands survive.** Whatever `stdio` did and wherever the program was
stopped, what is read back is every command that was acknowledged, in order, and at most one
more: the first whose append failed or was in progress. Once an append has failed, a later one
fails too and hands nothing to the stream. -/
theorem acknowledged_commands_survive (capacity : Index) (log : List (Command × Bool))
    (pending : Option Command) (file : List UInt8) (h : Stopped capacity log pending file)
    (hlog : ∀ x ∈ log, Canonical x.1) (hpending : ∀ c ∈ pending, Canonical c) :
    ∃ acked failed, log = acked.map (·, true) ++ failed.map (·, false) ∧
      (∃ r more status, readAll file = .ok (r, acked ++ more, status) ∧
        more <+: (failed ++ pending.toList).take 1 ∧ (status = .end ∨ status = .truncated)) ∧
      ∀ log' w s, Session capacity log' w s → (∃ c, (c, false) ∈ log') →
        ∀ c s' p, Reaches stdio s (w.append c) s' p →
          s'.handed = s.handed ∧ ∀ w' ok, p = .ret (w', ok) → ok = false := by
  obtain ⟨acked, failed, rfl, hlo, hhi⟩ := h.inv
  have hcanon : ∀ c ∈ acked ++ (failed ++ pending.toList).take 1, Canonical c := by
    intro c hc
    rcases List.mem_append.mp hc with hc | hc
    · exact hlog (c, true) (List.mem_append_left _ (List.mem_map_of_mem hc))
    · rcases List.mem_append.mp (List.mem_of_mem_take hc) with hc | hc
      · exact hlog (c, false) (List.mem_append_right _ (List.mem_map_of_mem hc))
      · exact hpending c (Option.mem_toList.mp hc)
  refine ⟨acked, failed, rfl, readAll_part hcanon hlo hhi, ?_⟩
  intro log' w s hsession ⟨c', hc'⟩ c s' p hr
  obtain ⟨acked', failed', rfl, hinv⟩ := hsession.inv
  -- an append that failed is in the past, so the writer does not write any more
  have hdead : ¬ w.Alive := by
    intro hw
    rw [(hinv.alive hw).1, List.map_nil, List.append_nil, List.mem_map] at hc'
    obtain ⟨_, _, heq⟩ := hc'
    exact Bool.noConfusion (Prod.mk.inj heq).2
  obtain ⟨rfl, hd⟩ := append_of_not_alive hdead hr
  refine ⟨hd.1, ?_⟩
  intro w' ok heq
  rw [Prog.ret.injEq, Prod.mk.injEq] at heq
  exact heq.2.symm

/-- A disk that is full after two bytes of the second record. -/
theorem acknowledged_commands_survive_fullDisk :
    ∃ r more status,
      readAll (journalBytes 4 [cancelCommand 1] ++ (encode (cancelCommand 2)).take 2) =
        .ok (r, [cancelCommand 1] ++ more, status) ∧
      more <+: [cancelCommand 2] ∧ (status = .end ∨ status = .truncated) := by
  have halive : Writer.Alive { file := true } := ⟨rfl, rfl⟩
  obtain ⟨s₀, hr₀, h₀⟩ := exists_opened 4
  obtain ⟨s₁, hr₁, h₁⟩ := exists_write_done halive h₀ (encode (cancelCommand 1))
  obtain ⟨s₂, hr₂, h₂⟩ := exists_write_failed halive h₁
    (List.take_prefix 2 (encode (cancelCommand 2))) (List.cons_ne_nil _ _)
  have hsession : Session 4 [(cancelCommand 1, true), (cancelCommand 2, false)] _ s₂ :=
    ((Session.opened hr₀).append hr₁).append hr₂
  have hfile : encodeHeader 4 ++ encode (cancelCommand 1) = journalBytes 4 [cancelCommand 1] := by
    rw [journalBytes, encodeAll_singleton]
  rw [hfile] at h₂
  obtain ⟨acked, failed, hlog, hread, -⟩ := acknowledged_commands_survive 4 _ none _
    (.between hsession (stdio.drift_refl s₂)) (by decide) (by decide)
  rw [h₂] at hread
  -- the log says which of the two commands was acknowledged
  have hacked := congrArg (fun log => (log.filter (·.2)).map (·.1)) hlog
  have hfailed := congrArg (fun log => (log.filter (!·.2)).map (·.1)) hlog
  have htrue : ∀ l : List Command, l.filter (fun _ => true) = l := fun l =>
    List.filter_eq_self.mpr fun _ _ => rfl
  have hfalse : ∀ l : List Command, l.filter (fun _ => false) = [] := fun l =>
    List.filter_eq_nil_iff.mpr fun _ _ => Bool.false_ne_true
  simp [List.filter_map, Function.comp_def, htrue, hfalse] at hacked hfailed
  rw [← hacked, ← hfailed] at hread
  exact hread

end Journal

end MatchingEngine
