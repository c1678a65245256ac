import MatchingEngine.Book.Invariants
import MatchingEngine.Book.Observed
import MatchingEngine.Oracle.OracleCommands

/-!
# Engine against oracle

`tests/support/diff.hpp` runs the book and the reference implementation side by side, and
compares what they reply and what they show after every command. Here both are machines that
put out just that (`Observed`). Both run as the abstract book does, so their runs put out the same
(`book_refines_oracle`).

The two differ in the counter of the fill-or-kill check, 32 bits against 64. The condition
`fokTotalFits` says that no total outgrows the smaller one.
-/

namespace MatchingEngine

open Run

variable {b : Book} {r : Oracle} {s : PriorityBook} {n : ℕ} {c : Command} {m : ℕ}

/-! ## The machines -/

/-- A command on the oracle, with what a caller sees of it. -/
def Oracle.step (r : Oracle) (c : Command) : Checked (Oracle × Observed) := do
  let (r, reply) ← r.exec c
  return (r, reply, r.snapshot)

/-- A command on the abstract book, with what a caller sees of it. -/
def PriorityBook.step (s : PriorityBook) (c : Command) : PriorityBook × Observed :=
  ((s.exec counter64 c).1, (s.exec counter64 c).2, (s.exec counter64 c).1.orders)

/-- The quantity that a fill-or-kill order finds, as a number without a bound, is below
`2 ^ 32`. -/
def fokTotalFits (b : Book) (c : Command) : Bool :=
  match b.snapshot with
  | .ok l =>
    c.kind != .limit || c.tif != .fok ||
      decide (fillable c.side (some c.price) c.account l < 2 ^ 32)
  | .error _ => true

/-! ## The two counters -/

/-- A total below 2^32 reads the same in 32 bits and in 64. -/
theorem counter32_of_lt (h : m < 2 ^ 32) : counter32 m = counter64 m := by
  rw [counter32, counter64, Nat.mod_eq_of_lt h, Nat.mod_eq_of_lt (h.trans (by decide))]

/-- The counters differ for fill-or-kill orders only. -/
theorem PriorityBook.addLimit_congr {gate gate' : ℕ → ℕ} {id : OrderId} {side : Side}
    {price : Price} {qty : Qty} {account : Account} {tif : TimeInForce}
    (h : tif = .fok → gate (s.available side (some price) account) =
      gate' (s.available side (some price) account)) :
    s.addLimit gate id side price qty account tif =
      s.addLimit gate' id side price qty account tif := by
  unfold PriorityBook.addLimit
  by_cases htif : tif = .fok
  · rw [h htif]
  · simp only [htif, false_and, if_false]

/-- A fill-or-kill total that fits makes the engine's 32-bit check the 64-bit one. -/
theorem exec_counter32 (hrep : b.Represents s) (hok : s.Ok) (hfits : fokTotalFits b c = true) :
    s.exec counter32 c = s.exec counter64 c := by
  rw [fokTotalFits, Book.snapshot_spec hrep] at hfits
  have hgate : c.kind = .limit → c.tif = .fok →
      counter32 (s.available c.side (some c.price) c.account) =
        counter64 (s.available c.side (some c.price) c.account) := by
    intro hkind htif
    refine counter32_of_lt ?_
    rw [PriorityBook.available_eq hok]
    simpa [hkind, htif] using hfits
  unfold PriorityBook.exec
  cases hkind : c.kind with
  | limit =>
    dsimp only
    rw [PriorityBook.addLimit_congr (hgate hkind)]
  | market => rfl
  | cancel => rfl
  | modify => rfl

/-! ## One step -/

/-- The abstract book after `n` commands. -/
structure PriorityBook.At (s : PriorityBook) (n : ℕ) : Prop where
  ok : s.Ok
  timed : s.Timed n
  seq : s.nextSeq.toNat = n

theorem PriorityBook.at_new (capacity : ℕ) : (PriorityBook.new capacity).At 0 :=
  ⟨ok_new _, timed_new _ _, rfl⟩

theorem PriorityBook.At.step (h : s.At n) (hn : n + 1 < 2 ^ 64) (c : Command) :
    (s.step c).1.At (n + 1) where
  ok := h.ok.exec counter64 c
  timed := h.timed.exec h.seq counter64 c
  seq := by
    show (s.exec counter64 c).1.nextSeq.toNat = n + 1
    rw [PriorityBook.nextSeq_exec, UInt64.toNat_add, h.seq]
    exact Nat.mod_eq_of_lt hn

/-- One command on the engine shows what the abstract book shows. -/
theorem Book.step_spec (hrep : b.Represents s) (hok : s.Ok) (hfits : fokTotalFits b c = true) :
    ∃ b', b.step c = .ok (b', (s.step c).2) ∧ b'.Represents (s.step c).1 := by
  have hsame : s.observe c = s.step c := by
    unfold PriorityBook.observe PriorityBook.step
    rw [exec_counter32 hrep hok hfits]
  rw [← hsame]
  exact Book.observe_spec hrep hok c

/-- One command on the oracle shows what the abstract book shows. -/
theorem Oracle.step_spec (h : r.Mirrors s) (hs : s.At n) (hn : n + 1 < 2 ^ 64) :
    ∃ r', r.step c = .ok (r', (s.step c).2) ∧ r'.Mirrors (s.step c).1 := by
  obtain ⟨r', heq, hmir⟩ := Oracle.exec_spec h hs.ok hs.timed c
  have hs' := hs.step hn c
  refine ⟨r', ?_, hmir⟩
  unfold Oracle.step
  rw [heq, ok_bind]
  dsimp only
  rw [Oracle.snapshot_spec hmir hs'.ok hs'.timed]
  rfl

/-! ## Runs -/

/-- **The book refines the oracle**: after the same commands both have replied the same, and
have shown the same orders after every command. -/
theorem book_refines_oracle (capacity : Index) (cmds : List Command)
    (hlen : cmds.length < 2 ^ 64)
    (hfits : alongM fokTotalFits Book.step (Book.new capacity) cmds = true) :
    ∃ b r log, runM Book.step (Book.new capacity) cmds = .ok (b, log) ∧
      runM Oracle.step (Oracle.new capacity.toNat) cmds = .ok (r, log) := by
  have hbookStep : ∀ n (b : Book) (s : PriorityBook) c, n < cmds.length →
      fokTotalFits b c = true → b.Represents s ∧ s.At n →
        ∃ b', b.step c = .ok (b', (s.step c).2) ∧
          b'.Represents (s.step c).1 ∧ (s.step c).1.At (n + 1) := by
    intro n b s c hn hc h
    obtain ⟨b', heq, hrep⟩ := Book.step_spec h.1 h.2.ok hc
    exact ⟨b', heq, hrep, h.2.step (by omega) c⟩
  have horacleStep : ∀ n (r : Oracle) (s : PriorityBook) c, n < cmds.length →
      r.Mirrors s ∧ s.At n →
        ∃ r', r.step c = .ok (r', (s.step c).2) ∧
          r'.Mirrors (s.step c).1 ∧ (s.step c).1.At (n + 1) := by
    intro n r s c hn h
    have hn : n + 1 < 2 ^ 64 := by omega
    obtain ⟨r', heq, hmir⟩ := Oracle.step_spec h.1 h.2 hn
    exact ⟨r', heq, hmir, h.2.step hn c⟩
  obtain ⟨b, hbook, -⟩ := runM_eq_run
    (R := fun n (b : Book) (s : PriorityBook) => b.Represents s ∧ s.At n) hbookStep
    cmds 0 (Book.new capacity) (.new capacity.toNat) (by omega) hfits
    ⟨Book.represents_new capacity, PriorityBook.at_new _⟩
  obtain ⟨r, horacle, -⟩ := runM_eq_run_of_forall
    (R := fun n (r : Oracle) (s : PriorityBook) => r.Mirrors s ∧ s.At n) horacleStep
    cmds le_rfl ⟨Oracle.mirrors_new _, PriorityBook.at_new _⟩
  exact ⟨b, r, _, hbook, horacle⟩

/-- Two resting sells, a fill-or-kill order that takes both in part, a modify and a cancel. -/
theorem book_refines_oracle_mixed_commands : ∃ b r log,
    runM Book.step (Book.new 3)
        [limitCommand 1 .sell 100 5 1, limitCommand 2 .sell 101 5 2,
          { limitCommand 3 .buy 101 7 3 with tif := .fok }, modifyCommand 2 102 9, cancelCommand 2]
      = .ok (b, log) ∧
    runM Oracle.step (Oracle.new 3)
        [limitCommand 1 .sell 100 5 1, limitCommand 2 .sell 101 5 2,
          { limitCommand 3 .buy 101 7 3 with tif := .fok }, modifyCommand 2 102 9, cancelCommand 2]
      = .ok (r, log) :=
  book_refines_oracle 3 _ (by decide) (by decide +kernel)

end MatchingEngine
