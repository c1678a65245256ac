import MatchingEngine.Diff.PairTheorems
import Mathlib.Tactic.IntervalCases

/-!
# The fuzzer

`tests/fuzz/fuzz_diff.cpp`: for one seed after another, the stream of the seed is run through
the harness, and the state is checked every `stride` operations. The program ends at the first
report, or with a summary.

It never ends with a report, whatever its arguments are (`fuzz_reports_nothing`): the
quantities of the stream are too small for the counter of the engine.
-/

namespace MatchingEngine

namespace Diff

open Replay (Text Piece format)

/-! ## The program -/

/-- What a program returns and prints. -/
structure Exit where
  code : ℕ
  out : Text := []
  err : Text := []
deriving DecidableEq

/-- The end of a printed line. -/
def newline : Piece := .text "\n"

/-- The capacities that the seeds take turns with. -/
def capacities : List Index := [2, 8, 32, 128]

/-- What is printed on a divergence: the last operations, and how to run this seed again. -/
def divergence (seed : UInt64) (capacity : Index) (ops i : UInt64) (err : Text)
    (recent : List Op) : Checked Text := do
  let head := format [.text "DIVERGENCE seed=", .unsigned seed.toNat, .text " capacity=",
    .unsigned capacity.toNat, .text " op_index=", .unsigned i.toNat, .text "\n  "] ++ err ++
    format [newline]
  let shown := if i + 1 < 8 then i + 1 else 8
  let lines ← (List.range shown.toNat).mapM fun j => do
    let k := shown - UInt64.ofNat j
    let op ← orFault recent[((i + 1 - k) % 8).toNat]? .outOfRange
    return format [.text "  op ", .unsigned (i + 1 - k).toNat, .text ": "] ++ describe op ++
      format [newline]
  return head ++ lines.flatten ++ format [.text "reproduce: fuzz_diff 1 ", .unsigned ops.toNat,
    .text " ", .unsigned seed.toNat, .text " 1", newline]

/-- The state is checked after every `stride` operations and after the last one. -/
def checksAt (stride ops i : UInt64) : Bool := i % stride = stride - 1 || i + 1 = ops

/-- The loop over the operations of one seed, at operation `i`. -/
def fuzzFrom (inactive : Index → Order) (seed : UInt64) (capacity : Index) (ops stride : UInt64) :
    ℕ → UInt64 → Pair → Generator → List Op → Checked (Except Text Pair)
  | 0, _, _, _, _ => throw .diverges
  | fuel + 1, i, pair, gen, recent =>
    if i < ops then do
      let (op, gen) ← gen.next
      require ((i % 8).toNat < recent.length) .outOfRange
      let recent := recent.set (i % 8).toNat op
      let (pair, err) ← pair.apply op
      require (stride ≠ 0) .divisionByZero
      let err ← if err.isEmpty && checksAt stride ops i then pair.checkState inactive else pure err
      if err.isEmpty then fuzzFrom inactive seed capacity ops stride fuel (i + 1) pair gen recent
      else return .error (← divergence seed capacity ops i err recent)
    else return .ok pair

/-- The body of the loop over the seeds. -/
def fuzzSeed (inactive : Index → Order) (seed ops stride : UInt64) :
    Checked (Except Text Pair) := do
  let capacity ← orFault capacities[(seed % 4).toNat]? .outOfRange
  fuzzFrom inactive seed capacity ops stride (ops.toNat + 1) 0 (Pair.new capacity)
    (Generator.new seed) (List.replicate 8 {})

/-- The loop over the seeds, with `rounds` of them left. -/
def fuzzSeeds (inactive : Index → Order) (ops stride : UInt64) :
    ℕ → UInt64 → Stats → Checked (Except Text Stats)
  | 0, _, total => return .ok total
  | rounds + 1, seed, total => do
    match ← fuzzSeed inactive seed ops stride with
    | .error report => return .error report
    | .ok pair => fuzzSeeds inactive ops stride rounds (seed + 1) (total.add pair.stats)

/-- What `main` prints after the last seed. -/
def summary (seeds : Int32) (ops : UInt64) (total : Stats) : Text :=
  format [.text "fuzz_diff ok: seeds=", .signed seeds.toInt, .text " ops/seed=",
    .unsigned ops.toNat, .text " total_ops=", .unsigned total.ops.toNat, newline,
    .text "  trades=", .unsigned total.trades.toNat, .text " stp=", .unsigned total.stp.toNat,
    .text " fok_rejected=", .unsigned total.fokRejected.toNat, .text " pool_exhausted=",
    .unsigned total.poolExhausted.toNat, .text " modify_ok=", .unsigned total.modifyOk.toNat,
    .text " cancel_ok=", .unsigned total.cancelOk.toNat, .text " invalid_rejected=",
    .unsigned total.invalidRejected.toNat, .text " modify_crossing_rejected=",
    .unsigned total.modifyCrossingRejected.toNat, newline]

/-- A run that never reached a path says nothing about that path. -/
def vacuous (total : Stats) : Bool :=
  total.ops ≥ 10000 &&
    (total.trades = 0 || total.stp = 0 || total.fokRejected = 0 || total.poolExhausted = 0 ||
      total.modifyOk = 0 || total.modifyCrossingRejected = 0 || total.cancelOk = 0 ||
      total.invalidRejected = 0)

/-- `main`, after its arguments are read. -/
def fuzzMain (inactive : Index → Order) (seeds : Int32) (ops first stride : UInt64) :
    Checked Exit := do
  let stride := if stride = 0 then 1 else stride
  match ← fuzzSeeds inactive ops stride seeds.toInt.toNat first {} with
  | .error report => return { code := 1, err := report }
  | .ok total =>
    let out := summary seeds ops total
    if vacuous total then
      return { code := 2, out, err := format [
        .text "fuzz_diff: a path was never exercised; the run is vacuous", newline] }
    else return { code := 0, out }

/-! ## One seed -/

variable {pair : Pair} {gen : Generator} {s : PriorityBook} {h : List Op} {stride : UInt64}

/-- Every command counts once. -/
theorem ops_eventsOf (s : PriorityBook) (c : Command) : (eventsOf s c).ops = 1 := by
  unfold eventsOf
  repeat' split
  all_goals rfl

/-- A run of commands counts its length. -/
theorem ops_eventsAlong (cmds : List Command) : ∀ s : PriorityBook,
    (eventsAlong s cmds).ops = UInt64.ofNat cmds.length := by
  induction cmds with
  | nil => exact fun _ => rfl
  | cons c cmds ih =>
    intro s
    show (eventsOf s c).ops + (eventsAlong _ cmds).ops = _
    rw [ops_eventsOf, ih, List.length_cons, UInt64.ofNat_add, UInt64.add_comm]
    rfl

/-- The harness around the operations that were drawn so far. -/
structure Ready (pair : Pair) (gen : Generator) (s : PriorityBook) (h : List Op) : Prop where
  agrees : pair.Agrees s h.length
  after : gen.After h
  within : Within 10 s
  capacity : s.capacity * 10 < 2 ^ 32

/-- One operation of the stream goes through the harness without a report. -/
theorem Ready.step (hr : Ready pair gen s h) (hn : h.length + 1 < 2 ^ 64)
    (inactive : Index → Order) :
    ∃ op gen' pair', gen.next = .ok (op, gen') ∧ pair.apply op = .ok (pair', []) ∧
      pair'.checkState inactive = .ok [] ∧
      Ready pair' gen' (s.exec counter64 (toCommand op)).1 (h ++ [op]) ∧
      pair'.stats = pair.stats.add (eventsOf s (toCommand op)) := by
  obtain ⟨op, gen', hnext, hafter, hop⟩ := Generator.next_spec hr.after hn
  have hfits := hr.within.fits hr.agrees hr.capacity op
  obtain ⟨pair', happly, hagrees, hstats⟩ := Pair.apply_spec hr.agrees hn hfits
  have heffect := PriorityBook.exec_effect hr.agrees.state.ok counter64 (toCommand op)
  refine ⟨op, gen', pair', hnext, happly, Pair.checkState_spec hagrees inactive, ?_, hstats⟩
  constructor
  · rw [List.length_append]
    exact hagrees
  · exact hafter
  · exact hr.within.exec hr.agrees.state.ok counter64 (qty_toCommand_le hop.qty)
  · rw [heffect.capacity]
    exact hr.capacity

/-- **The loop over the operations** ends without a report, and has counted what happened. -/
theorem fuzzFrom_spec (hstride : stride ≠ 0) (inactive : Index → Order) (seed ops : UInt64)
    (capacity : Index) : ∀ (fuel : ℕ) (i : UInt64) (pair : Pair) (gen : Generator)
    (recent h : List Op) (s : PriorityBook), ops.toNat - i.toNat < fuel → i.toNat ≤ ops.toNat →
      Ready pair gen s h → h.length = i.toNat → recent.length = 8 →
      ∃ pair' drawn gen', gen.draw (ops.toNat - i.toNat) = .ok (drawn, gen') ∧
        fuzzFrom inactive seed capacity ops stride fuel i pair gen recent = .ok (.ok pair') ∧
        pair'.stats = pair.stats.add (eventsAlong s (drawn.map toCommand)) := by
  intro fuel
  induction fuel with
  | zero =>
    intro i pair gen recent h s hfuel
    omega
  | succ fuel ih =>
    intro i pair gen recent h s hfuel hi hr hlen hrecent
    by_cases hlast : i < ops
    · rw [UInt64.lt_iff_toNat_lt] at hlast
      have hops := ops.toNat_lt
      have hsucc : (i + 1).toNat = i.toNat + 1 := by
        rw [UInt64.toNat_add]
        exact Nat.mod_eq_of_lt (show i.toNat + 1 < 2 ^ 64 by omega)
      obtain ⟨op, gen₁, pair₁, hnext, happly, hcheck, hr₁, hstats⟩ := hr.step (by omega) inactive
      have hrest : ops.toNat - i.toNat = ops.toNat - (i + 1).toNat + 1 := by omega
      have hplace : (i % 8).toNat < recent.length := by
        rw [hrecent, UInt64.toNat_mod]
        exact Nat.mod_lt _ (by decide)
      have hlen₁ : (h ++ [op]).length = (i + 1).toNat := by
        rw [List.length_append, hlen, hsucc]
        rfl
      have hrecent₁ : (recent.set (i % 8).toNat op).length = 8 := by
        rw [List.length_set]
        exact hrecent
      obtain ⟨pair₂, drawn, gen₂, hdraw, hloop, hstats₂⟩ := ih (i + 1) pair₁ gen₁
        (recent.set (i % 8).toNat op) (h ++ [op]) _ (by omega) (by omega) hr₁ hlen₁ hrecent₁
      refine ⟨pair₂, op :: drawn, gen₂, ?_, ?_, ?_⟩
      · rw [hrest, Generator.draw, hnext, ok_bind]
        dsimp only
        rw [hdraw]
        rfl
      · -- whether the state is checked here or not, there is nothing to report
        rw [fuzzFrom, if_pos (UInt64.lt_iff_toNat_lt.mpr hlast), hnext, ok_bind]
        dsimp only
        rw [require_of hplace, ok_bind, happly, ok_bind]
        dsimp only
        rw [require_of hstride, ok_bind, hcheck]
        simp only [pure_eq_ok, ok_bind, ite_self]
        exact hloop
      · rw [hstats₂, hstats, Stats.add_assoc]
        rfl
    · have hzero : ops.toNat - i.toNat = 0 := by
        rw [UInt64.lt_iff_toNat_lt] at hlast
        omega
      refine ⟨pair, [], gen, ?_, ?_, ?_⟩
      · rw [hzero]
        rfl
      · rw [fuzzFrom, if_neg hlast]
        rfl
      · exact (Stats.add_zero _).symm

/-- The capacity of the pool that a seed is run with. -/
def capacityOf (seed : UInt64) : Index := capacities.getD (seed % 4).toNat 0

/-- What happens to the abstract book in the stream of a seed. -/
def streamEvents (seed ops : UInt64) : Stats :=
  match make seed ops with
  | .ok cmds => eventsAlong (.new (capacityOf seed).toNat) cmds
  | .error _ => {}

/-- No capacity is over 128. -/
theorem capacityOf_le (seed : UInt64) : (capacityOf seed).toNat ≤ 128 := by
  have hlt : (seed % 4).toNat < 4 := by
    rw [UInt64.toNat_mod]
    exact Nat.mod_lt _ (by decide)
  unfold capacityOf
  generalize (seed % 4).toNat = k at hlt
  interval_cases k <;> decide

/-- One seed ends without a report, and counts the events of its stream. -/
theorem fuzzSeed_spec (hstride : stride ≠ 0) (inactive : Index → Order) (seed ops : UInt64) :
    ∃ pair, fuzzSeed inactive seed ops stride = .ok (.ok pair) ∧
      pair.stats = streamEvents seed ops ∧ pair.stats.ops = ops := by
  have hlt : (seed % 4).toNat < capacities.length := by
    rw [UInt64.toNat_mod]
    exact Nat.mod_lt _ (by decide)
  have hcap : capacities[(seed % 4).toNat]? = some (capacityOf seed) := by
    unfold capacityOf
    rw [List.getElem?_eq_getElem hlt, List.getD_eq_getElem _ _ hlt]
  have hready : Ready (Pair.new (capacityOf seed)) (Generator.new seed)
      (.new (capacityOf seed).toNat) [] := by
    constructor
    · exact Pair.agrees_new _
    · exact Generator.after_new seed
    · exact within_new 10 _
    · have hle := capacityOf_le seed
      show (capacityOf seed).toNat * 10 < 2 ^ 32
      omega
  obtain ⟨pair, drawn, gen, hdraw, hloop, hstats⟩ := fuzzFrom_spec hstride inactive seed ops
    (capacityOf seed) (ops.toNat + 1) 0 (Pair.new (capacityOf seed)) (Generator.new seed)
    (List.replicate 8 {}) []
    (.new (capacityOf seed).toNat) (Nat.lt_succ_of_le (Nat.sub_le _ _)) (Nat.zero_le _) hready rfl
    rfl
  have hdraw : (Generator.new seed).draw ops.toNat = .ok (drawn, gen) := hdraw
  have hmake : make seed ops = .ok (drawn.map toCommand) := make_eq hdraw
  obtain ⟨drawn', gen', hdraw', -, hlength, -⟩ := Generator.draw_new seed ops
  rw [hdraw, Except.ok.injEq, Prod.mk.injEq] at hdraw'
  have hstats : pair.stats = eventsAlong (.new (capacityOf seed).toNat) (drawn.map toCommand) :=
    hstats.trans (Stats.zero_add _)
  refine ⟨pair, ?_, ?_, ?_⟩
  · unfold fuzzSeed
    rw [hcap]
    exact hloop
  · unfold streamEvents
    rw [hmake]
    exact hstats
  · rw [hstats, ops_eventsAlong, List.length_map, hdraw'.1, hlength, UInt64.ofNat_toNat]

/-! ## All seeds -/

/-- What happens in the streams of `rounds` seeds, the first of which is `seed`. -/
def seedEvents (ops : UInt64) : ℕ → UInt64 → Stats
  | 0, _ => {}
  | rounds + 1, seed => (streamEvents seed ops).add (seedEvents ops rounds (seed + 1))

theorem ops_streamEvents (seed ops : UInt64) : (streamEvents seed ops).ops = ops := by
  obtain ⟨pair, -, hstats, hops⟩ :=
    fuzzSeed_spec (show (1 : UInt64) ≠ 0 by decide) (fun _ => {}) seed ops
  rw [← hstats]
  exact hops

/-- Seed by seed, the commands counted are those asked for. -/
theorem ops_seedEvents (ops : UInt64) : ∀ (rounds : ℕ) (seed : UInt64),
    (seedEvents ops rounds seed).ops = UInt64.ofNat rounds * ops := by
  intro rounds
  induction rounds with
  | zero => exact fun _ => (UInt64.zero_mul).symm
  | succ rounds ih =>
    intro seed
    show (streamEvents seed ops).ops + (seedEvents ops rounds (seed + 1)).ops = _
    rw [ops_streamEvents, ih, UInt64.ofNat_add, UInt64.add_mul, UInt64.add_comm]
    show _ = _ + 1 * ops
    rw [UInt64.one_mul]

/-- All the seeds end without a report, and their counts add up. -/
theorem fuzzSeeds_spec (hstride : stride ≠ 0) (inactive : Index → Order) (ops : UInt64) :
    ∀ (rounds : ℕ) (seed : UInt64) (total : Stats),
      fuzzSeeds inactive ops stride rounds seed total =
        .ok (.ok (total.add (seedEvents ops rounds seed))) := by
  intro rounds
  induction rounds with
  | zero =>
    intro seed total
    rw [fuzzSeeds, seedEvents, Stats.add_zero]
    rfl
  | succ rounds ih =>
    intro seed total
    obtain ⟨pair, hseed, hstats, -⟩ := fuzzSeed_spec hstride inactive seed ops
    rw [fuzzSeeds, hseed, ok_bind]
    dsimp only
    rw [ih, hstats, Stats.add_assoc]
    rfl

/-- The counters of the paths that a run must reach. -/
def Stats.paths (s : Stats) : List UInt64 :=
  [s.trades, s.stp, s.fokRejected, s.poolExhausted, s.modifyOk, s.modifyCrossingRejected,
    s.cancelOk, s.invalidRejected]

/-- A run is vacuous if it is long and did not reach some path. -/
theorem vacuous_iff (total : Stats) :
    vacuous total = true ↔ 10000 ≤ total.ops ∧ 0 ∈ total.paths := by
  simp only [vacuous, Stats.paths, Bool.and_eq_true, Bool.or_eq_true, decide_eq_true_eq, ge_iff_le,
    List.mem_cons, List.not_mem_nil, or_false, or_assoc, @eq_comm _ (0 : UInt64)]

/-- **The fuzzer never reports a divergence**, for any seeds, any number of operations and any
stride. What it prints is what happens to the abstract book in the streams of the seeds. It
returns 2 if at least 10000 operations were counted and some path was not reached, and 0
otherwise. -/
theorem fuzz_reports_nothing (inactive : Index → Order) (seeds : Int32)
    (ops first stride : UInt64) :
    ∃ total e, total = seedEvents ops seeds.toInt.toNat first ∧
      total.ops = UInt64.ofNat seeds.toInt.toNat * ops ∧
      fuzzMain inactive seeds ops first stride = .ok e ∧ e.out = summary seeds ops total ∧
      (e.code = 2 ↔ 10000 ≤ total.ops ∧ 0 ∈ total.paths) ∧
      (e.code ≠ 2 → e.code = 0 ∧ e.err = []) := by
  have hstride : (if stride = 0 then (1 : UInt64) else stride) ≠ 0 := by
    split
    · decide
    · assumption
  have hseeds := fuzzSeeds_spec hstride inactive ops seeds.toInt.toNat first {}
  rw [Stats.zero_add] at hseeds
  have hops := ops_seedEvents ops seeds.toInt.toNat first
  unfold fuzzMain
  dsimp only
  rw [hseeds, ok_bind]
  dsimp only
  cases hvacuous : vacuous (seedEvents ops seeds.toInt.toNat first) with
  | true =>
    rw [if_pos rfl]
    refine ⟨_, _, rfl, hops, rfl, rfl, iff_of_true rfl ((vacuous_iff _).mp hvacuous), ?_⟩
    exact fun h => absurd rfl h
  | false =>
    rw [if_neg Bool.false_ne_true]
    have hreached : ¬ (10000 ≤ (seedEvents ops seeds.toInt.toNat first).ops ∧
        0 ∈ (seedEvents ops seeds.toInt.toNat first).paths) := by
      rw [← vacuous_iff, hvacuous]
      decide
    exact ⟨_, _, rfl, hops, rfl, rfl, iff_of_false (show ¬ (0 : ℕ) = 2 by decide) hreached,
      fun _ => ⟨rfl, rfl⟩⟩

end Diff

end MatchingEngine
