import Mathlib.Data.Nat.Cast.Defs
import MatchingEngine.Bench.Workload
import MatchingEngine.Replay.Replay

/-!
# The benchmark runner

`bench/runner.hpp`: two passes over the same commands, one timed as a whole and one timed per
command, and the statistics of the samples.

The counter of the processor is a parameter: `tsc k` is what the `k`-th call of `tsc_now`
returns. So is the type `ν` of the times, which in the source are floating-point numbers, with
its division and the conversion of an integer to it.
-/

namespace MatchingEngine

namespace Bench

open Replay

/-- `TscClock`: how many ticks make a nanosecond. -/
structure TscClock (ν : Type) where
  ticksPerNs : ν

/-- `LatencyStats`, in nanoseconds. -/
structure LatencyStats (ν : Type) where
  samples : ℕ
  p50 : ν
  p99 : ν
  p999 : ν
  p9999 : ν
  max : ν
deriving DecidableEq

/-- `RunResult`. -/
structure RunResult (ν : Type) where
  limit : LatencyStats ν
  cancel : LatencyStats ν
  opsPerSec : ν
  perOpMeanNs : ν
  trades : UInt64
deriving DecidableEq

/-- `KindCounts`. -/
structure KindCounts where
  limit : ℕ := 0
  cancel : ℕ := 0
deriving DecidableEq

/-- A p99.9 bucket must hold at least this many samples. -/
def kMinTailSamples : ℕ := 100

/-- The body of the loop of `count_kinds`. -/
def KindCounts.count (k : KindCounts) (c : Cmd) : KindCounts :=
  match c.kind with
  | .cancel => { k with cancel := k.cancel + 1 }
  | .limit => { k with limit := k.limit + 1 }

/-- `count_kinds`: the commands after the warm-up, by kind. -/
def countKinds (cmds : List Cmd) (start : ℕ) : KindCounts :=
  (cmds.drop start).foldl KindCounts.count {}

/-- `p999_has_enough_samples`. -/
def p999HasEnoughSamples (n : ℕ) : Bool := decide (kMinTailSamples ≤ n / 1000)

/-! ## Statistics -/

/-- `percentile`: the nearest rank. The arithmetic is unsigned and may wrap around. -/
def percentile (sorted : List UInt64) (per10k : UInt32) : Checked UInt64 :=
  let rank := (UInt64.ofNat sorted.length * per10k.toUInt64 + 9999) / 10000
  orFault sorted[(rank - 1).toNat]? .outOfRange

section

variable {ν : Type} [NatCast ν] [Div ν]

/-- `TscClock::to_ns`. -/
def TscClock.toNs (clock : TscClock ν) (ticks : UInt64) : ν := (ticks.toNat : ν) / clock.ticksPerNs

/-- `stats_from`, with the samples as it leaves them. -/
def statsFrom (clock : TscClock ν) (ticks : List UInt64) : Checked (List UInt64 × LatencyStats ν) :=
  if ticks.isEmpty then
    return (ticks, ⟨ticks.length, (0 : ℕ), (0 : ℕ), (0 : ℕ), (0 : ℕ), (0 : ℕ)⟩)
  else do
    let sorted := ticks.mergeSort fun a b => decide (a ≤ b)
    let p50 ← percentile sorted 5000
    let p99 ← percentile sorted 9900
    let p999 ← percentile sorted 9990
    let p9999 ← percentile sorted 9999
    let back ← orFault sorted.getLast? .outOfRange
    return (sorted, ⟨ticks.length, clock.toNs p50, clock.toNs p99, clock.toNs p999,
      clock.toNs p9999, clock.toNs back⟩)

end

/-! ## The passes -/

/-- What `apply` returns: how many trades the command made. -/
def tradesMade : Reply → UInt64
  | .added r => UInt64.ofNat r.trades.length
  | .flag _ => 0

/-- The loop over the first `warmup` commands. -/
def warmUp (cmds : List Cmd) (warmup : ℕ) (b : Book) : Checked Book :=
  (List.range warmup).foldlM (fun b i => do
    let c ← orFault cmds[i]? .outOfRange
    let (b, _) ← apply b c
    return b) b

/-- The measured loop of the first pass. -/
def applyAll : Book → UInt64 → List Cmd → Checked (Book × UInt64)
  | b, trades, [] => return (b, trades)
  | b, trades, c :: cmds => do
    let (b, reply) ← apply b c
    applyAll b (trades + tradesMade reply) cmds

/-- What the second pass collects. -/
structure Samples where
  limitTicks : List UInt64 := []
  cancelTicks : List UInt64 := []
  trades : UInt64 := 0

/-- The ticks of one command go to the samples of its kind. -/
def Samples.push (s : Samples) (kind : CmdKind) (ticks : UInt64) : Samples :=
  match kind with
  | .cancel => { s with cancelTicks := s.cancelTicks ++ [ticks] }
  | .limit => { s with limitTicks := s.limitTicks ++ [ticks] }

/-- The measured loop of the second pass. The next call of `tsc_now` is the `k`-th one. -/
def measureAll (tsc : ℕ → UInt64) : ℕ → Book → Samples → List Cmd → Checked (Book × Samples)
  | _, b, s, [] => return (b, s)
  | k, b, s, c :: cmds => do
    let start := tsc k
    let (b, reply) ← apply b c
    let s := { s with trades := s.trades + tradesMade reply }
    let stop := tsc (k + 1)
    measureAll tsc (k + 2) b (s.push c.kind (stop - start)) cmds

/-- What `run` prints when the passes made different numbers of trades. -/
def passesDisagree (trades wholeTrades : UInt64) : Text :=
  format [.text "the two passes disagree on trades (", .unsigned trades.toNat, .text " vs ",
    .unsigned wholeTrades.toNat, .text "): the engine is not deterministic\n"]

/-- `run`. The error is what is printed before the program is aborted. -/
def run {ν : Type} [NatCast ν] [Div ν] (tsc : ℕ → UInt64) (clock : TscClock ν) (cmds : List Cmd)
    (warmup : ℕ) : Checked (Except Text (RunResult ν)) := do
  let measured := UInt64.ofNat cmds.length - UInt64.ofNat warmup
  let b ← warmUp cmds warmup (Book.new kBookCapacity)
  let start := tsc 0
  let (_, wholeTrades) ← applyAll b 0 (cmds.drop warmup)
  let stop := tsc 1
  let opsPerSec := (measured.toNat : ν) / (clock.toNs (stop - start) / ((10 ^ 9 : ℕ) : ν))
  let b ← warmUp cmds warmup (Book.new kBookCapacity)
  let (_, s) ← measureAll tsc 2 b {} (cmds.drop warmup)
  if s.trades ≠ wholeTrades then return .error (passesDisagree s.trades wholeTrades)
  let totalTicks := s.cancelTicks.foldl (· + ·) (s.limitTicks.foldl (· + ·) 0)
  let perOpMeanNs := clock.toNs totalTicks / (measured.toNat : ν)
  let (_, limit) ← statsFrom clock s.limitTicks
  let (_, cancel) ← statsFrom clock s.cancelTicks
  return .ok { limit, cancel, opsPerSec, perOpMeanNs, trades := s.trades }

end Bench

end MatchingEngine
