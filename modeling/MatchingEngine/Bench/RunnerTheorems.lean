import MatchingEngine.Bench.Runner
import MatchingEngine.Book.Slicing
import MatchingEngine.Library.OrderStatistic

/-!
# What the benchmark reports

The statistics of the samples are their nearest ranks (`stats_are_nearest_ranks`), and a run of
the benchmark reports what happened, whatever the counter of the processor shows: it never
aborts, the trades are those of the measured part, and there is one sample for each measured
command (`run_reports`).
-/

namespace MatchingEngine

namespace Bench

open OrderStatistic PriorityBook

/-! ## Nearest ranks -/

/-- The quantile of some samples, in units of 0.01%, is `t`: the rank is rounded up. -/
def Quantile (ticks : List UInt64) (per10k : ℕ) (t : UInt64) : Prop :=
  IsRank (ticks.map UInt64.toNat) ((ticks.length * per10k + 9999) / 10000) t.toNat

section

variable {ticks sorted : List UInt64} {t t' : UInt64}

/-- A larger share of the samples has the larger quantile. -/
theorem Quantile.mono {q q' : ℕ} (h : Quantile ticks q t) (h' : Quantile ticks q' t')
    (hle : q ≤ q') : t ≤ t' := by
  apply UInt64.le_iff_toNat_le.mpr
  apply IsRank.mono h h'
  apply Nat.div_le_div_right
  have hmul := Nat.mul_le_mul_left ticks.length hle
  omega

/-- A quantile does not depend on the order of the samples. -/
theorem Quantile.perm {q : ℕ} (h : Quantile sorted q t) (hp : sorted.Perm ticks) :
    Quantile ticks q t := by
  unfold Quantile
  rw [← hp.length_eq]
  exact IsRank.perm h (hp.map _)

/-- **One percentile**: nothing wraps around, and the rank is a position. -/
theorem percentile_spec (hsorted : sorted.Pairwise (· ≤ ·)) (hne : sorted ≠ [])
    (hlen : sorted.length * 10000 + 9999 < 2 ^ 64) (q : UInt32) (hpos : 0 < q.toNat)
    (hq : q.toNat ≤ 10000) :
    ∃ t, percentile sorted q = .ok t ∧ Quantile sorted q.toNat t ∧
      sorted[(sorted.length * q.toNat + 9999) / 10000 - 1]? = some t := by
  have hn : 0 < sorted.length := List.length_pos_iff.mpr hne
  have hmul : sorted.length * q.toNat ≤ sorted.length * 10000 := Nat.mul_le_mul_left _ hq
  have hmul' : sorted.length * 1 ≤ sorted.length * q.toNat := Nat.mul_le_mul_left _ hpos
  generalize hr : (sorted.length * q.toNat + 9999) / 10000 = r
  have hr1 : 1 ≤ r := by omega
  have hrn : r ≤ sorted.length := by omega
  have hrank : ((UInt64.ofNat sorted.length * q.toUInt64 + 9999) / 10000 - 1).toNat = r - 1 := by
    have hsize : (UInt64.ofNat sorted.length).toNat = sorted.length :=
      UInt64.toNat_ofNat_of_lt' (show sorted.length < 2 ^ 64 by omega)
    have hsum : (UInt64.ofNat sorted.length * q.toUInt64 + 9999).toNat =
        sorted.length * q.toNat + 9999 := by
      rw [UInt64.toNat_add, UInt64.toNat_mul, hsize, UInt32.toNat_toUInt64,
        Nat.mod_eq_of_lt (show sorted.length * q.toNat < 2 ^ 64 by omega)]
      exact Nat.mod_eq_of_lt (show sorted.length * q.toNat + 9999 < 2 ^ 64 by omega)
    have hdiv : ((UInt64.ofNat sorted.length * q.toUInt64 + 9999) / 10000).toNat = r := by
      rw [UInt64.toNat_div, hsum]
      exact hr
    have hone : (1 : UInt64) ≤ (UInt64.ofNat sorted.length * q.toUInt64 + 9999) / 10000 := by
      rw [UInt64.le_iff_toNat_le, hdiv]
      exact hr1
    rw [UInt64.toNat_sub_of_le _ _ hone, hdiv]
    rfl
  have hlt : r - 1 < sorted.length := by omega
  refine ⟨sorted[r - 1], ?_, ?_, List.getElem?_eq_getElem hlt⟩
  · unfold percentile
    dsimp only
    rw [hrank, List.getElem?_eq_getElem hlt]
    rfl
  · have hmono : (sorted.map UInt64.toNat).Pairwise (· ≤ ·) :=
      List.pairwise_map.mpr (hsorted.imp fun h => UInt64.le_iff_toNat_le.mp h)
    have hget : (sorted.map UInt64.toNat)[r - 1]? = some sorted[r - 1].toNat := by
      rw [List.getElem?_map, List.getElem?_eq_getElem hlt]
      rfl
    have hisRank := isRank_of_sorted hmono hget
    rw [Nat.sub_add_cancel hr1] at hisRank
    show IsRank _ ((sorted.length * q.toNat + 9999) / 10000) _
    rw [hr]
    exact hisRank

/-- A bucket of `n` samples above `t`. -/
def Bucket (ticks : List UInt64) (n : ℕ) (t : UInt64) : Prop :=
  ∃ front tail : List UInt64, (front ++ tail).Perm ticks ∧ tail.length = n ∧
    (∀ a ∈ front, a ≤ t) ∧ ∀ a ∈ tail, t ≤ a

/-- The entry at rank `r` of sorted samples has `length - r` samples behind it. -/
theorem bucket_of_sorted {r : ℕ} (hsorted : sorted.Pairwise (· ≤ ·)) (hr : 1 ≤ r)
    (ht : sorted[r - 1]? = some t) : Bucket sorted (sorted.length - r) t := by
  obtain ⟨hfront, hbehind⟩ := around_of_pairwise hsorted ht
  have hsucc : r - 1 + 1 = r := Nat.sub_add_cancel hr
  rw [hsucc] at hbehind
  refine ⟨sorted.take r, sorted.drop r, ?_, List.length_drop, ?_, hbehind⟩
  · rw [List.take_append_drop]
  · intro a ha
    rw [← hsucc, List.take_add_one, ht] at ha
    rcases List.mem_append.mp ha with ha | ha
    · exact hfront a ha
    · rw [List.mem_singleton.mp ha]
      exact UInt64.le_refl t

theorem sorted_mergeSort (ticks : List UInt64) :
    (ticks.mergeSort fun a b => decide (a ≤ b)).Pairwise (· ≤ ·) := by
  have h := @List.pairwise_mergeSort UInt64 (fun a b => decide (a ≤ b))
    (fun a b c => by simpa using UInt64.le_trans)
    (fun a b => by simpa using UInt64.le_total a b) ticks
  exact h.imp of_decide_eq_true

end

/-! ## Statistics -/

section

variable {ν : Type} [NatCast ν] [Div ν]

/-- What the statistics of some samples are. -/
inductive Latencies (clock : TscClock ν) : List UInt64 → LatencyStats ν → Prop
  | none : Latencies clock [] ⟨0, (0 : ℕ), (0 : ℕ), (0 : ℕ), (0 : ℕ), (0 : ℕ)⟩
  | some {ticks : List UInt64} {t50 t99 t999 t9999 back : UInt64} (hne : ticks ≠ [])
      (h50 : Quantile ticks 5000 t50) (h99 : Quantile ticks 9900 t99)
      (h999 : Quantile ticks 9990 t999) (h9999 : Quantile ticks 9999 t9999)
      (hmax : Quantile ticks 10000 back) :
      Latencies clock ticks ⟨ticks.length, clock.toNs t50, clock.toNs t99, clock.toNs t999,
        clock.toNs t9999, clock.toNs back⟩

variable {ticks : List UInt64}

/-- The statistics of samples that are there: each percentile by the nearest rank, and the
largest. -/
theorem statsFrom_ne_nil (clock : TscClock ν) (hne : ticks ≠ [])
    (hlen : ticks.length * 10000 + 9999 < 2 ^ 64) :
    ∃ sorted t50 t99 t999 t9999 back,
      statsFrom clock ticks = .ok (sorted, ⟨ticks.length, clock.toNs t50, clock.toNs t99,
        clock.toNs t999, clock.toNs t9999, clock.toNs back⟩) ∧ sorted.Perm ticks ∧
      Quantile ticks 5000 t50 ∧ Quantile ticks 9900 t99 ∧ Quantile ticks 9990 t999 ∧
      Quantile ticks 9999 t9999 ∧ Quantile ticks 10000 back ∧
      Bucket ticks (ticks.length / 1000) t999 := by
  have hperm := List.mergeSort_perm ticks fun a b => decide (a ≤ b)
  have hsorted := sorted_mergeSort ticks
  generalize hsort : (ticks.mergeSort fun a b => decide (a ≤ b)) = sorted at hperm hsorted
  have hlength := hperm.length_eq
  have hpos : 0 < ticks.length := List.length_pos_iff.mpr hne
  have hne' : sorted ≠ [] := by
    apply List.length_pos_iff.mp
    omega
  rw [← hlength] at hlen
  obtain ⟨t50, h50, hq50, -⟩ := percentile_spec hsorted hne' hlen 5000 (by decide) (by decide)
  obtain ⟨t99, h99, hq99, -⟩ := percentile_spec hsorted hne' hlen 9900 (by decide) (by decide)
  obtain ⟨t999, h999, hq999, hget⟩ := percentile_spec hsorted hne' hlen 9990 (by decide) (by decide)
  obtain ⟨t9999, h9999, hq9999, -⟩ := percentile_spec hsorted hne' hlen 9999 (by decide) (by decide)
  obtain ⟨back, -, hqback, hback⟩ := percentile_spec hsorted hne' hlen 10000 (by decide) (by decide)
  have h10000 : (10000 : UInt32).toNat = 10000 := rfl
  have h9990 : (9990 : UInt32).toNat = 9990 := rfl
  have hlast : sorted.getLast? = some back := by
    rw [h10000,
      show (sorted.length * 10000 + 9999) / 10000 - 1 = sorted.length - 1 by omega] at hback
    rw [List.getLast?_eq_getElem?, hback]
  have hbucket : Bucket sorted (ticks.length / 1000) t999 := by
    rw [h9990] at hget
    have h := bucket_of_sorted hsorted (by omega) hget
    rw [show sorted.length - (sorted.length * 9990 + 9999) / 10000 = ticks.length / 1000 by
      omega] at h
    exact h
  refine ⟨sorted, t50, t99, t999, t9999, back, ?_, hperm, hq50.perm hperm, hq99.perm hperm,
    hq999.perm hperm, hq9999.perm hperm, hqback.perm hperm, ?_⟩
  · unfold statsFrom
    rw [if_neg fun h => hne (List.isEmpty_iff.mp h)]
    dsimp only
    rw [hsort, h50, ok_bind, h99, ok_bind, h999, ok_bind, h9999, ok_bind, hlast]
    rfl
  · obtain ⟨front, tail, hsplit, hbucket⟩ := hbucket
    exact ⟨front, tail, hsplit.trans hperm, hbucket⟩

/-- The statistics of any samples; none at all give zeros. -/
theorem statsFrom_spec (clock : TscClock ν) (hlen : ticks.length * 10000 + 9999 < 2 ^ 64) :
    ∃ sorted s, statsFrom clock ticks = .ok (sorted, s) ∧ Latencies clock ticks s := by
  by_cases hne : ticks = []
  · subst hne
    exact ⟨_, _, rfl, .none⟩
  · obtain ⟨sorted, t50, t99, t999, t9999, back, heq, -, h50, h99, h999, h9999, hmax, -⟩ :=
      statsFrom_ne_nil clock hne hlen
    exact ⟨_, _, heq, .some hne h50 h99 h999 h9999 hmax⟩

/-- **The statistics are nearest ranks**: each percentile is the smallest sample with that share
of the samples at or below it, they are in order, none exceeds the maximum, and behind the p99.9
there are a thousandth of the samples. -/
theorem stats_are_nearest_ranks (clock : TscClock ν) (ticks : List UInt64) (hne : ticks ≠ [])
    (hlen : ticks.length * 10000 + 9999 < 2 ^ 64) :
    ∃ sorted t50 t99 t999 t9999 back,
      statsFrom clock ticks = .ok (sorted, ⟨ticks.length, clock.toNs t50, clock.toNs t99,
        clock.toNs t999, clock.toNs t9999, clock.toNs back⟩) ∧ sorted.Perm ticks ∧
      Quantile ticks 5000 t50 ∧ Quantile ticks 9900 t99 ∧ Quantile ticks 9990 t999 ∧
      Quantile ticks 9999 t9999 ∧ t50 ≤ t99 ∧ t99 ≤ t999 ∧ t999 ≤ t9999 ∧ t9999 ≤ back ∧
      back ∈ ticks ∧ (∀ t ∈ ticks, t ≤ back) ∧ Bucket ticks (ticks.length / 1000) t999 := by
  obtain ⟨sorted, t50, t99, t999, t9999, back, heq, hperm, h50, h99, h999, h9999, hmax, hbucket⟩ :=
    statsFrom_ne_nil clock hne hlen
  refine ⟨sorted, t50, t99, t999, t9999, back, heq, hperm, h50, h99, h999, h9999,
    h50.mono h99 (by omega), h99.mono h999 (by omega), h999.mono h9999 (by omega),
    h9999.mono hmax (by omega), ?_, ?_, hbucket⟩
  · obtain ⟨t, ht, heq⟩ := List.mem_map.mp hmax.mem
    rw [← UInt64.toNat_inj.mp heq]
    exact ht
  · have hall : IsRank (ticks.map UInt64.toNat) (ticks.map UInt64.toNat).length back.toNat := by
      rw [List.length_map]
      unfold Quantile at hmax
      rw [show (ticks.length * 10000 + 9999) / 10000 = ticks.length by omega] at hmax
      exact hmax
    intro t ht
    exact UInt64.le_iff_toNat_le.mpr (hall.le_of_length _ (List.mem_map_of_mem ht))

/-- Three samples, of 30, 10 and 20 nanoseconds. -/
theorem stats_are_nearest_ranks_three :
    ∃ sorted t50 t99 t999 t9999 back,
      statsFrom (⟨2⟩ : TscClock Rat) [60, 20, 40] = .ok (sorted, ⟨3, TscClock.toNs ⟨2⟩ t50,
        TscClock.toNs ⟨2⟩ t99, TscClock.toNs ⟨2⟩ t999, TscClock.toNs ⟨2⟩ t9999,
        TscClock.toNs ⟨2⟩ back⟩) ∧ sorted.Perm [60, 20, 40] ∧
      Quantile [60, 20, 40] 5000 t50 ∧ Quantile [60, 20, 40] 9900 t99 ∧
      Quantile [60, 20, 40] 9990 t999 ∧ Quantile [60, 20, 40] 9999 t9999 ∧ t50 ≤ t99 ∧
      t99 ≤ t999 ∧ t999 ≤ t9999 ∧ t9999 ≤ back ∧ back ∈ [60, 20, 40] ∧
      (∀ t ∈ ([60, 20, 40] : List UInt64), t ≤ back) ∧ Bucket [60, 20, 40] (3 / 1000) t999 :=
  stats_are_nearest_ranks ⟨2⟩ [60, 20, 40] (by decide) (by decide)

end

/-! ## The passes -/

/-- What `apply` gives to the book. -/
def Cmd.toCommand (c : Cmd) : Command :=
  match c.kind with
  | .cancel => cancelCommand c.id
  | .limit => limitCommand c.id c.side c.price c.qty c.account

/-- The benchmark's dispatch is the book's, at the command its own one stands for. -/
theorem apply_eq (b : Book) (c : Cmd) : apply b c = b.exec c.toCommand := by
  unfold apply Cmd.toCommand
  cases c.kind <;> rfl

/-- A run of the benchmark's commands is a run of the book's. -/
theorem runM_apply (cmds : List Cmd) : ∀ b : Book,
    Run.runM apply b cmds = Run.runM Book.exec b (cmds.map Cmd.toCommand) := by
  induction cmds with
  | nil => exact fun _ => rfl
  | cons c cmds ih =>
    intro b
    rw [List.map_cons, Run.runM, Run.runM, apply_eq]
    simp only [ih]

/-- The abstract book after some commands. -/
def bookAfter (s : PriorityBook) (cmds : List Cmd) : PriorityBook :=
  (Run.run (PriorityBook.exec counter32) s (cmds.map Cmd.toCommand)).1

/-- What the abstract book replies to the commands. -/
def repliesTo (s : PriorityBook) (cmds : List Cmd) : List Reply :=
  (Run.run (PriorityBook.exec counter32) s (cmds.map Cmd.toCommand)).2

/-- How many trades some commands made. -/
def made (replies : List Reply) : UInt64 := UInt64.ofNat (replies.flatMap Reply.trades).length

/-- The trades counted so far and those still to come. -/
theorem made_cons (reply : Reply) (replies : List Reply) (n : UInt64) :
    n + tradesMade reply + made replies = n + made (reply :: replies) := by
  have hreply : tradesMade reply = UInt64.ofNat reply.trades.length := by
    cases reply <;> rfl
  rw [UInt64.add_assoc, hreply, made, made, List.flatMap_cons, List.length_append, UInt64.ofNat_add]

section Passes

variable {s : PriorityBook} {b : Book} {cmds : List Cmd}

/-- A command is applied as the abstract book does it. -/
theorem apply_spec (h : b.Represents s) (hok : s.Ok) (c : Cmd) :
    ∃ b', apply b c = .ok (b', (s.exec counter32 c.toCommand).2) ∧
      b'.Represents (s.exec counter32 c.toCommand).1 ∧ (s.exec counter32 c.toCommand).1.Ok := by
  obtain ⟨b', heq, hrep⟩ := Book.exec_spec h hok c.toCommand
  rw [← apply_eq] at heq
  exact ⟨b', heq, hrep, hok.exec counter32 c.toCommand⟩

/-- The warm-up ends with the book after the first `warmup` commands. -/
theorem warmUp_spec (h : b.Represents s) (hok : s.Ok) : ∀ warmup ≤ cmds.length,
    ∃ b', warmUp cmds warmup b = .ok b' ∧ b'.Represents (bookAfter s (cmds.take warmup)) ∧
      (bookAfter s (cmds.take warmup)).Ok := by
  intro warmup
  induction warmup with
  | zero => exact fun _ => ⟨b, rfl, h, hok⟩
  | succ warmup ih =>
    intro hle
    obtain ⟨b₁, hwarm, h₁, hok₁⟩ := ih (by omega)
    have hget : cmds[warmup]? = some cmds[warmup] := List.getElem?_eq_getElem hle
    obtain ⟨b₂, hstep, h₂, hok₂⟩ := apply_spec h₁ hok₁ cmds[warmup]
    have hafter : bookAfter s (cmds.take (warmup + 1)) =
        ((bookAfter s (cmds.take warmup)).exec counter32 cmds[warmup].toCommand).1 := by
      rw [List.take_add_one, hget, bookAfter, Option.toList_some, List.map_append, Run.run_append]
      rfl
    rw [hafter]
    refine ⟨b₂, ?_, h₂, hok₂⟩
    unfold warmUp at hwarm ⊢
    rw [List.range_succ, List.foldlM_append, hwarm, ok_bind, List.foldlM_cons, hget, orFault_some,
      ok_bind, hstep]
    rfl

/-- The first pass counts the trades of every reply. -/
theorem applyAll_spec (cmds : List Cmd) : ∀ (s : PriorityBook) (b : Book) (n : UInt64),
    b.Represents s → s.Ok → ∃ b', applyAll b n cmds = .ok (b', n + made (repliesTo s cmds)) := by
  induction cmds with
  | nil =>
    intro s b n _ _
    refine ⟨b, ?_⟩
    show applyAll b n [] = .ok (b, n + 0)
    rw [UInt64.add_zero]
    rfl
  | cons c cmds ih =>
    intro s b n h hok
    obtain ⟨b₁, hstep, h₁, hok₁⟩ := apply_spec h hok c
    obtain ⟨b', hrest⟩ := ih _ b₁ (n + tradesMade (s.exec counter32 c.toCommand).2) h₁ hok₁
    refine ⟨b', ?_⟩
    rw [applyAll, hstep, ok_bind]
    dsimp only
    rw [hrest, made_cons]
    rfl

/-- What the counter shows for the `i`-th measured command. -/
def elapsed (tsc : ℕ → UInt64) (i : ℕ) : UInt64 := tsc (2 * i + 3) - tsc (2 * i + 2)

/-- The samples of the commands of one kind, the first command being the `i`-th. -/
def ticksFrom (tsc : ℕ → UInt64) (kind : CmdKind) (i : ℕ) (cmds : List Cmd) : List UInt64 :=
  ((cmds.zipIdx i).filter fun p => p.1.kind = kind).map fun p => elapsed tsc p.2

theorem ticksFrom_cons (tsc : ℕ → UInt64) (kind : CmdKind) (i : ℕ) (c : Cmd) (cmds : List Cmd) :
    ticksFrom tsc kind i (c :: cmds) =
      if c.kind = kind then elapsed tsc i :: ticksFrom tsc kind (i + 1) cmds
      else ticksFrom tsc kind (i + 1) cmds := by
  unfold ticksFrom
  by_cases hkind : c.kind = kind <;> simp [hkind]

/-- The samples so far and those still to come. -/
theorem push_ticksFrom (tsc : ℕ → UInt64) (i : ℕ) (c : Cmd) (cmds : List Cmd) (a : Samples) :
    (a.push c.kind (elapsed tsc i)).limitTicks ++ ticksFrom tsc .limit (i + 1) cmds =
        a.limitTicks ++ ticksFrom tsc .limit i (c :: cmds) ∧
      (a.push c.kind (elapsed tsc i)).cancelTicks ++ ticksFrom tsc .cancel (i + 1) cmds =
        a.cancelTicks ++ ticksFrom tsc .cancel i (c :: cmds) ∧
      (a.push c.kind (elapsed tsc i)).trades = a.trades := by
  rw [ticksFrom_cons, ticksFrom_cons]
  unfold Samples.push
  cases c.kind <;> simp

/-- The second pass counts the same trades, and sorts the ticks by kind. -/
theorem measureAll_spec (tsc : ℕ → UInt64) (cmds : List Cmd) :
    ∀ (i : ℕ) (s : PriorityBook) (b : Book) (a : Samples), b.Represents s → s.Ok →
      ∃ b', measureAll tsc (2 * i + 2) b a cmds = .ok (b',
        ⟨a.limitTicks ++ ticksFrom tsc .limit i cmds, a.cancelTicks ++ ticksFrom tsc .cancel i cmds,
          a.trades + made (repliesTo s cmds)⟩) := by
  induction cmds with
  | nil =>
    intro i s b a _ _
    refine ⟨b, ?_⟩
    show measureAll tsc (2 * i + 2) b a [] =
      .ok (b, ⟨a.limitTicks ++ [], a.cancelTicks ++ [], a.trades + 0⟩)
    rw [List.append_nil, List.append_nil, UInt64.add_zero]
    rfl
  | cons c cmds ih =>
    intro i s b a h hok
    obtain ⟨b₁, hstep, h₁, hok₁⟩ := apply_spec h hok c
    generalize hreply : (s.exec counter32 c.toCommand).2 = reply at hstep
    have hmade :
        a.trades + tradesMade reply + made (repliesTo (s.exec counter32 c.toCommand).1 cmds) =
          a.trades + made (repliesTo s (c :: cmds)) := by
      rw [made_cons, ← hreply]
      rfl
    obtain ⟨hlimit, hcancel, htrades⟩ :=
      push_ticksFrom tsc i c cmds ⟨a.limitTicks, a.cancelTicks, a.trades + tradesMade reply⟩
    obtain ⟨b', hrest⟩ := ih (i + 1) _ b₁
      (Samples.push ⟨a.limitTicks, a.cancelTicks, a.trades + tradesMade reply⟩ c.kind
        (elapsed tsc i)) h₁ hok₁
    rw [hlimit, hcancel, htrades, hmade] at hrest
    refine ⟨b', ?_⟩
    rw [measureAll, hstep, ok_bind]
    exact hrest

end Passes

/-! ## Totals -/

/-- The sum of some samples. It may wrap around. -/
def total (ticks : List UInt64) : UInt64 := ticks.foldr (· + ·) 0

theorem total_cons (t : UInt64) (ticks : List UInt64) : total (t :: ticks) = t + total ticks := rfl

theorem foldl_add (ticks : List UInt64) : ∀ n : UInt64,
    ticks.foldl (· + ·) n = n + total ticks := by
  induction ticks with
  | nil => exact fun n => (UInt64.add_zero n).symm
  | cons t ticks ih =>
    intro n
    rw [List.foldl_cons, ih, total_cons, UInt64.add_assoc]

/-- Every tick is counted once, under one of the two kinds. -/
theorem total_ticksFrom (tsc : ℕ → UInt64) (cmds : List Cmd) : ∀ i : ℕ,
    total (ticksFrom tsc .limit i cmds) + total (ticksFrom tsc .cancel i cmds) =
      total ((List.range' i cmds.length).map (elapsed tsc)) := by
  induction cmds with
  | nil => exact fun _ => rfl
  | cons c cmds ih =>
    intro i
    rw [List.length_cons, List.range'_succ, List.map_cons, total_cons, ← ih (i + 1),
      ticksFrom_cons, ticksFrom_cons]
    cases c.kind with
    | limit =>
      rw [if_pos rfl, if_neg (by decide), total_cons, UInt64.add_assoc]
    | cancel =>
      rw [if_neg (by decide), if_pos rfl, total_cons, ← UInt64.add_assoc, ← UInt64.add_assoc,
        UInt64.add_comm (elapsed tsc i)]

theorem length_ticksFrom_le (tsc : ℕ → UInt64) (kind : CmdKind) (i : ℕ) (cmds : List Cmd) :
    (ticksFrom tsc kind i cmds).length ≤ cmds.length := by
  have h := List.length_filter_le (fun p : Cmd × ℕ => decide (p.1.kind = kind)) (cmds.zipIdx i)
  rw [List.length_zipIdx] at h
  rw [ticksFrom, List.length_map]
  exact h

/-- The commands counted by kind are as many as the samples of that kind. -/
theorem foldl_count (tsc : ℕ → UInt64) (cmds : List Cmd) : ∀ (i : ℕ) (k : KindCounts),
    cmds.foldl KindCounts.count k = ⟨k.limit + (ticksFrom tsc .limit i cmds).length,
      k.cancel + (ticksFrom tsc .cancel i cmds).length⟩ := by
  induction cmds with
  | nil => exact fun _ _ => rfl
  | cons c cmds ih =>
    intro i k
    rw [List.foldl_cons, ih (i + 1), ticksFrom_cons, ticksFrom_cons, KindCounts.count]
    cases c.kind <;> simp <;> omega

/-! ## The run -/

section

variable {ν : Type} [NatCast ν] [Div ν]

theorem toNat_measured {n warmup : ℕ} (hwarmup : warmup ≤ n) (hn : n < 2 ^ 64) :
    (UInt64.ofNat n - UInt64.ofNat warmup).toNat = n - warmup := by
  have hall : (UInt64.ofNat n).toNat = n := UInt64.toNat_ofNat_of_lt' hn
  have hpart : (UInt64.ofNat warmup).toNat = warmup :=
    UInt64.toNat_ofNat_of_lt' (show warmup < 2 ^ 64 by omega)
  have hle : UInt64.ofNat warmup ≤ UInt64.ofNat n := by
    rw [UInt64.le_iff_toNat_le, hall, hpart]
    exact hwarmup
  rw [UInt64.toNat_sub_of_le _ _ hle, hall, hpart]

/-- The run ends without a report, with the statistics of what the second pass measured. -/
theorem run_spec (tsc : ℕ → UInt64) (clock : TscClock ν) (cmds : List Cmd) (warmup : ℕ)
    (hwarmup : warmup ≤ cmds.length) (hlen : cmds.length * 10000 + 9999 < 2 ^ 64) :
    ∃ limit cancel, Latencies clock (ticksFrom tsc .limit 0 (cmds.drop warmup)) limit ∧
      Latencies clock (ticksFrom tsc .cancel 0 (cmds.drop warmup)) cancel ∧
      run tsc clock cmds warmup = .ok (.ok {
        limit
        cancel
        opsPerSec := ((cmds.length - warmup : ℕ) : ν) /
          (clock.toNs (tsc 1 - tsc 0) / ((10 ^ 9 : ℕ) : ν))
        perOpMeanNs := clock.toNs (total ((List.range (cmds.length - warmup)).map (elapsed tsc))) /
          ((cmds.length - warmup : ℕ) : ν)
        trades := made ((repliesTo (.new kBookCapacity.toNat) cmds).drop warmup) }) := by
  have hfew : ∀ kind, (ticksFrom tsc kind 0 (cmds.drop warmup)).length * 10000 + 9999 < 2 ^ 64 := by
    intro kind
    have hle := length_ticksFrom_le tsc kind 0 (cmds.drop warmup)
    rw [List.length_drop] at hle
    have hle' := Nat.mul_le_mul_right 10000 (hle.trans (Nat.sub_le _ _))
    exact (Nat.add_le_add_right hle' 9999).trans_lt hlen
  have hmeasured := toNat_measured hwarmup (by omega)
  obtain ⟨b, hwarm, hrep, hok⟩ := warmUp_spec (Book.represents_new kBookCapacity)
    (PriorityBook.ok_new _) warmup hwarmup
  obtain ⟨b₁, hwhole⟩ := applyAll_spec (cmds.drop warmup) _ b 0 hrep hok
  obtain ⟨b₂, hsamples⟩ := measureAll_spec tsc (cmds.drop warmup) 0 _ b {} hrep hok
  generalize htrades : repliesTo (bookAfter (.new kBookCapacity.toNat) (cmds.take warmup))
    (cmds.drop warmup) = replies at hwhole hsamples
  have hreplies : (repliesTo (.new kBookCapacity.toNat) cmds).drop warmup = replies := by
    have hsplit := Run.run_append (PriorityBook.exec counter32)
      ((cmds.take warmup).map Cmd.toCommand) ((cmds.drop warmup).map Cmd.toCommand)
      (.new kBookCapacity.toNat)
    have hfront := Run.length_run (PriorityBook.exec counter32)
      ((cmds.take warmup).map Cmd.toCommand) (.new kBookCapacity.toNat)
    rw [List.length_map, List.length_take_of_le hwarmup] at hfront
    rw [← List.map_append, List.take_append_drop] at hsplit
    rw [repliesTo, hsplit]
    exact (List.drop_left' hfront).trans htrades
  have hdrop : (cmds.drop warmup).length = cmds.length - warmup := List.length_drop
  obtain ⟨sorted, limit, hlimit, hlatencies⟩ := statsFrom_spec clock (hfew .limit)
  obtain ⟨sorted', cancel, hcancel, hlatencies'⟩ := statsFrom_spec clock (hfew .cancel)
  have htotal := total_ticksFrom tsc (cmds.drop warmup) 0
  rw [hdrop, ← List.range_eq_range'] at htotal
  refine ⟨limit, cancel, hlatencies, hlatencies', ?_⟩
  rw [hreplies]
  unfold run
  dsimp only
  rw [hwarm, ok_bind, hwhole, ok_bind]
  dsimp only
  rw [ok_bind]
  dsimp only at hsamples
  rw [hsamples, ok_bind]
  dsimp only
  rw [if_neg (not_not.mpr rfl), List.nil_append, List.nil_append, hlimit, ok_bind]
  dsimp only
  rw [hcancel, ok_bind]
  dsimp only
  rw [foldl_add, foldl_add, UInt64.zero_add, UInt64.zero_add, htotal, hmeasured]
  rfl

/-- **A run of the benchmark reports what happened**, whatever the counter shows. It does not
abort: the trades are those of an untimed replay, as many samples are taken as were counted
beforehand, the statistics are those of the commands of the kind, and the means are over all
measured commands. -/
theorem run_reports (tsc : ℕ → UInt64) (clock : TscClock ν) (cmds : List Cmd) (warmup : ℕ)
    (hwarmup : warmup ≤ cmds.length) (hlen : cmds.length * 10000 + 9999 < 2 ^ 64) :
    ∃ b replies r, Run.runM apply (Book.new kBookCapacity) cmds = .ok (b, replies) ∧
      run tsc clock cmds warmup = .ok (.ok r) ∧
      r.trades = UInt64.ofNat ((replies.drop warmup).flatMap Reply.trades).length ∧
      (∃ limitTicks cancelTicks,
        limitTicks = ticksFrom tsc .limit 0 (cmds.drop warmup) ∧
        cancelTicks = ticksFrom tsc .cancel 0 (cmds.drop warmup) ∧
        countKinds cmds warmup = ⟨limitTicks.length, cancelTicks.length⟩ ∧
        Latencies clock limitTicks r.limit ∧ Latencies clock cancelTicks r.cancel) ∧
      r.opsPerSec = ((cmds.length - warmup : ℕ) : ν) /
        (clock.toNs (tsc 1 - tsc 0) / ((10 ^ 9 : ℕ) : ν)) ∧
      r.perOpMeanNs = clock.toNs (total ((List.range (cmds.length - warmup)).map (elapsed tsc))) /
        ((cmds.length - warmup : ℕ) : ν) := by
  obtain ⟨b, hreplay, -⟩ := Book.run_spec kBookCapacity (cmds.map Cmd.toCommand)
  obtain ⟨limit, cancel, hlimit, hcancel, hrun⟩ := run_spec tsc clock cmds warmup hwarmup hlen
  rw [← runM_apply] at hreplay
  have hcount := foldl_count tsc (cmds.drop warmup) 0 {}
  rw [Nat.zero_add, Nat.zero_add] at hcount
  exact ⟨b, _, _, hreplay, hrun, rfl, ⟨_, _, rfl, rfl, hcount, hlimit, hcancel⟩, rfl, rfl⟩

end

/-- A sell, a buy that trades with it and a cancel, the first of them to warm up. -/
theorem run_reports_three :
    ∃ b replies r, Run.runM apply (Book.new kBookCapacity)
          [{ side := .sell, id := 1, price := 7, qty := 5, account := 1 },
            { id := 2, price := 7, qty := 3, account := 2 }, { kind := .cancel, id := 1 }] =
        .ok (b, replies) ∧
      run (fun k => UInt64.ofNat (k * k)) (⟨2⟩ : TscClock Rat)
          [{ side := .sell, id := 1, price := 7, qty := 5, account := 1 },
            { id := 2, price := 7, qty := 3, account := 2 }, { kind := .cancel, id := 1 }] 1 =
        .ok (.ok r) ∧
      r.trades = UInt64.ofNat ((replies.drop 1).flatMap Reply.trades).length := by
  obtain ⟨b, replies, r, hreplay, hrun, htrades, -⟩ :=
    run_reports (fun k => UInt64.ofNat (k * k)) (⟨2⟩ : TscClock Rat)
      [{ side := .sell, id := 1, price := 7, qty := 5, account := 1 },
        { id := 2, price := 7, qty := 3, account := 2 }, { kind := .cancel, id := 1 }] 1 (by decide)
      (by decide)
  exact ⟨b, replies, r, hreplay, hrun, htrades⟩

end Bench

end MatchingEngine
