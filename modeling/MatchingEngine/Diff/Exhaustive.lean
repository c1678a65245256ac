import MatchingEngine.Diff.Fuzz
import MatchingEngine.Library.Words

/-!
# The exhaustive test

`tests/fuzz/exhaustive_diff.cpp`: a depth-first walk over all sequences of operations up to a
depth, each step of which is run through the harness and checked.

From any pair of an engine and an oracle, the walk returns true exactly if no sequence reports
anything (`dfs_iff`), so a divergence within the depth cannot be missed. From a fresh pair it
visits every sequence once and reports nothing (`exhaustive_reports_nothing`).
-/

namespace MatchingEngine

namespace Diff

open Replay (Text Piece format)
open Words

/-! ## The alphabets -/

/-- `Sym`: an operation of the alphabet, without its account and, for most orders, its id. -/
structure Sym where
  kind : Kind
  side : Side
  price : Price
  qty : Qty
  tif : TimeInForce
  target : OrderId
deriving DecidableEq

/-- The prices the alphabets use. -/
def kPrices : List Price := [10, 11, 12]

/-- An order carries `reuseId` if it is not 0, and a fresh id otherwise. -/
def Sym.limit (side : Side) (px : Price) (qty : Qty) (tif : TimeInForce)
    (reuseId : OrderId := 0) : Sym := ⟨.limit, side, px, qty, tif, reuseId⟩

/-- A market order. -/
def Sym.market (side : Side) (qty : Qty) : Sym := ⟨.market, side, 0, qty, .ioc, 0⟩

/-- A cancel of a fixed id. -/
def Sym.cancel (id : OrderId) : Sym := ⟨.cancel, .buy, 0, 0, .gtc, id⟩

/-- A modify of a fixed id. -/
def Sym.modify (id : OrderId) (px : Price) (qty : Qty) : Sym := ⟨.modify, .buy, px, qty, .gtc, id⟩

/-- `add_gtc`: limit orders on both sides, at every price, of two sizes. -/
def addGtc (a : List Sym) : List Sym :=
  a ++ [Side.buy, .sell].flatMap fun side => kPrices.flatMap fun px =>
    [1, 2].map fun q => Sym.limit side px q .gtc

/-- `add_cancels`. -/
def addCancels (a : List Sym) (ids : List OrderId) : List Sym := a ++ ids.map Sym.cancel

/-- `add_modifies`: to every price, to a smaller and to a larger size. -/
def addModifies (a : List Sym) (ids : List OrderId) : List Sym :=
  a ++ ids.flatMap fun id => kPrices.flatMap fun px => [1, 3].map fun q => Sym.modify id px q

/-- The alphabet of the pass named "structure". -/
def structureAlphabet : List Sym := addModifies (addCancels (addGtc []) [1, 2]) [1]

/-- The alphabet of the pass named "full": other times in force, market orders and a reused id as
well. -/
def fullAlphabet : List Sym :=
  let a := addGtc [] ++ [Side.buy, .sell].flatMap fun side =>
    (kPrices.flatMap fun px => [Sym.limit side px 2 .ioc, Sym.limit side px 2 .fok]) ++
      [Sym.market side 2, Sym.limit side 11 1 .gtc 1]
  addModifies (addCancels a [1, 2]) [1, 2]

/-- The alphabet of the pass named "capacity", which fills a pool of two. -/
def capacityAlphabet : List Sym := addGtc []

/-- `make_op`: the operation of a symbol at a step, which is counted from 0. -/
def makeOp (s : Sym) (step : UInt32) : Op where
  kind := s.kind
  side := s.side
  price := s.price
  qty := s.qty
  tif := s.tif
  id := if (s.kind = .limit ∨ s.kind = .market) ∧ s.target = 0 then (step + 1).toUInt64
    else s.target
  account := step % 2

/-! ## The walk -/

/-- What the walk counts: operations applied, and events seen. -/
structure Totals where
  nodes : UInt64 := 0
  seen : Stats := {}

/-- `accumulate`: add what one operation did. Operations and invalid orders are not counted. -/
def accumulate (before after t : Stats) : Stats :=
  { t with
    trades := t.trades + (after.trades - before.trades)
    stp := t.stp + (after.stp - before.stp)
    fokRejected := t.fokRejected + (after.fokRejected - before.fokRejected)
    poolExhausted := t.poolExhausted + (after.poolExhausted - before.poolExhausted)
    modifyOk := t.modifyOk + (after.modifyOk - before.modifyOk)
    cancelOk := t.cancelOk + (after.cancelOk - before.cancelOk)
    modifyCrossingRejected :=
      t.modifyCrossingRejected + (after.modifyCrossingRejected - before.modifyCrossingRejected) }

/-- What `dfs` prints on a divergence. -/
def dfsReport (pass : String) (step : UInt32) (err : Text) (trail : List Op) : Text :=
  format [.text "DIVERGENCE in pass '", .text pass, .text "' at step ", .unsigned step.toNat,
    .text "\n  "] ++ err ++ format [newline] ++
    (trail.zipIdx.map fun (op, i) =>
      format [.text "  op ", .unsigned i, .text ": "] ++ describe op ++ format [newline]).flatten

/-- The variables that `dfs` is given by reference. -/
structure Walk where
  trail : List Op := []
  totals : Totals := {}

section

variable (inactive : Index → Order) (pass : String)

/-- An operation, and the check of the state if it reports nothing. -/
def tryOp (state : Pair) (op : Op) : Checked (Pair × Text) := do
  let (next, err) ← state.apply op
  if err.isEmpty then return (next, ← next.checkState inactive)
  else return (next, err)

/-- The loop of `dfs` over the alphabet, where `descend` is the call for the next step. A report
stands for the return of false. -/
def dfsLoop (descend : Pair → Walk → Checked (Except Text Walk)) (state : Pair) (step : UInt32) :
    List Sym → Walk → Checked (Except Text Walk)
  | [], w => return .ok w
  | s :: rest, w => do
    let op := makeOp s step
    let trail := w.trail ++ [op]
    let (next, err) ← tryOp inactive state op
    if !err.isEmpty then return .error (dfsReport pass step err trail)
    let totals : Totals :=
      { nodes := w.totals.nodes + 1, seen := accumulate state.stats next.stats w.totals.seen }
    match ← descend next { trail, totals } with
    | .error report => return .error report
    | .ok w => dfsLoop descend state step rest { w with trail := w.trail.dropLast }

/-- `dfs`, with a bound on the depth of the recursion. -/
def dfs (depth : UInt32) (alphabet : List Sym) :
    ℕ → Pair → UInt32 → Walk → Checked (Except Text Walk)
  | 0, _, _, _ => throw .diverges
  | fuel + 1, state, step, w =>
    if step = depth then return .ok w
    else dfsLoop inactive pass (fun next w => dfs depth alphabet fuel next (step + 1) w) state step
      alphabet w

/-! ## The passes -/

/-- Paths that a pass must exercise. -/
structure Required where
  stp : Bool := false
  fokRejection : Bool := false
  modify : Bool := false

/-- The test for a vacuous pass. -/
def vacuousPass (depth : UInt32) (capacity : Index) (need : Required) (s : Stats) : Bool :=
  depth ≥ 3 && (s.trades = 0 || need.stp && s.stp = 0 || need.fokRejection && s.fokRejected = 0 ||
    need.modify && (s.modifyOk = 0 || s.modifyCrossingRejected = 0) ||
    depth > capacity && s.poolExhausted = 0)

/-- The line of a pass. The name stands at the left of a field of 9 characters. -/
def passLine (alphabet : List Sym) (depth : UInt32) (capacity : Index) (t : Totals) : Text :=
  format [.text (pass.pushn ' ' (9 - pass.length)), .text " alphabet=", .unsigned alphabet.length,
    .text " depth=", .unsigned depth.toNat, .text " capacity=", .unsigned capacity.toNat,
    .text " nodes=", .unsigned t.nodes.toNat, .text " | trades=", .unsigned t.seen.trades.toNat,
    .text " stp=", .unsigned t.seen.stp.toNat, .text " fok_rejected=",
    .unsigned t.seen.fokRejected.toNat, .text " pool_exhausted=",
    .unsigned t.seen.poolExhausted.toNat, .text " modify_ok=", .unsigned t.seen.modifyOk.toNat,
    .text " cancel_ok=", .unsigned t.seen.cancelOk.toNat, .text " modify_crossing_rejected=",
    .unsigned t.seen.modifyCrossingRejected.toNat, newline]

/-- `run_pass`: what it prints, and whether it returned true. -/
def runPass (alphabet : List Sym) (depth : UInt32) (capacity : Index) (need : Required) :
    Checked (Exit × Bool) := do
  match ← dfs inactive pass depth alphabet (depth.toNat + 1) (Pair.new capacity) 0 {} with
  | .error report => return ({ code := 1, err := report }, false)
  | .ok w =>
    let out := passLine pass alphabet depth capacity w.totals
    if vacuousPass depth capacity need w.totals.seen then
      return ({ code := 1, out, err := format [.text "pass '", .text pass,
        .text "': a required path was never exercised", newline] }, false)
    else return ({ code := 0, out }, true)

end

/-- `main`, after its arguments are read. -/
def exhaustiveMain (inactive : Index → Order) (depthStructure depthFull depthCapacity : UInt32) :
    Checked Exit := do
  let (e₁, ok) ← runPass inactive "structure" structureAlphabet depthStructure 8
    { stp := true, modify := true }
  if !ok then return e₁
  let (e₂, ok) ← runPass inactive "full" fullAlphabet depthFull 3
    { stp := true, fokRejection := true, modify := true }
  if !ok then return { e₂ with out := e₁.out ++ e₂.out }
  let (e₃, ok) ← runPass inactive "capacity" capacityAlphabet depthCapacity 2 {}
  if !ok then return { e₃ with out := e₁.out ++ e₂.out ++ e₃.out }
  return { e₃ with
    out := e₁.out ++ e₂.out ++ e₃.out ++ format [.text "exhaustive_diff ok", newline] }

/-! ## The walk decides -/

variable {inactive : Index → Order} {pass : String} {depth step : UInt32} {alphabet : List Sym}
  {p next : Pair} {w w' : Walk} {n : ℕ} {word : List Sym} {op : Op}

/-- The operations of the symbols of a word, from a step on. -/
def makeOps : UInt32 → List Sym → List Op
  | _, [] => []
  | step, s :: word => makeOp s step :: makeOps (step + 1) word

/-- A run of the harness that reports nothing. -/
def Clean (inactive : Index → Order) (p : Pair) (ops : List Op) : Prop :=
  ∃ p', Run.runM (Pair.step inactive) p ops = .ok (p', ops.map fun _ => ([], []))

/-- A step of the walk goes on exactly if the harness reports nothing. -/
theorem tryOp_iff : tryOp inactive p op = .ok (next, []) ↔
    p.step inactive op = .ok (next, [], []) := by
  unfold tryOp Pair.step
  constructor
  · intro h
    obtain ⟨⟨p₁, err⟩, happly, h⟩ := bind_eq_ok.mp h
    cases err with
    | nil =>
      obtain ⟨violation, hcheck, h⟩ := bind_eq_ok.mp h
      obtain ⟨rfl, rfl⟩ := Prod.mk.inj (Except.ok.inj h)
      rw [happly, ok_bind]
      dsimp only
      rw [hcheck]
      rfl
    | cons ch err => cases h
  · intro h
    obtain ⟨⟨p₁, err⟩, happly, h⟩ := bind_eq_ok.mp h
    obtain ⟨violation, hcheck, h⟩ := bind_eq_ok.mp h
    obtain ⟨rfl, hreports⟩ := Prod.mk.inj (Except.ok.inj h)
    obtain ⟨rfl, rfl⟩ := Prod.mk.inj hreports
    rw [happly, ok_bind]
    dsimp only
    rw [List.isEmpty_nil, if_pos rfl, hcheck]
    rfl

theorem clean_nil (inactive : Index → Order) (p : Pair) : Clean inactive p [] := ⟨p, rfl⟩

/-- A word is clean if its first operation is and the rest is clean after it. -/
theorem clean_cons {ops : List Op} : Clean inactive p (op :: ops) ↔
    ∃ next, tryOp inactive p op = .ok (next, []) ∧ Clean inactive next ops := by
  constructor
  · rintro ⟨p', h⟩
    rw [Run.runM] at h
    obtain ⟨⟨next, o⟩, hstep, h⟩ := bind_eq_ok.mp h
    obtain ⟨⟨p₂, os⟩, hrun, h⟩ := bind_eq_ok.mp h
    obtain ⟨rfl, hos⟩ := Prod.mk.inj (Except.ok.inj h)
    obtain ⟨rfl, rfl⟩ := List.cons.inj hos
    exact ⟨next, tryOp_iff.mpr hstep, p₂, hrun⟩
  · rintro ⟨next, hstep, p', hrun⟩
    exact ⟨p', Run.runM_cons (tryOp_iff.mp hstep) hrun⟩

/-- The loop returns true if every symbol reports nothing, and what is below it returns true. -/
theorem dfsLoop_iff {descend : Pair → Walk → Checked (Except Text Walk)} {Q : Pair → Prop}
    (hdescend : ∀ next w, (∃ w', descend next w = .ok (.ok w')) ↔ Q next) :
    ∀ (rest : List Sym) (w : Walk),
      (∃ w', dfsLoop inactive pass descend p step rest w = .ok (.ok w')) ↔
        ∀ s ∈ rest, ∃ next, tryOp inactive p (makeOp s step) = .ok (next, []) ∧ Q next := by
  intro rest
  induction rest with
  | nil => exact fun w => ⟨fun _ s hs => absurd hs List.not_mem_nil, fun _ => ⟨w, rfl⟩⟩
  | cons s rest ih =>
    intro w
    rw [List.forall_mem_cons]
    constructor
    · rintro ⟨w', h⟩
      rw [dfsLoop] at h
      obtain ⟨⟨next, err⟩, htry, h⟩ := bind_eq_ok.mp h
      cases err with
      | cons ch err => cases h
      | nil =>
        obtain ⟨r, hbelow, h⟩ := bind_eq_ok.mp h
        cases r with
        | error report => cases h
        | ok w₁ => exact ⟨⟨next, htry, (hdescend next _).mp ⟨w₁, hbelow⟩⟩, (ih _).mp ⟨w', h⟩⟩
    · rintro ⟨⟨next, htry, hq⟩, hrest⟩
      obtain ⟨w₁, hbelow⟩ := (hdescend next ⟨w.trail ++ [makeOp s step],
        ⟨w.totals.nodes + 1, accumulate p.stats next.stats w.totals.seen⟩⟩).mpr hq
      obtain ⟨w', hloop⟩ := (ih { w₁ with trail := w₁.trail.dropLast }).mpr hrest
      refine ⟨w', ?_⟩
      rw [dfsLoop, htry, ok_bind]
      dsimp only
      rw [if_neg (by decide), hbelow]
      exact hloop

/-- With `n` steps to go, the walk returns true exactly if no word of at most `n` symbols
reports anything. -/
theorem dfs_iff_words : ∀ (n : ℕ) (p : Pair) (step : UInt32) (w : Walk),
    step.toNat + n = depth.toNat →
      ((∃ w', dfs inactive pass depth alphabet (n + 1) p step w = .ok (.ok w')) ↔
        ∀ word ∈ words alphabet n, Clean inactive p (makeOps step word)) := by
  intro n
  induction n with
  | zero =>
    intro p step w hn
    have hlast : step = depth := UInt32.toNat_inj.mp hn
    rw [dfs, if_pos hlast]
    exact ⟨fun _ word hword => absurd hword List.not_mem_nil, fun _ => ⟨w, rfl⟩⟩
  | succ n ih =>
    intro p step w hn
    have hlt := depth.toNat_lt
    have hlast : ¬ step = depth := by
      rintro rfl
      omega
    have hsucc : (step + 1).toNat = step.toNat + 1 := by
      rw [UInt32.toNat_add]
      exact Nat.mod_eq_of_lt (show step.toNat + 1 < 2 ^ 32 by omega)
    rw [dfs, if_neg hlast, forall_words, dfsLoop_iff fun next w => ih next (step + 1) w (by omega)]
    refine forall₂_congr fun s _ => ?_
    constructor
    · rintro ⟨next, htry, hbelow⟩
      refine ⟨clean_cons.mpr ⟨next, htry, clean_nil _ _⟩, fun word hword => ?_⟩
      exact clean_cons.mpr ⟨next, htry, hbelow word hword⟩
    · rintro ⟨hone, hmore⟩
      obtain ⟨next, htry, -⟩ := clean_cons.mp hone
      refine ⟨next, htry, fun word hword => ?_⟩
      obtain ⟨next', htry', hclean⟩ := clean_cons.mp (hmore word hword)
      rw [htry, Except.ok.injEq, Prod.mk.injEq] at htry'
      rw [htry'.1]
      exact hclean

/-- **A divergence within the depth cannot be missed**: from any pair of an engine and an oracle,
whatever state they are in, the walk returns true exactly if no sequence of operations up to the
depth runs into a fault or makes the harness report something. -/
theorem dfs_iff (inactive : Index → Order) (pass : String) (depth : UInt32) (alphabet : List Sym)
    (p : Pair) (w : Walk) :
    (∃ w', dfs inactive pass depth alphabet (depth.toNat + 1) p 0 w = .ok (.ok w')) ↔
      ∀ word : List Sym, word.length ≤ depth.toNat → (∀ s ∈ word, s ∈ alphabet) →
        Clean inactive p (makeOps 0 word) := by
  rw [dfs_iff_words depth.toNat p 0 w (Nat.zero_add _)]
  constructor
  · intro h word hlen hletters
    by_cases hnil : word = []
    · rw [hnil]
      exact clean_nil inactive p
    · exact h word (mem_words.mpr ⟨hnil, hlen, hletters⟩)
  · intro h word hword
    obtain ⟨-, hlen, hletters⟩ := mem_words.mp hword
    exact h word hlen hletters

/-! ## What the walk counts -/

/-- What `accumulate` takes from the events of a command. -/
def gain (s : PriorityBook) (c : Command) : Stats :=
  { eventsOf s c with ops := 0, invalidRejected := 0 }

/-- What the last of some commands gains. -/
def lastGain : PriorityBook → List Command → Stats
  | _, [] => {}
  | s, [c] => gain s c
  | s, c :: cmds => lastGain (s.exec counter64 c).1 cmds

/-- The counts of a list of walks, added up. -/
def Stats.sum (l : List Stats) : Stats := l.foldr Stats.add {}

/-- Counts of two lists add up. -/
theorem Stats.sum_append (l l' : List Stats) : sum (l ++ l') = (sum l).add (sum l') := by
  induction l with
  | nil => exact (Stats.zero_add _).symm
  | cons a l ih =>
    show a.add (sum (l ++ l')) = (a.add (sum l)).add (sum l')
    rw [ih, Stats.add_assoc]

theorem accumulate_add (before e t : Stats) :
    accumulate before (before.add e) t = t.add { e with ops := 0, invalidRejected := 0 } := by
  have hsub : ∀ a b : UInt64, a + b - a = b := fun a b => by
    rw [UInt64.add_comm, UInt64.add_sub_cancel]
  simp only [accumulate, Stats.add, hsub, UInt64.add_zero]

/-- The last command of a word that is not empty is that of its tail. -/
theorem lastGain_cons {s : PriorityBook} {c : Command} {cmds : List Command} (h : cmds ≠ []) :
    lastGain s (c :: cmds) = lastGain (s.exec counter64 c).1 cmds := by
  cases cmds with
  | nil => exact absurd rfl h
  | cons c' cmds => rfl

/-- The gains of the words from a step on. -/
def gains (s : PriorityBook) (step : UInt32) (l : List (List Sym)) : List Stats :=
  l.map fun word => lastGain s ((makeOps step word).map toCommand)

/-- The words of length `n + 1` gain, letter by letter, what the letter gains and what its
continuations do. -/
theorem gains_words (s : PriorityBook) (step : UInt32) (n : ℕ) (rest : List Sym) :
    gains s step (rest.flatMap fun a => [a] :: (words alphabet n).map (List.cons a)) =
      rest.flatMap fun a => gain s (toCommand (makeOp a step)) ::
        gains (s.exec counter64 (toCommand (makeOp a step))).1 (step + 1) (words alphabet n) := by
  unfold gains
  rw [List.map_flatMap]
  refine List.flatMap_congr fun a _ => ?_
  rw [List.map_cons, List.map_map]
  congr 1
  refine List.map_congr_left fun word hword => ?_
  apply lastGain_cons
  -- a word has a first letter
  cases word with
  | nil => exact absurd hword nil_notMem_words
  | cons a' word => exact List.cons_ne_nil _ _

/-- The walk after it has visited some words. -/
def Walk.visit (w : Walk) (visited : ℕ) (l : List Stats) : Walk where
  trail := w.trail
  totals :=
    { nodes := w.totals.nodes + UInt64.ofNat visited, seen := w.totals.seen.add (Stats.sum l) }

theorem Walk.visit_nil (w : Walk) : w.visit 0 [] = w := by
  have hnodes : w.totals.nodes + UInt64.ofNat 0 = w.totals.nodes := UInt64.add_zero _
  unfold Walk.visit
  rw [hnodes, show Stats.sum [] = {} from rfl, Stats.add_zero]

/-- Two visits in a row are one visit. -/
theorem Walk.visit_visit (w : Walk) (m n : ℕ) (l l' : List Stats) :
    (w.visit m l).visit n l' = w.visit (m + n) (l ++ l') := by
  unfold Walk.visit
  dsimp only
  rw [UInt64.ofNat_add, UInt64.add_assoc, Stats.sum_append, Stats.add_assoc]

/-- **The walk from a pair that agrees** returns true, and has visited every word once. -/
theorem dfs_spec (inactive : Index → Order) (pass : String) {m : ℕ}
    (hsmall : ∀ a ∈ alphabet, a.qty.toNat ≤ m) : ∀ (n : ℕ) (p : Pair)
    (s : PriorityBook) (k : ℕ) (step : UInt32) (w : Walk), p.Agrees s k → Within m s →
      s.capacity * m < 2 ^ 32 → k + n < 2 ^ 64 → step.toNat + n = depth.toNat →
        dfs inactive pass depth alphabet (n + 1) p step w =
          .ok (.ok (w.visit (words alphabet n).length (gains s step (words alphabet n)))) := by
  intro n
  induction n with
  | zero =>
    intro p s k step w _ _ _ _ hn
    have hlast : step = depth := UInt32.toNat_inj.mp hn
    rw [dfs, if_pos hlast]
    exact congrArg (fun w => Except.ok (Except.ok w)) w.visit_nil.symm
  | succ n ih =>
    intro p s k step w hagrees hwithin hcap hk hn
    have hlt := depth.toNat_lt
    have hlast : ¬ step = depth := by
      rintro rfl
      omega
    have hsucc : (step + 1).toNat = step.toNat + 1 := by
      rw [UInt32.toNat_add]
      exact Nat.mod_eq_of_lt (show step.toNat + 1 < 2 ^ 32 by omega)
    -- the symbols that are left
    have hloop : ∀ (rest : List Sym) (w : Walk), (∀ a ∈ rest, a ∈ alphabet) →
        dfsLoop inactive pass (fun next w => dfs inactive pass depth alphabet (n + 1) next
          (step + 1) w) p step rest w =
        .ok (.ok (w.visit
          (rest.flatMap fun a => [a] :: (words alphabet n).map (List.cons a)).length
          (gains s step (rest.flatMap fun a => [a] :: (words alphabet n).map (List.cons a))))) := by
      intro rest
      induction rest with
      | nil =>
        intro w _
        exact congrArg (fun w => Except.ok (Except.ok w)) w.visit_nil.symm
      | cons a rest ihr =>
        intro w hrest
        obtain ⟨ha, hrest⟩ := List.forall_mem_cons.mp hrest
        have hqty : (toCommand (makeOp a step)).qty.toNat ≤ m := qty_toCommand_le (hsmall a ha)
        have hfits := hwithin.fits hagrees hcap (makeOp a step)
        have heffect :=
          PriorityBook.exec_effect hagrees.state.ok counter64 (toCommand (makeOp a step))
        obtain ⟨next, hstep, hagrees₁, hstats⟩ :=
          Pair.step_spec hagrees (by omega) hfits inactive
        have hcap₁ : (s.exec counter64 (toCommand (makeOp a step))).1.capacity * m < 2 ^ 32 := by
          rw [heffect.capacity]
          exact hcap
        have hwithin₁ := hwithin.exec hagrees.state.ok counter64 hqty
        -- below the symbol
        have hbelow := ih next _ (k + 1) (step + 1)
          (Walk.visit { w with trail := w.trail ++ [makeOp a step] } 1
            [gain s (toCommand (makeOp a step))]) hagrees₁ hwithin₁ hcap₁ (by omega) (by omega)
        rw [Walk.visit_visit] at hbelow
        have hgain : accumulate p.stats next.stats w.totals.seen =
            w.totals.seen.add (Stats.sum [gain s (toCommand (makeOp a step))]) := by
          rw [hstats, accumulate_add]
          show _ = w.totals.seen.add (Stats.add _ {})
          rw [Stats.add_zero]
          rfl
        have hwalk := ihr (w.visit (1 + (words alphabet n).length)
          ([gain s (toCommand (makeOp a step))] ++ gains (s.exec counter64
            (toCommand (makeOp a step))).1 (step + 1) (words alphabet n))) hrest
        rw [Walk.visit_visit] at hwalk
        rw [dfsLoop, tryOp_iff.mpr hstep, ok_bind]
        dsimp only
        rw [if_neg (by decide), hgain]
        show (dfs inactive pass depth alphabet (n + 1) next (step + 1)
          (Walk.visit { w with trail := w.trail ++ [makeOp a step] } 1
            [gain s (toCommand (makeOp a step))]) >>= _) = _
        rw [hbelow, ok_bind]
        show dfsLoop inactive pass _ p step rest { (w.visit (1 + (words alphabet n).length)
          ([gain s (toCommand (makeOp a step))] ++ gains (s.exec counter64
            (toCommand (makeOp a step))).1 (step + 1) (words alphabet n))) with
          trail := (w.trail ++ [makeOp a step]).dropLast } = _
        rw [List.dropLast_concat]
        refine hwalk.trans ?_
        rw [gains_words, gains_words, List.flatMap_cons, List.flatMap_cons, List.length_append,
          List.length_cons, List.length_map, Nat.add_comm 1]
        rfl
    rw [dfs, if_neg hlast, hloop alphabet w fun _ h => h, ← words_succ]

/-! ## The passes -/

theorem qty_structureAlphabet : ∀ a ∈ structureAlphabet, a.qty.toNat ≤ 3 := by decide

theorem qty_fullAlphabet : ∀ a ∈ fullAlphabet, a.qty.toNat ≤ 3 := by decide

theorem qty_capacityAlphabet : ∀ a ∈ capacityAlphabet, a.qty.toNat ≤ 3 := by decide

/-- What a pass counts: every sequence of operations up to the depth, and what the last
operation of each does to the abstract book. -/
def passTotals (alphabet : List Sym) (depth : UInt32) (capacity : Index) : Totals where
  nodes := UInt64.ofNat (∑ k ∈ Finset.range depth.toNat, alphabet.length ^ (k + 1))
  seen := Stats.sum (gains (.new capacity.toNat) 0 (words alphabet depth.toNat))

/-- What a pass prints if a path that it needs was not exercised. -/
def vacuousText (pass : String) : Text :=
  format [.text "pass '", .text pass, .text "': a required path was never exercised", newline]

/-- **A pass** over small orders reports no divergence. -/
theorem runPass_spec (inactive : Index → Order) (pass : String) {alphabet : List Sym}
    (depth : UInt32) (capacity : Index) (need : Required) {m : ℕ}
    (hsmall : ∀ a ∈ alphabet, a.qty.toNat ≤ m) (hcap : capacity.toNat * m < 2 ^ 32) :
    runPass inactive pass alphabet depth capacity need =
      let line := passLine pass alphabet depth capacity (passTotals alphabet depth capacity)
      if vacuousPass depth capacity need (passTotals alphabet depth capacity).seen then
        .ok (⟨1, line, vacuousText pass⟩, false)
      else .ok (⟨0, line, []⟩, true) := by
  have hlt := depth.toNat_lt
  have hdfs := dfs_spec inactive pass hsmall depth.toNat (Pair.new capacity)
    (.new capacity.toNat) 0 0 {} (Pair.agrees_new capacity) (within_new m capacity.toNat) hcap
    (by omega) (Nat.zero_add _)
  have htotals : (Walk.visit {} (words alphabet depth.toNat).length
      (gains (.new capacity.toNat) 0 (words alphabet depth.toNat))).totals =
        passTotals alphabet depth capacity := by
    unfold Walk.visit passTotals
    dsimp only
    rw [length_words, UInt64.zero_add, Stats.zero_add]
  unfold runPass
  rw [hdfs, ok_bind]
  dsimp only
  rw [htotals]
  rfl

/-- A call of `run_pass`: its arguments. -/
structure Pass where
  name : String
  alphabet : List Sym
  depth : UInt32
  capacity : Index
  need : Required

/-- What the pass's walk counts. -/
def Pass.totals (q : Pass) : Totals := passTotals q.alphabet q.depth q.capacity

/-- What is left to print if the passes report no divergence: a line for each, up to the first
one that is vacuous. -/
def verdict : List Pass → Text → Exit
  | [], out => ⟨0, out ++ format [.text "exhaustive_diff ok", newline], []⟩
  | q :: passes, out =>
    if vacuousPass q.depth q.capacity q.need q.totals.seen then
      ⟨1, out ++ passLine q.name q.alphabet q.depth q.capacity q.totals, vacuousText q.name⟩
    else verdict passes (out ++ passLine q.name q.alphabet q.depth q.capacity q.totals)

/-- A vacuous pass ends the run with code 1. -/
theorem verdict_of_vacuous {q : Pass} {passes : List Pass} {out : Text}
    (h : vacuousPass q.depth q.capacity q.need q.totals.seen = true) :
    verdict (q :: passes) out =
      ⟨1, out ++ passLine q.name q.alphabet q.depth q.capacity q.totals, vacuousText q.name⟩ :=
  if_pos h

/-- A pass that is not vacuous prints its line, and the next one runs. -/
theorem verdict_of_not {q : Pass} {passes : List Pass} {out : Text}
    (h : ¬ vacuousPass q.depth q.capacity q.need q.totals.seen = true) :
    verdict (q :: passes) out =
      verdict passes (out ++ passLine q.name q.alphabet q.depth q.capacity q.totals) := if_neg h

/-- The passes of `main`. -/
def passes (depthStructure depthFull depthCapacity : UInt32) : List Pass :=
  [⟨"structure", structureAlphabet, depthStructure, 8, ⟨true, false, true⟩⟩,
    ⟨"full", fullAlphabet, depthFull, 3, ⟨true, true, true⟩⟩,
    ⟨"capacity", capacityAlphabet, depthCapacity, 2, ⟨false, false, false⟩⟩]

/-- No alphabet has a symbol twice, so no pass meets a sequence twice. -/
theorem nodup_passes (depthStructure depthFull depthCapacity : UInt32) :
    ∀ q ∈ passes depthStructure depthFull depthCapacity,
      (words q.alphabet q.depth.toNat).Nodup := by
  intro q hq
  apply nodup_words
  simp only [passes, List.mem_cons, List.not_mem_nil, or_false] at hq
  rcases hq with rfl | rfl | rfl
  · show structureAlphabet.Nodup
    decide +kernel
  · show fullAlphabet.Nodup
    decide +kernel
  · show capacityAlphabet.Nodup
    decide +kernel

/-- **The exhaustive test never reports a divergence**, for any depths. It visits every sequence
of operations over its alphabets once, and it can only fail because no sequence exercises a path
that a pass needs. -/
theorem exhaustive_reports_nothing (inactive : Index → Order)
    (depthStructure depthFull depthCapacity : UInt32) :
    exhaustiveMain inactive depthStructure depthFull depthCapacity =
        .ok (verdict (passes depthStructure depthFull depthCapacity) []) ∧
      ∀ q ∈ passes depthStructure depthFull depthCapacity,
        (words q.alphabet q.depth.toNat).Nodup ∧
        ∀ word, word ∈ words q.alphabet q.depth.toNat ↔
          word ≠ [] ∧ word.length ≤ q.depth.toNat ∧ ∀ a ∈ word, a ∈ q.alphabet := by
  refine ⟨?_, fun q hq => ⟨nodup_passes _ _ _ q hq, fun _ => mem_words⟩⟩
  have h₁ := runPass_spec inactive "structure" depthStructure 8 ⟨true, false, true⟩
    qty_structureAlphabet (by decide)
  have h₂ := runPass_spec inactive "full" depthFull 3 ⟨true, true, true⟩ qty_fullAlphabet
    (by decide)
  have h₃ := runPass_spec inactive "capacity" depthCapacity 2 ⟨false, false, false⟩
    qty_capacityAlphabet (by decide)
  have hgo : ¬ (!true) = true := by decide
  unfold exhaustiveMain passes
  rw [h₁, h₂, h₃]
  -- a pass is vacuous, or the next one follows
  by_cases hv₁ : vacuousPass depthStructure 8 ⟨true, false, true⟩
      (passTotals structureAlphabet depthStructure 8).seen = true
  · rw [if_pos hv₁, verdict_of_vacuous hv₁, List.nil_append]
    rfl
  rw [if_neg hv₁, verdict_of_not hv₁, List.nil_append, ok_bind]
  dsimp only
  rw [if_neg hgo]
  by_cases hv₂ : vacuousPass depthFull 3 ⟨true, true, true⟩
      (passTotals fullAlphabet depthFull 3).seen = true
  · rw [if_pos hv₂, verdict_of_vacuous hv₂]
    rfl
  rw [if_neg hv₂, verdict_of_not hv₂, ok_bind]
  dsimp only
  rw [if_neg hgo]
  by_cases hv₃ : vacuousPass depthCapacity 2 ⟨false, false, false⟩
      (passTotals capacityAlphabet depthCapacity 2).seen = true
  · rw [if_pos hv₃, verdict_of_vacuous hv₃]
    rfl
  · rw [if_neg hv₃, verdict_of_not hv₃]
    rfl

end Diff

end MatchingEngine
