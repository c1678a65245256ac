import MatchingEngine.Book.FillOrKill
import MatchingEngine.Diff.Pair
import MatchingEngine.Diff.StreamTheorems
import MatchingEngine.Oracle.Differential
import MatchingEngine.Spec.Ledger

/-!
# The harness reports nothing

A report is empty exactly if the two agree (`compareAdd_eq_nil`, `checkState_eq_nil`). Engine
and oracle that hold the orders of one abstract book agree on every operation, and the
counters then count what happens to that book (`apply_spec`, `eventsOf`).
-/

namespace MatchingEngine

namespace Diff

open Replay (Text Piece format)

variable {p p' : Pair} {s : PriorityBook} {n m : ℕ} {op : Op} {c : Command}

/-! ## Reports -/

theorem flag_ne_nil {what : String} (h : what.toList ≠ []) (engine oracle : Bool) :
    flag what engine oracle ≠ [] := by
  intro e
  exact h (List.append_eq_nil_iff.mp e).1

theorem counts_ne_nil {what : String} (h : what.toList ≠ []) (engine oracle : ℕ) :
    counts what engine oracle ≠ [] := by
  intro e
  exact h (List.append_eq_nil_iff.mp e).1

/-- A text that begins with a character is not cut off to nothing. -/
theorem printed_cons_ne_nil {size : ℕ} (hsize : 1 < size) {what : String} (h : what.toList ≠ [])
    (pieces : List Piece) : printed size (.text what :: pieces) ≠ [] := by
  intro e
  rcases List.take_eq_nil_iff.mp e with hzero | hnil
  · omega
  · exact h (List.append_eq_nil_iff.mp hnil).1

/-- The comparison is silent exactly if the lists are equal. -/
theorem compareFrom_eq_nil {α : Type} [DecidableEq α] {name : String} (hname : name.toList ≠ [])
    (pieces : α → List Piece) : ∀ (xs ys : List α) (i : ℕ), xs.length = ys.length →
      (compareFrom name pieces i xs ys = [] ↔ xs = ys) := by
  intro xs
  induction xs with
  | nil =>
    intro ys i hlen
    rw [List.length_eq_zero_iff.mp hlen.symm]
    exact ⟨fun _ => rfl, fun _ => rfl⟩
  | cons x xs ih =>
    intro ys i hlen
    cases ys with
    | nil => cases hlen
    | cons y ys =>
      rw [compareFrom, List.cons.injEq]
      by_cases hxy : x = y
      · rw [if_pos hxy, ih ys (i + 1) (Nat.succ.inj hlen)]
        exact ⟨fun h => ⟨hxy, h⟩, fun h => h.2⟩
      · rw [if_neg hxy]
        refine ⟨fun h => absurd h ?_, fun h => absurd h.1 hxy⟩
        exact printed_cons_ne_nil (by decide) hname _

/-- No report about trades, exactly if the trades are equal. -/
theorem compareTrades_eq_nil {xs ys : List Trade} (hlen : xs.length = ys.length) :
    compareTrades xs ys = [] ↔ xs = ys := compareFrom_eq_nil (by decide) tradePieces xs ys 0 hlen

/-- No report about orders, exactly if the orders are equal. -/
theorem compareOrders_eq_nil {xs ys : List RestingOrder} (hlen : xs.length = ys.length) :
    compareOrders xs ys = [] ↔ xs = ys := compareFrom_eq_nil (by decide) orderPieces xs ys 0 hlen

/-- **No difference between two results goes unreported**, and nothing else is reported. -/
theorem compareAdd_eq_nil (a b : AddResult) : compareAdd a b = [] ↔ a = b := by
  constructor
  · intro h
    unfold compareAdd at h
    split_ifs at h with h₁ h₂ h₃ h₄ h₅
    · exact absurd h (flag_ne_nil (by decide) _ _)
    · exact absurd h (flag_ne_nil (by decide) _ _)
    · exact absurd h (flag_ne_nil (by decide) _ _)
    · exact absurd h (counts_ne_nil (by decide) _ _)
    · exact absurd h (counts_ne_nil (by decide) _ _)
    · have htrades := (compareTrades_eq_nil (not_not.mp h₅)).mp h
      cases a
      cases b
      rw [AddResult.mk.injEq]
      exact ⟨not_not.mp h₁, htrades, not_not.mp h₄, not_not.mp h₂, not_not.mp h₃⟩
  · rintro rfl
    unfold compareAdd
    rw [if_neg (not_not.mpr rfl), if_neg (not_not.mpr rfl), if_neg (not_not.mpr rfl),
      if_neg (not_not.mpr rfl), if_neg (not_not.mpr rfl)]
    exact (compareTrades_eq_nil rfl).mpr rfl

/-- **The check of the state reports nothing** exactly if the book has its structure and shows
what the oracle shows. -/
theorem checkState_eq_nil (inactive : Index → Order) (p : Pair) :
    p.checkState inactive = .ok [] ↔
      p.book.invariantViolation inactive = .ok none ∧ p.book.snapshot = .ok p.ref.snapshot := by
  unfold Pair.checkState
  constructor
  · intro h
    obtain ⟨v, hv, h⟩ := bind_eq_ok.mp h
    cases v with
    | some v =>
      have h : format [.text "invariant: ", .text v] = [] := Except.ok.inj h
      exact absurd (List.append_eq_nil_iff.mp h).1 (by decide)
    | none =>
      obtain ⟨a, ha, h⟩ := bind_eq_ok.mp h
      dsimp only at h
      by_cases hlen : a.length = p.ref.snapshot.length
      · rw [if_neg (not_not.mpr hlen)] at h
        rw [ha, (compareOrders_eq_nil hlen).mp (Except.ok.inj h)]
        exact ⟨hv, rfl⟩
      · rw [if_pos hlen] at h
        exact absurd (Except.ok.inj h) (counts_ne_nil (by decide) _ _)
  · rintro ⟨hv, hsnap⟩
    rw [hv, ok_bind]
    dsimp only
    rw [hsnap, ok_bind, if_neg (not_not.mpr rfl), (compareOrders_eq_nil rfl).mpr rfl]
    rfl

/-! ## What the counters count -/

/-- What a command does to the counters, told from the abstract book before it. -/
def eventsOf (s : PriorityBook) (c : Command) : Stats :=
  match c.kind with
  | .limit | .market =>
    if c.qty = 0 ∨ c.id ∈ s.ids then { ops := 1, invalidRejected := 1 }
    else if c.kind = .limit ∧ c.tif = .fok ∧
        s.available c.side (some c.price) c.account < c.qty.toNat then
      { ops := 1, fokRejected := 1 }
    else
      { ops := 1
        trades := UInt64.ofNat (s.sweepOf c).taken.length
        stp := bump (s.sweepOf c).stopped
        poolExhausted := bump (c.kind = .limit ∧ c.tif = .gtc ∧ (s.sweepOf c).stopped = false ∧
          0 < (s.sweepOf c).unmet ∧ s.capacity ≤ (s.swept c).orders.length) }
  | .cancel => { ops := 1, cancelOk := bump (c.id ∈ s.ids) }
  | .modify =>
    if c.qty = 0 then { ops := 1 }
    else
      match s.find c.id with
      | none => { ops := 1 }
      | some o =>
        if (c.price = o.price ∧ c.qty ≤ o.qty) ∨ s.wouldTrade o.side c.price = false then
          { ops := 1, modifyOk := 1 }
        else { ops := 1, modifyCrossingRejected := 1 }

/-- What the commands of a run do to the counters. -/
def eventsAlong : PriorityBook → List Command → Stats
  | _, [] => {}
  | s, c :: cmds => (eventsOf s c).add (eventsAlong (s.exec counter64 c).1 cmds)

/-- A fill-or-kill order that is let through trades. -/
theorem trades_of_available (hok : s.Ok) (hqty : c.qty ≠ 0)
    (hle : c.qty.toNat ≤ s.available c.side c.limit c.account) : s.tradesOfSweep c ≠ [] := by
  have hpos : 0 < c.qty.toNat := Nat.pos_of_ne_zero fun e => hqty (UInt32.toNat_inj.mp e)
  obtain ⟨-, -, hvolume⟩ := Book.sweep_of_available hok hle c.id s.nextSeq s.nextTradeId
  intro hnil
  have hnil : tradesOf c.id s.nextSeq s.nextTradeId
      (s.sweep c.side c.limit c.account c.qty.toNat).taken = [] := hnil
  rw [hnil] at hvolume
  have hzero : volume [] = 0 := rfl
  omega

/-- `eventsOf` of a command that adds an order. -/
theorem eventsOf_add (s : PriorityBook) (hadds : c.Adds) :
    eventsOf s c =
      if c.qty = 0 ∨ c.id ∈ s.ids then { ops := 1, invalidRejected := 1 }
      else if c.kind = .limit ∧ c.tif = .fok ∧
          s.available c.side (some c.price) c.account < c.qty.toNat then
        { ops := 1, fokRejected := 1 }
      else
        { ops := 1
          trades := UInt64.ofNat (s.sweepOf c).taken.length
          stp := bump (s.sweepOf c).stopped
          poolExhausted := bump (c.kind = .limit ∧ c.tif = .gtc ∧ (s.sweepOf c).stopped = false ∧
            0 < (s.sweepOf c).unmet ∧ s.capacity ≤ (s.swept c).orders.length) } := by
  unfold eventsOf
  split
  · rfl
  · rfl
  · next hkind => rcases hadds with h | h <;> rw [h] at hkind <;> cases hkind
  · next hkind => rcases hadds with h | h <;> rw [h] at hkind <;> cases hkind

/-- The counters after a limit order, whose fill-or-kill total fits in 32 bits. -/
theorem counts_limit (hok : s.Ok) (stats : Stats) (hkind : c.kind = .limit)
    (hop : (op.tif == .fok && op.kind == .limit) = (c.tif == .fok))
    (hfits : c.tif = .fok → s.available c.side (some c.price) c.account < 2 ^ 32) :
    ({ stats with ops := stats.ops + 1 } : Stats).countAdd op
      (s.addLimit counter64 c.id c.side c.price c.qty c.account c.tif).2 =
        stats.add (eventsOf s c) := by
  have hlimit : c.limit = some c.price := by
    unfold Command.limit
    rw [hkind]
  have hsweep : s.sweep c.side (some c.price) c.account c.qty.toNat = s.sweepOf c := by
    rw [PriorityBook.sweepOf, hlimit]
  rw [eventsOf_add s (Or.inl hkind)]
  unfold PriorityBook.addLimit
  by_cases hbad : c.qty = 0 ∨ c.id ∈ s.ids
  · rw [if_pos hbad, if_pos hbad]
    simp [Stats.countAdd, Stats.add, bump]
  rw [if_neg hbad, if_neg hbad]
  rw [not_or] at hbad
  have htrades : (tradesOf c.id s.nextSeq s.nextTradeId (s.sweepOf c).taken).length =
      (s.sweepOf c).taken.length := length_tradesOf
  rw [hsweep]
  by_cases hfok : c.tif = .fok
  · have hgate : counter64 (s.available c.side (some c.price) c.account) =
        s.available c.side (some c.price) c.account :=
      Nat.mod_eq_of_lt ((hfits hfok).trans (by decide))
    have hgtc : c.tif ≠ .gtc := by
      rw [hfok]
      decide
    rw [hgate]
    by_cases hlt : s.available c.side (some c.price) c.account < c.qty.toNat
    · rw [if_pos ⟨hfok, hlt⟩, if_pos ⟨hkind, hfok, hlt⟩]
      unfold Stats.countAdd
      rw [hop]
      simp [Stats.add, bump, hfok]
    · -- one that is let through trades, and is not counted
      have hsome : (tradesOf c.id s.nextSeq s.nextTradeId (s.sweepOf c).taken).isEmpty = false := by
        rw [List.isEmpty_eq_false_iff]
        refine trades_of_available hok hbad.1 ?_
        rw [hlimit]
        exact not_lt.mp hlt
      have hkept : ¬ (c.tif = .fok ∧ s.available c.side (some c.price) c.account < c.qty.toNat) :=
        fun h => hlt h.2
      have hnone : ¬ (c.tif = .gtc ∧ (s.sweepOf c).stopped = false ∧ 0 < (s.sweepOf c).unmet) :=
        fun h => hgtc h.1
      rw [if_neg hkept, if_neg hnone, if_neg fun h => hkept h.2]
      unfold Stats.countAdd
      rw [hop]
      simp [Stats.add, bump, hgtc, hsome, htrades]
  · have hop : (op.tif == .fok && op.kind == .limit) = false := by
      rw [hop]
      simpa using hfok
    have hkept : ¬ (c.tif = .fok ∧
        counter64 (s.available c.side (some c.price) c.account) < c.qty.toNat) := fun h => hfok h.1
    have hnever : ¬ (c.kind = .limit ∧ c.tif = .fok ∧
        s.available c.side (some c.price) c.account < c.qty.toNat) := fun h => hfok h.2.1
    rw [if_neg hkept, if_neg hnever]
    by_cases hrest : c.tif = .gtc ∧ (s.sweepOf c).stopped = false ∧ 0 < (s.sweepOf c).unmet
    · rw [if_pos hrest]
      unfold PriorityBook.restResidual Stats.countAdd
      rw [hop]
      by_cases hroom : (s.swept c).orders.length < s.capacity
      · have hroom' : (s.tick.afterSweep c.side (s.sweepOf c)).orders.length <
            (s.tick.afterSweep c.side (s.sweepOf c)).capacity := hroom
        rw [if_pos hroom']
        simp [Stats.add, bump, hrest.2.1, htrades, not_le.mpr hroom]
      · have hroom' : ¬ (s.tick.afterSweep c.side (s.sweepOf c)).orders.length <
            (s.tick.afterSweep c.side (s.sweepOf c)).capacity := hroom
        rw [if_neg hroom']
        simp [Stats.add, bump, hrest, hkind, htrades, not_lt.mp hroom]
    · have hnone : ¬ (c.kind = .limit ∧ c.tif = .gtc ∧ (s.sweepOf c).stopped = false ∧
          0 < (s.sweepOf c).unmet ∧ s.capacity ≤ (s.swept c).orders.length) := fun h =>
        hrest ⟨h.2.1, h.2.2.1, h.2.2.2.1⟩
      rw [if_neg hrest, decide_eq_false hnone]
      unfold Stats.countAdd
      rw [hop]
      simp [Stats.add, bump, htrades]

/-- The counters after a market order. -/
theorem counts_market (stats : Stats) (hkind : c.kind = .market) (hop : op.kind = .market) :
    ({ stats with ops := stats.ops + 1 } : Stats).countAdd op
      (s.addMarket c.id c.side c.qty c.account).2 = stats.add (eventsOf s c) := by
  have hsweep : s.sweep c.side none c.account c.qty.toNat = s.sweepOf c := by
    unfold PriorityBook.sweepOf Command.limit
    rw [hkind]
  have hlimit : ¬ c.kind = .limit := by
    rw [hkind]
    decide
  rw [eventsOf_add s (Or.inr hkind)]
  unfold PriorityBook.addMarket Stats.countAdd
  rw [hop]
  by_cases hbad : c.qty = 0 ∨ c.id ∈ s.ids
  · rw [if_pos hbad, if_pos hbad]
    simp [Stats.add, bump]
  · rw [if_neg hbad, if_neg hbad, if_neg fun h => hlimit h.1, hsweep]
    simp [Stats.add, bump, hlimit, length_tradesOf]

/-! ## One operation -/

/-- Engine and oracle hold the orders of the abstract book, after `n` commands. -/
structure Pair.Agrees (p : Pair) (s : PriorityBook) (n : ℕ) : Prop where
  book : p.book.Represents s
  ref : p.ref.Mirrors s
  state : s.At n

/-- A new pair agrees. -/
theorem Pair.agrees_new (capacity : Index) :
    (Pair.new capacity).Agrees (.new capacity.toNat) 0 :=
  ⟨Book.represents_new capacity, Oracle.mirrors_new _, PriorityBook.at_new _⟩

/-- No fill-or-kill order finds more than the counter of the engine can hold. -/
def Pair.fits (p : Pair) (op : Op) : Bool := fokTotalFits p.book (toCommand op)

/-- A total that fits is below 2^32. -/
theorem available_lt (h : p.Agrees s n) (hfits : fokTotalFits p.book c = true)
    (hkind : c.kind = .limit) (htif : c.tif = .fok) :
    s.available c.side (some c.price) c.account < 2 ^ 32 := by
  rw [fokTotalFits, Book.snapshot_spec h.book] at hfits
  rw [PriorityBook.available_eq h.state.ok]
  simpa [hkind, htif] using hfits

/-- A limit order: nothing to report, and both sides still agree. -/
theorem apply_limit (h : p.Agrees s n) (hkind : op.kind = .limit) (hfits : p.fits op = true) :
    ∃ p', p.apply op = .ok (p', []) ∧ p'.book.Represents (s.exec counter64 (toCommand op)).1 ∧
      p'.ref.Mirrors (s.exec counter64 (toCommand op)).1 ∧
      p'.stats = p.stats.add (eventsOf s (toCommand op)) := by
  have hc : toCommand op = limitCommand op.id op.side op.price op.qty op.account op.tif := by
    unfold toCommand
    rw [hkind]
  have hcounter := exec_counter32 h.book h.state.ok hfits
  have hop : (op.tif == .fok && op.kind == .limit) = ((toCommand op).tif == .fok) := by
    rw [hc, hkind]
    exact Bool.and_true _
  have hcounts := counts_limit (c := toCommand op) h.state.ok p.stats (by rw [hc]; rfl) hop
    fun htif => available_lt h hfits (by rw [hc]; rfl) htif
  rw [hc] at hcounter hcounts ⊢
  obtain ⟨b', hbook, hrep⟩ := Book.addLimitOrder_spec h.book p.result op.id op.side op.price op.qty
    op.account op.tif
  obtain ⟨r', href, hmir⟩ := Oracle.addLimit_spec h.ref h.state.ok h.state.timed op.id op.side
    op.price op.qty op.account op.tif
  have hsame : s.addLimit counter32 op.id op.side op.price op.qty op.account op.tif =
      s.addLimit counter64 op.id op.side op.price op.qty op.account op.tif := by
    have hfst := congrArg Prod.fst hcounter
    have hsnd := congrArg Prod.snd hcounter
    exact Prod.ext hfst (Reply.added.inj hsnd)
  rw [hsame] at hbook hrep
  unfold Pair.apply
  rw [hkind]
  dsimp only
  rw [hbook, ok_bind]
  dsimp only
  rw [href, ok_bind]
  dsimp only
  rw [(compareAdd_eq_nil _ _).mpr rfl]
  exact ⟨_, rfl, hrep, hmir, hcounts⟩

/-- A market order: nothing to report, and both sides still agree. -/
theorem apply_market (h : p.Agrees s n) (hkind : op.kind = .market) :
    ∃ p', p.apply op = .ok (p', []) ∧ p'.book.Represents (s.exec counter64 (toCommand op)).1 ∧
      p'.ref.Mirrors (s.exec counter64 (toCommand op)).1 ∧
      p'.stats = p.stats.add (eventsOf s (toCommand op)) := by
  have hc : toCommand op = marketCommand op.id op.side op.qty op.account := by
    unfold toCommand
    rw [hkind]
  have hcounts := counts_market (s := s) p.stats (c := toCommand op) (by rw [hc]; rfl) hkind
  rw [hc] at hcounts ⊢
  obtain ⟨b', hbook, hrep⟩ :=
    Book.addMarketOrder_spec h.book p.result op.id op.side op.qty op.account
  obtain ⟨r', href, hmir⟩ :=
    Oracle.addMarket_spec h.ref h.state.ok h.state.timed op.id op.side op.qty op.account
  unfold Pair.apply
  rw [hkind]
  dsimp only
  rw [hbook, ok_bind]
  dsimp only
  rw [href, ok_bind]
  dsimp only
  rw [(compareAdd_eq_nil _ _).mpr rfl]
  exact ⟨_, rfl, hrep, hmir, hcounts⟩

/-- A cancel: nothing to report, and both sides still agree. -/
theorem apply_cancel (h : p.Agrees s n) (hkind : op.kind = .cancel) :
    ∃ p', p.apply op = .ok (p', []) ∧ p'.book.Represents (s.exec counter64 (toCommand op)).1 ∧
      p'.ref.Mirrors (s.exec counter64 (toCommand op)).1 ∧
      p'.stats = p.stats.add (eventsOf s (toCommand op)) := by
  have hc : toCommand op = cancelCommand op.id := by
    unfold toCommand
    rw [hkind]
  have hflag : (s.cancel op.id).2 = decide (op.id ∈ s.ids) := by
    unfold PriorityBook.cancel
    cases hfind : s.find op.id with
    | none => exact (decide_eq_false (PriorityBook.find_eq_none.mp hfind)).symm
    | some o =>
      obtain ⟨ho, hid⟩ := PriorityBook.mem_of_find hfind
      exact (decide_eq_true (PriorityBook.mem_ids.mpr ⟨o, ho, hid⟩)).symm
  rw [hc]
  obtain ⟨b', hbook, hrep⟩ := Book.cancelOrder_spec h.book op.id
  obtain ⟨r', href, hmir⟩ := Oracle.cancel_spec h.ref h.state.ok op.id
  unfold Pair.apply
  rw [hkind]
  dsimp only
  rw [hbook, ok_bind]
  dsimp only
  rw [href]
  dsimp only
  rw [if_neg (not_not.mpr rfl)]
  refine ⟨_, rfl, hrep, hmir, ?_⟩
  rw [hflag]
  show _ = p.stats.add { ops := 1, cancelOk := bump (op.id ∈ s.ids) }
  simp [Stats.add]

/-- What a modify returns, and what it counts as. A modify of a resting order to a quantity
that is not zero can only fail because it would trade. -/
theorem counts_modify (stats : Stats) (hop : toCommand op = modifyCommand op.id op.price op.qty)
    {known : Bool} (hknown : known = true ↔ op.id ∈ (s.modify op.id op.price op.qty).1.ids) :
    ({ stats with
      ops := stats.ops + 1
      modifyOk := stats.modifyOk + bump (s.modify op.id op.price op.qty).2
      modifyCrossingRejected := stats.modifyCrossingRejected +
        bump (!(s.modify op.id op.price op.qty).2 && decide (op.qty > 0) && known) } : Stats) =
      stats.add (eventsOf s (toCommand op)) := by
  have hevents : eventsOf s (toCommand op) =
      if op.qty = 0 then { ops := 1 }
      else
        match s.find op.id with
        | none => { ops := 1 }
        | some o =>
          if (op.price = o.price ∧ op.qty ≤ o.qty) ∨ s.wouldTrade o.side op.price = false then
            { ops := 1, modifyOk := 1 }
          else { ops := 1, modifyCrossingRejected := 1 } := by
    rw [hop]
    rfl
  rw [hevents]
  unfold PriorityBook.modify at hknown ⊢
  by_cases hzero : op.qty = 0
  · rw [if_pos hzero, if_pos hzero, hzero]
    simp [Stats.add, bump]
  have hpos : 0 < op.qty := UInt32.pos_iff_ne_zero.mpr hzero
  rw [if_neg hzero] at hknown ⊢
  rw [if_neg hzero]
  cases hfind : s.find op.id with
  | none =>
    rw [hfind] at hknown
    have hunknown : known = false := by
      rw [Bool.eq_false_iff, Ne, hknown]
      exact PriorityBook.find_eq_none.mp hfind
    simp [Stats.add, bump, hunknown]
  | some o =>
    rw [hfind] at hknown
    dsimp only at hknown ⊢
    by_cases hplace : op.price = o.price ∧ op.qty ≤ o.qty
    · rw [if_pos hplace, if_pos (Or.inl hplace)]
      simp [Stats.add, bump]
    rw [if_neg hplace] at hknown ⊢
    by_cases htrade : s.wouldTrade o.side op.price = true
    · have hcrossing : ¬ ((op.price = o.price ∧ op.qty ≤ o.qty) ∨
          s.wouldTrade o.side op.price = false) := by
        rintro (h | h)
        · exact hplace h
        · rw [htrade] at h
          cases h
      obtain ⟨ho, hid⟩ := PriorityBook.mem_of_find hfind
      have hknown : known = true := by
        rw [hknown, if_pos htrade]
        exact PriorityBook.mem_ids.mpr ⟨o, ho, hid⟩
      rw [if_pos htrade, if_neg hcrossing]
      simp [Stats.add, bump, hknown, hpos]
    · rw [if_neg htrade, if_pos (Or.inr (Bool.eq_false_iff.mpr htrade))]
      simp [Stats.add, bump]

/-- A modify: nothing to report, and both sides still agree. -/
theorem apply_modify (h : p.Agrees s n) (hkind : op.kind = .modify) :
    ∃ p', p.apply op = .ok (p', []) ∧ p'.book.Represents (s.exec counter64 (toCommand op)).1 ∧
      p'.ref.Mirrors (s.exec counter64 (toCommand op)).1 ∧
      p'.stats = p.stats.add (eventsOf s (toCommand op)) := by
  have hc : toCommand op = modifyCommand op.id op.price op.qty := by
    unfold toCommand
    rw [hkind]
  have hok : (s.modify op.id op.price op.qty).1.Ok :=
    h.state.ok.exec counter64 (modifyCommand op.id op.price op.qty)
  obtain ⟨b', hbook, hrep⟩ := Book.modifyOrder_spec h.book h.state.ok op.id op.price op.qty
  obtain ⟨r', href, hmir⟩ := Oracle.modify_spec h.ref h.state.ok op.id op.price op.qty
  have hcounts := counts_modify p.stats hc (Oracle.find_isSome_iff hmir hok op.id)
  rw [hc] at hcounts ⊢
  unfold Pair.apply
  rw [hkind]
  dsimp only
  rw [hbook, ok_bind]
  dsimp only
  rw [href, ok_bind]
  dsimp only
  rw [if_neg (not_not.mpr rfl)]
  exact ⟨_, rfl, hrep, hmir, hcounts⟩

/-- **One operation**: nothing is reported, both do what the abstract book does, and what
happens to it is counted. -/
theorem Pair.apply_spec (h : p.Agrees s n) (hn : n + 1 < 2 ^ 64) (hfits : p.fits op = true) :
    ∃ p', p.apply op = .ok (p', []) ∧
      p'.Agrees (s.exec counter64 (toCommand op)).1 (n + 1) ∧
      p'.stats = p.stats.add (eventsOf s (toCommand op)) := by
  have hstate := h.state.step hn (toCommand op)
  have happly : ∃ p', p.apply op = .ok (p', []) ∧
      p'.book.Represents (s.exec counter64 (toCommand op)).1 ∧
      p'.ref.Mirrors (s.exec counter64 (toCommand op)).1 ∧
      p'.stats = p.stats.add (eventsOf s (toCommand op)) := by
    cases hkind : op.kind with
    | limit => exact apply_limit h hkind hfits
    | market => exact apply_market h hkind
    | cancel => exact apply_cancel h hkind
    | modify => exact apply_modify h hkind
  obtain ⟨p', heq, hrep, hmir, hstats⟩ := happly
  exact ⟨p', heq, ⟨hrep, hmir, hstate⟩, hstats⟩

/-- A check of agreeing states reports nothing. -/
theorem Pair.checkState_spec (h : p.Agrees s n) (inactive : Index → Order) :
    p.checkState inactive = .ok [] := by
  rw [checkState_eq_nil, Book.snapshot_spec h.book,
    Oracle.snapshot_spec h.ref h.state.ok h.state.timed]
  obtain ⟨L, vacant, hrepr, hs⟩ := h.book
  have hstruct := Book.structured hrepr hs h.state.ok h.state.timed
  exact ⟨Book.invariantViolation_spec hrepr hstruct inactive, rfl⟩

/-! ## Runs -/

/-- An operation and the check of the state after it, with both reports. -/
def Pair.step (inactive : Index → Order) (p : Pair) (op : Op) : Checked (Pair × Text × Text) := do
  let (p, err) ← p.apply op
  let violation ← p.checkState inactive
  return (p, err, violation)

/-- A step of an agreeing pair reports nothing and leaves the pair agreeing. -/
theorem Pair.step_spec (h : p.Agrees s n) (hn : n + 1 < 2 ^ 64) (hfits : p.fits op = true)
    (inactive : Index → Order) :
    ∃ p', p.step inactive op = .ok (p', [], []) ∧
      p'.Agrees (s.exec counter64 (toCommand op)).1 (n + 1) ∧
      p'.stats = p.stats.add (eventsOf s (toCommand op)) := by
  obtain ⟨p', heq, hagrees, hstats⟩ := Pair.apply_spec h hn hfits
  refine ⟨p', ?_, hagrees, hstats⟩
  unfold Pair.step
  rw [heq, ok_bind]
  dsimp only
  rw [Pair.checkState_spec hagrees inactive]
  rfl

theorem Stats.add_assoc (a b c : Stats) : (a.add b).add c = a.add (b.add c) := by
  simp only [Stats.add, UInt64.add_assoc]

@[simp] theorem Stats.add_zero (a : Stats) : a.add {} = a := by
  simp only [Stats.add, UInt64.add_zero]

@[simp] theorem Stats.zero_add (a : Stats) : Stats.add {} a = a := by
  simp only [Stats.add, UInt64.zero_add]

/-- The harness from any state in which engine and oracle agree. -/
theorem Pair.run_spec (inactive : Index → Order) : ∀ (ops : List Op) (p : Pair) (s : PriorityBook)
    (n : ℕ), p.Agrees s n → n + ops.length < 2 ^ 64 →
      Run.alongM Pair.fits (Pair.step inactive) p ops = true →
      ∃ p', Run.runM (Pair.step inactive) p ops = .ok (p', ops.map fun _ => ([], [])) ∧
        p'.stats = p.stats.add (eventsAlong s (ops.map toCommand)) := by
  intro ops
  induction ops with
  | nil => exact fun p s n _ _ _ => ⟨p, rfl, (Stats.add_zero p.stats).symm⟩
  | cons op ops ih =>
    intro p s n h hn hfits
    rw [List.length_cons] at hn
    rw [Run.alongM, Bool.and_eq_true] at hfits
    obtain ⟨hop, hops⟩ := hfits
    obtain ⟨p₁, hstep, hagrees, hstats⟩ := Pair.step_spec h (by omega) hop inactive
    rw [hstep] at hops
    obtain ⟨p₂, hrun, hstats'⟩ := ih p₁ _ (n + 1) hagrees (by omega) hops
    refine ⟨p₂, Run.runM_cons hstep hrun, ?_⟩
    rw [hstats', hstats, Stats.add_assoc]
    rfl

/-! ## Small quantities -/

/-- No resting order is larger than `m`. -/
def Within (m : ℕ) (s : PriorityBook) : Prop := ∀ o ∈ s.orders, o.amount ≤ m

theorem within_new (m capacity : ℕ) : Within m (.new capacity) := fun _ h =>
  absurd h List.not_mem_nil

/-- A book of orders that are not larger than `m` gets none, as long as no command is. -/
theorem Within.exec (h : Within m s) (hok : s.Ok) (gate : ℕ → ℕ) (hc : c.qty.toNat ≤ m) :
    Within m (s.exec gate c).1 := by
  have hswept : Within m (s.swept c) := by
    intro o ho
    rw [PriorityBook.orders_swept hok, mem_removeTrades] at ho
    obtain ⟨o', ho', -, rfl⟩ := ho
    rw [RestingOrder.amount_reduce (PriorityBook.tradedBy_le hok c ho')]
    exact (Nat.sub_le _ _).trans (h o' ho')
  have hremove : ∀ o ∈ s.orders, Within m (s.tick.remove o) := by
    intro o ho o' ho'
    exact h o' ((PriorityBook.orders_remove hok.tick ho).mem_iff.mpr (List.mem_cons_of_mem _ ho'))
  have heffect := PriorityBook.exec_effect hok gate c
  generalize (s.exec gate c).1 = s' at heffect ⊢
  generalize (s.exec gate c).2 = reply at heffect
  cases heffect with
  | refused hadds hbad => exact h
  | killed hkind htif => exact h
  | matched hadds hq hid hrest => exact hswept
  | exhausted hq hid hrest hfull => exact hswept
  | rested hq hid hrest hroom =>
    intro o ho
    rcases List.mem_cons.mp ((PriorityBook.orders_insert _ _).mem_iff.mp ho) with rfl | ho
    · have hunmet : (s.sweepOf c).unmet ≤ c.qty.toNat := Greedy.unmet_le
      show (UInt32.ofNat (s.sweepOf c).unmet).toNat ≤ m
      rw [toNat_ofNat_qty hunmet]
      exact hunmet.trans hc
    · exact hswept o ho
  | ignored hkind => exact h
  | cancelled o hkind hfind => exact hremove o (PriorityBook.mem_of_find hfind).1
  | reduced o hkind hfind hq hprice hle =>
    intro o' ho'
    have ho := (PriorityBook.mem_of_find hfind).1
    rcases List.mem_cons.mp ((PriorityBook.orders_setQty hok.tick ho c.qty).mem_iff.mp ho')
      with rfl | ho'
    · exact hc
    · exact hremove o ho o' ho'
  | moved o hkind hfind hq hplace =>
    intro o' ho'
    have ho := (PriorityBook.mem_of_find hfind).1
    rcases List.mem_cons.mp ((PriorityBook.orders_insert _ _).mem_iff.mp ho') with rfl | ho'
    · exact hc
    · exact hremove o ho o' ho'

/-- Orders of at most `m` each add up to at most `m` for each. -/
theorem total_le {l : List RestingOrder} (hl : ∀ o ∈ l, o.amount ≤ m) :
    Greedy.total RestingOrder.amount l ≤ l.length * m := by
  induction l with
  | nil => exact Nat.zero_le _
  | cons o l ih =>
    obtain ⟨ho, hl⟩ := List.forall_mem_cons.mp hl
    have hrest := ih hl
    rw [Greedy.total_cons, List.length_cons, Nat.succ_mul]
    omega

/-- In a book of small orders no total outgrows the counter. -/
theorem Within.fits (h : Within m s) (hp : p.Agrees s n) (hm : s.capacity * m < 2 ^ 32)
    (op : Op) : p.fits op = true := by
  unfold Pair.fits fokTotalFits
  rw [Book.snapshot_spec hp.book]
  dsimp only
  generalize toCommand op = c
  have hsub : (beforeOwn c.account (inReach c.side (some c.price) s.orders)).Sublist s.orders :=
    (List.takeWhile_sublist _).trans ((List.filter_sublist).trans List.filter_sublist)
  have htotal := total_le fun o ho => h o (hsub.mem ho)
  have hlen := hsub.length_le.trans hp.state.ok.fits
  have hlt : fillable c.side (some c.price) c.account s.orders < 2 ^ 32 := by
    calc fillable c.side (some c.price) c.account s.orders
        ≤ (beforeOwn c.account (inReach c.side (some c.price) s.orders)).length * m := htotal
      _ ≤ s.capacity * m := Nat.mul_le_mul_right m hlen
      _ < 2 ^ 32 := hm
  rw [decide_eq_true hlt, Bool.or_true]

/-- So runs of small orders keep to the condition. -/
theorem alongM_fits (inactive : Index → Order) : ∀ (ops : List Op) (p : Pair) (s : PriorityBook)
    (n : ℕ), p.Agrees s n → Within m s → s.capacity * m < 2 ^ 32 → n + ops.length < 2 ^ 64 →
      (∀ op ∈ ops, op.qty.toNat ≤ m) →
      Run.alongM Pair.fits (Pair.step inactive) p ops = true := by
  intro ops
  induction ops with
  | nil => exact fun _ _ _ _ _ _ _ _ => rfl
  | cons op ops ih =>
    intro p s n h hw hm hn hops
    rw [List.length_cons] at hn
    obtain ⟨hop, hops⟩ := List.forall_mem_cons.mp hops
    have hfits := hw.fits h hm op
    obtain ⟨p₁, hstep, hagrees, -⟩ := Pair.step_spec h (by omega) hfits inactive
    have heffect := PriorityBook.exec_effect h.state.ok counter64 (toCommand op)
    rw [Run.alongM, hfits, hstep, Bool.true_and]
    refine ih p₁ _ (n + 1) hagrees (hw.exec h.state.ok counter64 (qty_toCommand_le hop)) ?_
      (by omega)
      hops
    rw [heffect.capacity]
    exact hm

/-! ## The harness -/

/-- **The harness reports nothing**, and its counters tell what happened: how many orders were
invalid, were refused for want of quantity, met an order of their own account or found no room,
how many trades were made, and how many cancels and modifies took effect or would have traded. -/
theorem harness_reports_nothing (inactive : Index → Order) (capacity : Index) (ops : List Op)
    (hlen : ops.length < 2 ^ 64)
    (hfits : Run.alongM Pair.fits (Pair.step inactive) (Pair.new capacity) ops = true) :
    ∃ p, Run.runM (Pair.step inactive) (Pair.new capacity) ops =
        .ok (p, ops.map fun _ => ([], [])) ∧
      p.stats = eventsAlong (.new capacity.toNat) (ops.map toCommand) := by
  obtain ⟨p, hrun, hstats⟩ := Pair.run_spec inactive ops (Pair.new capacity) _ 0
    (Pair.agrees_new capacity) (by omega) hfits
  refine ⟨p, hrun, ?_⟩
  rw [hstats]
  exact Stats.zero_add _

/-- A self-match, a fill-or-kill order that finds too little, a modify that would trade, a full
pool, an order of quantity 0, a market order and a cancel. -/
def everyPath : List Op :=
  [{ id := 1, side := .sell, price := 10, qty := 2, account := 1 },
    { id := 2, side := .buy, price := 10, qty := 1, account := 1 },
    { id := 3, side := .buy, price := 10, qty := 3, account := 2, tif := .fok },
    { id := 4, side := .buy, price := 9, qty := 1, account := 2 },
    { kind := .modify, id := 4, price := 10, qty := 1 },
    { id := 5, side := .buy, price := 8, qty := 1, account := 2 },
    { id := 5, side := .buy, price := 8, qty := 0, account := 2 },
    { kind := .market, id := 6, side := .buy, qty := 1, account := 3, tif := .ioc },
    { kind := .cancel, id := 1 }]

/-- Nine commands at capacity 2 that reach every path the counters watch. -/
theorem harness_reports_nothing_everyPath :
    ∃ p, Run.runM (Pair.step fun _ => {}) (Pair.new 2) everyPath =
        .ok (p, List.replicate 9 ([], [])) ∧
      p.stats = ⟨9, 1, 1, 1, 1, 0, 1, 1, 1⟩ := by
  obtain ⟨p, hrun, hstats⟩ :=
    harness_reports_nothing (fun _ => {}) 2 everyPath (by decide)
      (alongM_fits (m := 3) _ everyPath _ _ 0 (Pair.agrees_new 2) (within_new 3 2) (by decide)
        (by decide) (by decide))
  refine ⟨p, hrun, ?_⟩
  rw [hstats]
  decide +kernel

end Diff

end MatchingEngine
