import MatchingEngine.Book.Observed
import MatchingEngine.Spec.Ledger

/-!
# Capacity

The capacity of a book shows in one place only: a residual that would rest is dropped if the
orders that rest after the command's own fills take up all slots (`exhausted_iff`). A run in
which this never happens is the same at any larger capacity (`run_withCapacity`).
-/

namespace MatchingEngine

open Run

/-- The reply says that the pool was exhausted. -/
def Reply.exhausted : Reply → Bool
  | .added r => r.poolExhausted
  | .flag _ => false

/-- A residual that may rest is left over, as the reply shows. -/
structure LeavesResidual (c : Command) (r : AddResult) : Prop where
  kind : c.kind = .limit
  tif : c.tif = .gtc
  accepted : r.accepted = true
  unstopped : r.stpRejected = false
  left : volume r.trades < c.qty.toNat

namespace PriorityBook

variable {s s' : PriorityBook} {c : Command} {n : ℕ}

/-! ## Exhaustion -/

/-- **The pool is exhausted** exactly if there is a residual and no room for it. -/
theorem Effect.exhausted_iff (h : s.Ok) {r : AddResult} (heff : Effect s c s' (.added r)) :
    r.poolExhausted = true ↔
      LeavesResidual c r ∧ (removeTrades r.trades s.orders).length = s.capacity := by
  have hvolume := volume_sweep h c
  have hlen : (removeTrades (s.tradesOfSweep c) s.orders).length = (s.swept c).orders.length := by
    rw [orders_swept h]
  -- only `exhausted` and `rested` have a residual that may rest, and they differ in the room
  cases heff with
  | refused =>
    refine iff_of_false Bool.false_ne_true fun hleft => ?_
    cases hleft.1.accepted
  | killed hkind htif =>
    refine iff_of_false Bool.false_ne_true fun hleft => ?_
    have hgtc := hleft.1.tif
    rw [htif] at hgtc
    cases hgtc
  | matched hadds hq hid hrest =>
    -- what could rest did not
    refine iff_of_false Bool.false_ne_true fun hleft => hrest ?_
    have hlt : volume (s.tradesOfSweep c) < c.qty.toNat := hleft.1.left
    exact ⟨hleft.1.kind, hleft.1.tif, hleft.1.unstopped, by omega⟩
  | exhausted hq hid hrest hfull =>
    have hunmet := hrest.unmet
    have hlt : volume (s.tradesOfSweep c) < c.qty.toNat := by omega
    exact iff_of_true rfl ⟨⟨hrest.kind, hrest.tif, rfl, rfl, hlt⟩, hlen.trans hfull⟩
  | rested hq hid hrest hroom =>
    refine iff_of_false Bool.false_ne_true fun hleft => ?_
    have hfull : (removeTrades (s.tradesOfSweep c) s.orders).length = s.capacity := hleft.2
    omega

/-- A residual is dropped as a whole or rests as a whole. -/
theorem Effect.residual (h : s.Ok) {r : AddResult} (heff : Effect s c s' (.added r)) :
    (r.poolExhausted = true → r.restingQty = 0) ∧
      (LeavesResidual c r → r.poolExhausted = false →
        volume r.trades + r.restingQty.toNat = c.qty.toNat) := by
  have hvolume := volume_sweep h c
  cases heff with
  | refused =>
    refine ⟨fun _ => rfl, fun hleft _ => ?_⟩
    cases hleft.accepted
  | killed hkind htif =>
    refine ⟨fun _ => rfl, fun hleft _ => ?_⟩
    have hgtc := hleft.tif
    rw [htif] at hgtc
    cases hgtc
  | matched hadds hq hid hrest =>
    refine ⟨fun _ => rfl, fun hleft _ => absurd ?_ hrest⟩
    have hlt : volume (s.tradesOfSweep c) < c.qty.toNat := hleft.left
    exact ⟨hleft.kind, hleft.tif, hleft.unstopped, by omega⟩
  | exhausted => exact ⟨fun _ => rfl, fun _ hroom => Bool.noConfusion hroom⟩
  | rested =>
    have hqty : (s.residual c).qty.toNat = (s.sweepOf c).unmet :=
      toNat_ofNat_qty (unmet_le_qty s c.side c.limit c.account)
    refine ⟨fun hfull => Bool.noConfusion hfull, fun _ _ => ?_⟩
    show volume (s.tradesOfSweep c) + (s.residual c).qty.toNat = c.qty.toNat
    omega

/-! ## Two capacities -/

/-- The same book with another capacity. -/
def withCapacity (s : PriorityBook) (n : ℕ) : PriorityBook := { s with capacity := n }

/-- A residual that finds room finds it in a larger pool too. -/
theorem restResidual_withCapacity (hle : s.capacity ≤ n) (o : RestingOrder) (r : AddResult)
    (hr : (s.restResidual o r).2.poolExhausted = false) :
    (s.withCapacity n).restResidual o r =
      ((s.restResidual o r).1.withCapacity n, (s.restResidual o r).2) := by
  have horders : (s.withCapacity n).orders = s.orders := rfl
  unfold restResidual at hr ⊢
  rw [horders]
  by_cases hroom : s.orders.length < s.capacity
  · have hroom' : s.orders.length < (s.withCapacity n).capacity := lt_of_lt_of_le hroom hle
    rw [if_pos hroom, if_pos hroom']
    rfl
  · rw [if_neg hroom] at hr
    cases hr

/-- A limit order that does not exhaust the pool does the same with a larger one. -/
theorem addLimit_withCapacity (gate : ℕ → ℕ) (hle : s.capacity ≤ n) (id : OrderId) (side : Side)
    (price : Price) (qty : Qty) (account : Account) (tif : TimeInForce)
    (hroom : (s.addLimit gate id side price qty account tif).2.poolExhausted = false) :
    (s.withCapacity n).addLimit gate id side price qty account tif =
      ((s.addLimit gate id side price qty account tif).1.withCapacity n,
        (s.addLimit gate id side price qty account tif).2) := by
  have hids : (s.withCapacity n).ids = s.ids := rfl
  have havailable : (s.withCapacity n).available side (some price) account =
      s.available side (some price) account := rfl
  have hsweep : (s.withCapacity n).sweep side (some price) account qty.toNat =
      s.sweep side (some price) account qty.toNat := rfl
  unfold addLimit at hroom ⊢
  -- the capacity is read in the last branch only
  rw [hids, havailable, hsweep]
  by_cases hbad : qty = 0 ∨ id ∈ s.ids
  · rw [if_pos hbad, if_pos hbad]
    rfl
  rw [if_neg hbad] at hroom
  rw [if_neg hbad, if_neg hbad]
  by_cases hfok : tif = .fok ∧ gate (s.available side (some price) account) < qty.toNat
  · rw [if_pos hfok, if_pos hfok]
    rfl
  rw [if_neg hfok] at hroom
  rw [if_neg hfok, if_neg hfok]
  generalize s.sweep side (some price) account qty.toNat = r at hroom
  dsimp only at hroom ⊢
  by_cases hrest : tif = .gtc ∧ r.stopped = false ∧ 0 < r.unmet
  · rw [if_pos hrest] at hroom
    rw [if_pos hrest, if_pos hrest]
    have hcap : (s.tick.afterSweep side r).capacity ≤ n := hle
    exact restResidual_withCapacity hcap _ _ hroom
  · rw [if_neg hrest, if_neg hrest]
    rfl

/-- A market order never needs room. -/
theorem addMarket_withCapacity (s : PriorityBook) (n : ℕ) (id : OrderId) (side : Side) (qty : Qty)
    (account : Account) :
    (s.withCapacity n).addMarket id side qty account =
      ((s.addMarket id side qty account).1.withCapacity n,
        (s.addMarket id side qty account).2) := by
  have hids : (s.withCapacity n).ids = s.ids := rfl
  unfold addMarket
  rw [hids]
  by_cases hbad : qty = 0 ∨ id ∈ s.ids
  · rw [if_pos hbad, if_pos hbad]
    rfl
  · rw [if_neg hbad, if_neg hbad]
    rfl

/-- A cancel never needs room. -/
theorem cancel_withCapacity (s : PriorityBook) (n : ℕ) (id : OrderId) :
    (s.withCapacity n).cancel id = ((s.cancel id).1.withCapacity n, (s.cancel id).2) := by
  have hfind : (s.withCapacity n).find id = s.find id := rfl
  unfold cancel
  rw [hfind]
  cases s.find id with
  | none => rfl
  | some o => rfl

/-- A modify never needs room. -/
theorem modify_withCapacity (s : PriorityBook) (n : ℕ) (id : OrderId) (newPrice : Price)
    (newQty : Qty) :
    (s.withCapacity n).modify id newPrice newQty =
      ((s.modify id newPrice newQty).1.withCapacity n, (s.modify id newPrice newQty).2) := by
  have hfind : (s.withCapacity n).find id = s.find id := rfl
  unfold modify
  rw [hfind]
  by_cases hq : newQty = 0
  · rw [if_pos hq, if_pos hq]
    rfl
  rw [if_neg hq, if_neg hq]
  cases s.find id with
  | none => rfl
  | some o =>
    have hwould : (s.withCapacity n).wouldTrade o.side newPrice = s.wouldTrade o.side newPrice :=
      rfl
    dsimp only
    rw [hwould]
    by_cases hplace : newPrice = o.price ∧ newQty ≤ o.qty
    · rw [if_pos hplace, if_pos hplace]
      rfl
    rw [if_neg hplace, if_neg hplace]
    by_cases hcross : s.wouldTrade o.side newPrice = true
    · rw [if_pos hcross, if_pos hcross]
      rfl
    · rw [if_neg hcross, if_neg hcross]
      rfl

/-- **A command** that does not exhaust the pool does the same with more room. -/
theorem exec_withCapacity (gate : ℕ → ℕ) (hle : s.capacity ≤ n)
    (hroom : (s.exec gate c).2.exhausted = false) :
    (s.withCapacity n).exec gate c = ((s.exec gate c).1.withCapacity n, (s.exec gate c).2) := by
  unfold exec at hroom ⊢
  cases hkind : c.kind with
  | limit =>
    rw [hkind] at hroom
    have hadd := addLimit_withCapacity gate hle c.id c.side c.price c.qty c.account c.tif hroom
    exact congrArg (fun p => (p.1, Reply.added p.2)) hadd
  | market =>
    have hadd := addMarket_withCapacity s n c.id c.side c.qty c.account
    exact congrArg (fun p => (p.1, Reply.added p.2)) hadd
  | cancel =>
    have hcancel := cancel_withCapacity s n c.id
    exact congrArg (fun p => (p.1, Reply.flag p.2)) hcancel
  | modify =>
    have hmodify := modify_withCapacity s n c.id c.price c.qty
    exact congrArg (fun p => (p.1, Reply.flag p.2)) hmodify

/-- **A run** that never exhausts the pool is the same with more room. -/
theorem run_withCapacity : ∀ (cmds : List Command) (s : PriorityBook), s.Ok → s.capacity ≤ n →
    (∀ p ∈ (run observe s cmds).2, p.1.exhausted = false) →
    (run observe (s.withCapacity n) cmds).2 = (run observe s cmds).2 := by
  intro cmds
  induction cmds with
  | nil => exact fun _ _ _ _ => rfl
  | cons c cmds ih =>
    intro s hok hle hroom
    -- the first command leaves both books alike, up to their capacity
    have hfirst : (s.observe c).2.1.exhausted = false := hroom _ List.mem_cons_self
    have heq := exec_withCapacity counter32 hle hfirst
    have hobserve : (s.withCapacity n).observe c =
        ((s.observe c).1.withCapacity n, (s.observe c).2) := by
      unfold observe
      rw [heq]
      rfl
    have hcap : (s.observe c).1.capacity = s.capacity := (exec_effect hok counter32 c).capacity
    have hrest := ih (s.observe c).1 (hok.exec counter32 c) (hcap.trans_le hle)
      fun p hp => hroom p (List.mem_cons_of_mem _ hp)
    rw [run, run, hobserve]
    dsimp only
    rw [hrest]

end PriorityBook

namespace Book

/-- **Capacity only matters through pool exhaustion.** -/
theorem capacity_only_matters_when_exhausted {small large : Index} (hle : small ≤ large)
    (cmds : List Command) :
    (∃ b log b' log', runM step (new small) cmds = .ok (b, log) ∧
      runM step (new large) cmds = .ok (b', log') ∧
      ((∀ p ∈ log, p.1.exhausted = false) →
        log' = log ∧ ∀ p ∈ log', p.1.exhausted = false)) ∧
    ∀ capacity : Index, ∃ b log l, runM step (new capacity) cmds = .ok (b, log) ∧
      b.snapshot = .ok l ∧ ∀ c, ∃ b' reply l', b.step c = .ok (b', reply, l') ∧
        ∀ r, reply = .added r →
          (r.poolExhausted = true ↔
            LeavesResidual c r ∧ (removeTrades r.trades l).length = capacity.toNat) ∧
          (r.poolExhausted = true → r.restingQty = 0) ∧
          (LeavesResidual c r → r.poolExhausted = false →
            volume r.trades + r.restingQty.toNat = c.qty.toNat) := by
  constructor
  · obtain ⟨b, hrun, -⟩ := run_step_spec (represents_new small) (PriorityBook.ok_new _) cmds
    obtain ⟨b', hrun', -⟩ := run_step_spec (represents_new large) (PriorityBook.ok_new _) cmds
    refine ⟨b, _, b', _, hrun, hrun', fun hroom => ?_⟩
    have hsame := PriorityBook.run_withCapacity cmds (.new small.toNat) (PriorityBook.ok_new _)
      (UInt32.le_iff_toNat_le.mp hle) hroom
    have hsame' : (run PriorityBook.observe (.new large.toNat) cmds).2 =
        (run PriorityBook.observe (.new small.toNat) cmds).2 := hsame
    rw [hsame']
    exact ⟨rfl, hroom⟩
  · intro capacity
    obtain ⟨b, hrun, hrep, hok⟩ :=
      run_step_spec (represents_new capacity) (PriorityBook.ok_new _) cmds
    refine ⟨b, _, _, hrun, snapshot_spec hrep, fun c => ?_⟩
    obtain ⟨b', hstep, -⟩ := observe_spec hrep hok c
    refine ⟨b', _, _, hstep, fun r hr => ?_⟩
    have heff := PriorityBook.exec_effect hok counter32 c
    have hreply : ((run PriorityBook.observe (.new capacity.toNat) cmds).1.exec counter32 c).2 =
        .added r := hr
    rw [hreply] at heff
    have hiff := heff.exhausted_iff hok
    rw [PriorityBook.capacity_observe] at hiff
    exact ⟨hiff, heff.residual hok⟩

/-- A sell that rests and a buy that takes its slot, at capacities 1 and 2. -/
theorem capacity_only_matters_when_exhausted_oneSlot :
    ∃ b log b', runM step (new 1) [limitCommand 1 .sell 100 5 1, limitCommand 2 .buy 100 7 2] =
        .ok (b, log) ∧
      runM step (new 2) [limitCommand 1 .sell 100 5 1, limitCommand 2 .buy 100 7 2] =
        .ok (b', log) := by
  have hlog : Except.map Prod.snd
      (runM step (new 1) [limitCommand 1 .sell 100 5 1, limitCommand 2 .buy 100 7 2]) = .ok
        [(.added { accepted := true, restingQty := 5 }, [⟨.sell, 100, 1, 5, 1, 0⟩]),
          (.added { accepted := true, trades := [⟨1, 2, 100, 5, 0, 1⟩], restingQty := 2 },
            [⟨.buy, 100, 2, 2, 2, 1⟩])] := by
    decide +kernel
  have hle : (1 : Index) ≤ 2 := by decide
  obtain ⟨b, log, b', log', hrun, hrun', hall⟩ := (capacity_only_matters_when_exhausted hle
    [limitCommand 1 .sell 100 5 1, limitCommand 2 .buy 100 7 2]).1
  rw [hrun] at hlog
  obtain rfl := Except.ok.inj hlog
  obtain ⟨rfl, -⟩ := hall (by decide)
  exact ⟨b, _, b', hrun, hrun'⟩

end Book

end MatchingEngine
