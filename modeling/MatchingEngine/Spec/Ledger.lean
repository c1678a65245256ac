import MatchingEngine.Spec.Effect

/-!
# The ledger of a run

`ledger id` reads a history of commands and replies, and keeps of the order `id` the quantity
it was last given, what was traded of it since, and whether it was cancelled since. In every
run the books balance (`Balanced`): an order rests with what it was given less what was traded
of it, and an order that has left without a cancel was traded as a whole.
-/

namespace MatchingEngine

/-! ## Accounts -/

/-- What is known of the order of an id: what it was set to, what was traded since, and whether it
was cancelled. -/
structure Tally where
  value : ℕ
  traded : ℕ := 0
  cancelled : Bool := false

/-- The quantity that a command gives the order `id`: what rests of it, or its new one. -/
def quantitySet (id : OrderId) (c : Command) (reply : Reply) : Option ℕ :=
  if c.id = id then
    match reply with
    | .added r => if r.restingQty = 0 then none else some r.restingQty.toNat
    | .flag ok => if c.kind = .modify ∧ ok = true then some c.qty.toNat else none
  else none

/-- A cancel of the id that succeeded. -/
def cancels (id : OrderId) (c : Command) (reply : Reply) : Bool :=
  c.kind = .cancel ∧ c.id = id ∧ reply = .flag true

/-- The tally of an id after one more command. -/
def Tally.next (id : OrderId) (e : Option Tally) (p : Command × Reply) : Option Tally :=
  match quantitySet id p.1 p.2 with
  | some value => some { value }
  | none => e.map fun e =>
    { e with
      traded := e.traded + tradedBy id p.2.trades
      cancelled := e.cancelled || cancels id p.1 p.2 }

/-- The tally of an id after some commands. -/
def ledger (id : OrderId) (history : List (Command × Reply)) : Option Tally :=
  history.foldl (Tally.next id) none

/-- The account of the order `id` agrees with the orders that rest. -/
inductive Balanced (id : OrderId) (l : List RestingOrder) : Option Tally → Prop where
  | unknown (h : ∀ o ∈ l, o.orderId ≠ id) : Balanced id l none
  | resting (e : Tally) (o : RestingOrder) (ho : o ∈ l) (hid : o.orderId = id)
      (hsum : o.amount + e.traded = e.value) (hkept : e.cancelled = false) :
      Balanced id l (some e)
  | left (e : Tally) (h : ∀ o ∈ l, o.orderId ≠ id)
      (hsum : e.cancelled = false → e.traded = e.value) : Balanced id l (some e)

/-- Nothing of an order is lost but what must not rest, or found no room. -/
def Accounted (c : Command) (r : AddResult) : Prop :=
  ∃ dropped, c.qty.toNat = volume r.trades + r.restingQty.toNat + dropped ∧
    (dropped ≠ 0 → c.kind = .market ∨ c.tif = .ioc ∨ c.tif = .fok ∨ r.stpRejected = true ∨
      r.poolExhausted = true)

/-! ## Orders and trades -/

/-- Reducing an order takes off its amount. -/
theorem RestingOrder.amount_reduce {o : RestingOrder} {n : ℕ} (h : n ≤ o.amount) :
    (o.reduce n).amount = o.amount - n := by
  have hn : (UInt32.ofNat n).toNat = n := toNat_ofNat_qty h
  show (o.qty - UInt32.ofNat n).toNat = o.qty.toNat - n
  rw [UInt32.toNat_sub_of_le _ _ (UInt32.le_iff_toNat_le.mpr (by rw [hn]; exact h)), hn]

/-- What is left after some trades is what they did not fill, reduced. -/
theorem mem_removeTrades {trades : List Trade} {l : List RestingOrder} {o' : RestingOrder} :
    o' ∈ removeTrades trades l ↔ ∃ o ∈ l, tradedBy o.orderId trades ≠ o.amount ∧
      o.reduce (tradedBy o.orderId trades) = o' := by
  unfold removeTrades
  rw [List.mem_filterMap]
  refine exists_congr fun o => and_congr_right fun _ => ?_
  -- an order that was traded as a whole is not there
  by_cases h : tradedBy o.orderId trades = o.amount
  · rw [if_pos h]
    exact ⟨fun hnone => absurd hnone.symm (Option.some_ne_none o'), fun hboth => absurd h hboth.1⟩
  · rw [if_neg h, Option.some_inj]
    exact ⟨fun ho => ⟨h, ho⟩, fun hboth => hboth.2⟩

/-- Trades with others leave the orders as they are. -/
theorem removeTrades_of_untouched {trades : List Trade} {l : List RestingOrder}
    (hno : ∀ o ∈ l, tradedBy o.orderId trades = 0) (hlive : ∀ o ∈ l, o.qty ≠ 0) :
    removeTrades trades l = l := by
  have hsome : removeTrades trades l = l.filterMap some := by
    refine List.filterMap_congr fun o ho => ?_
    have hne : ¬ 0 = o.amount := (RestingOrder.amount_pos (hlive o ho)).ne
    have hzero : o.reduce 0 = o := by
      show { o with qty := o.qty - 0 } = o
      rw [UInt32.sub_zero]
    rw [hno o ho, if_neg hne, hzero]
  rw [hsome, List.filterMap_some]

theorem tradedBy_nil (id : OrderId) : tradedBy id [] = 0 := rfl

namespace PriorityBook

variable {s s' : PriorityBook} {c : Command} {o : RestingOrder} {id : OrderId} {reply : Reply}
  {e : Option Tally}

/-! ## What a sweep takes from an order -/

/-- What is traded with an order is what the sweep took of it. -/
theorem tradedBy_sweep (h : s.Ok) (c : Command) (id : OrderId) :
    tradedBy id (s.tradesOfSweep c) = Greedy.takenFrom (·.orderId) (s.sweepOf c).taken id :=
  tradedBy_tradesOf (taken_le h c.qty.toNat) id

/-- The sweep takes from the other side only. -/
theorem mem_of_taken (h : s.Ok) (c : Command) :
    ∀ t ∈ (s.sweepOf c).taken, t.1 ∈ s.resting c.side.opposite := fun t ht =>
  (Greedy.mem_of_mem_taken (amount_pos h c.side.opposite) t ht).1

/-- An order that does not rest on the other side is not traded with. -/
theorem tradedBy_of_absent (h : s.Ok) (hid : ∀ o ∈ s.resting c.side.opposite, o.orderId ≠ id) :
    tradedBy id (s.tradesOfSweep c) = 0 := by
  rw [tradedBy_sweep h]
  apply Greedy.takenFrom_of_absent
  intro t ht
  exact hid t.1 (mem_of_taken h c t ht)

/-- A command takes nothing from the orders of its own side. -/
theorem tradedBy_own (h : s.Ok) (c : Command) (ho : o ∈ s.resting c.side) :
    tradedBy o.orderId (s.tradesOfSweep c) = 0 := by
  apply tradedBy_of_absent h
  intro o' ho' he
  -- no id rests on both sides
  have hnd := ((orders_perm s c.side).map RestingOrder.orderId).nodup_iff.mp h.nodup
  rw [List.map_append] at hnd
  exact (List.nodup_append.mp hnd).2.2 _ (List.mem_map_of_mem ho) _ (List.mem_map_of_mem ho')
    he.symm

/-- No order trades more than it has. -/
theorem tradedBy_le (h : s.Ok) (c : Command) (ho : o ∈ s.orders) :
    tradedBy o.orderId (s.tradesOfSweep c) ≤ o.amount := by
  by_cases hs : o ∈ s.resting c.side.opposite
  · rw [tradedBy_sweep h]
    exact Greedy.takenFrom_le (keys_nodup h _) (amount_pos h _) hs
  · have hown : o ∈ s.resting c.side := by
      rcases List.mem_append.mp ((orders_perm s c.side).mem_iff.mp ho) with hown | hother
      · exact hown
      · exact absurd hother hs
    rw [tradedBy_own h c hown]
    exact Nat.zero_le _

/-- **The book after a sweep**: the trades are gone from it. -/
theorem orders_swept (h : s.Ok) (c : Command) :
    (s.swept c).orders = removeTrades (s.tradesOfSweep c) s.orders := by
  have hother : (s.swept c).resting c.side.opposite =
      removeTrades (s.tradesOfSweep c) (s.resting c.side.opposite) := by
    unfold swept
    rw [resting_afterSweep]
    exact queue_eq_removeTrades h c.qty.toNat c.id s.nextSeq s.nextTradeId
  have hown : (s.swept c).resting c.side =
      removeTrades (s.tradesOfSweep c) (s.resting c.side) := by
    have hne : c.side ≠ c.side.opposite := (Side.opposite_ne c.side).symm
    unfold swept
    rw [resting_afterSweep_of_ne hne]
    exact (removeTrades_of_untouched (fun o ho => tradedBy_own h c ho) (h.live c.side)).symm
  -- both sides together
  have hside : ∀ side, (s.swept c).resting side =
      removeTrades (s.tradesOfSweep c) (s.resting side) := by
    intro side
    by_cases hs : side = c.side
    · rw [hs]
      exact hown
    · have hs : side = c.side.opposite := by
        revert hs
        cases side <;> cases c.side <;> decide
      rw [hs]
      exact hother
  unfold orders
  rw [hside, hside, removeTrades, removeTrades, removeTrades, List.filterMap_append]

end PriorityBook

/-! ## The account of one order -/

section Account

variable {c : Command} {id : OrderId} {reply : Reply} {e : Option Tally}

theorem next_of_set {q : ℕ} (hset : quantitySet id c reply = some q) :
    Tally.next id e (c, reply) = some { value := q } := by
  unfold Tally.next
  rw [hset]

theorem next_of_unset (hset : quantitySet id c reply = none) :
    Tally.next id e (c, reply) = e.map fun e =>
      { e with
        traded := e.traded + tradedBy id reply.trades
        cancelled := e.cancelled || cancels id c reply } := by
  unfold Tally.next
  rw [hset]

/-- A command of another id sets nothing. -/
theorem quantitySet_of_ne (h : c.id ≠ id) (reply : Reply) : quantitySet id c reply = none :=
  if_neg h

/-- An order that does not rest sets nothing. -/
theorem quantitySet_added {r : AddResult} (h : r.restingQty = 0) :
    quantitySet id c (.added r) = none := by
  unfold quantitySet
  dsimp only
  rw [if_pos h, ite_self]

/-- A flag sets nothing, unless it is that of a modify. -/
theorem quantitySet_flag {ok : Bool} (h : ¬ (c.kind = .modify ∧ ok = true)) :
    quantitySet id c (.flag ok) = none := by
  unfold quantitySet
  dsimp only
  rw [if_neg h, ite_self]

theorem cancels_of_ne (h : c.id ≠ id) (reply : Reply) : cancels id c reply = false := by
  unfold cancels
  rw [decide_eq_false_iff_not]
  exact fun hc => h hc.2.1

theorem cancels_added (r : AddResult) : cancels id c (.added r) = false := by
  unfold cancels
  rw [decide_eq_false_iff_not]
  intro hc
  cases hc.2.2

end Account

namespace Balanced

open PriorityBook

variable {s s' : PriorityBook} {c : Command} {o : RestingOrder} {id : OrderId} {reply : Reply}
  {e : Option Tally} {l l' : List RestingOrder}

/-- Other orders do not matter. -/
theorem congr (h : Balanced id l e) (hl : ∀ o, o.orderId = id → (o ∈ l' ↔ o ∈ l)) :
    Balanced id l' e := by
  have hgone : (∀ o ∈ l, o.orderId ≠ id) → ∀ o ∈ l', o.orderId ≠ id := fun hno o ho hid =>
    hno o ((hl o hid).mp ho) hid
  cases h with
  | unknown hno => exact .unknown (hgone hno)
  | resting e o ho hid hsum hkept => exact .resting e o ((hl o hid).mpr ho) hid hsum hkept
  | left e hno hsum => exact .left e (hgone hno) hsum

/-- A command that does nothing to the order. -/
theorem idle (h : Balanced id l e) (hset : quantitySet id c reply = none)
    (htrades : tradedBy id reply.trades = 0) (hcancel : cancels id c reply = false) :
    Balanced id l (Tally.next id e (c, reply)) := by
  rw [next_of_unset hset, htrades, hcancel]
  cases e with
  | none => exact h
  | some e =>
    rw [Option.map_some, Nat.add_zero, Bool.or_false]
    exact h

/-- A command that gives the order a quantity. -/
theorem set (ho : o ∈ l) (hid : o.orderId = id) (hset : quantitySet id c reply = some o.amount) :
    Balanced id l (Tally.next id e (c, reply)) := by
  rw [next_of_set hset]
  exact .resting _ o ho hid rfl rfl

/-- A command that cancels the order. -/
theorem cancelled (hl : ∀ o ∈ l, o.orderId ≠ id) (hset : quantitySet id c reply = none)
    (hcancel : cancels id c reply = true) : Balanced id l (Tally.next id e (c, reply)) := by
  rw [next_of_unset hset, hcancel]
  cases e with
  | none => exact .unknown hl
  | some e =>
    refine .left _ hl fun hkept => ?_
    have hfalse : (e.cancelled || true) = false := hkept
    rw [Bool.or_true] at hfalse
    cases hfalse

/-- A command that sweeps: the order gives what was traded of it, and leaves if that was all. -/
theorem swept (hok : s.Ok) (h : Balanced id s.orders e) {r : AddResult}
    (htrades : r.trades = s.tradesOfSweep c) (hset : quantitySet id c (.added r) = none) :
    Balanced id (s.swept c).orders (Tally.next id e (c, .added r)) := by
  have hreply : (Reply.added r).trades = s.tradesOfSweep c := htrades
  rw [next_of_unset hset, cancels_added, hreply, orders_swept hok]
  -- an order that did not rest before does not rest now, and was not traded
  have hgone : (∀ o ∈ s.orders, o.orderId ≠ id) →
      (∀ o ∈ removeTrades (s.tradesOfSweep c) s.orders, o.orderId ≠ id) ∧
        tradedBy id (s.tradesOfSweep c) = 0 := by
    intro hno
    refine ⟨fun o ho => ?_, tradedBy_of_absent hok fun o ho => hno o (mem_orders.mpr ⟨_, ho⟩)⟩
    obtain ⟨o₁, ho₁, -, heq⟩ := mem_removeTrades.mp ho
    rw [← heq]
    exact hno o₁ ho₁
  cases h with
  | unknown hno => exact .unknown (hgone hno).1
  | left e hno hsum =>
    rw [(hgone hno).2]
    refine .left _ (hgone hno).1 fun hkept => ?_
    have hsame : (e.cancelled || false) = false := hkept
    rw [Bool.or_false] at hsame
    exact hsum hsame
  | resting e o ho hid hsum hkept =>
    subst hid
    have hle : tradedBy o.orderId (s.tradesOfSweep c) ≤ o.amount := tradedBy_le hok c ho
    by_cases hall : tradedBy o.orderId (s.tradesOfSweep c) = o.amount
    · -- traded as a whole
      refine .left _ (fun o' ho' hid => ?_) fun _ => ?_
      · obtain ⟨o₁, ho₁, hne, heq⟩ := mem_removeTrades.mp ho'
        have hsame : o₁ = o := by
          apply hok.eq_of_orderId ho₁ ho
          rw [← hid, ← heq]
          rfl
        rw [hsame] at hne
        exact hne hall
      · show e.traded + tradedBy o.orderId (s.tradesOfSweep c) = e.value
        omega
    · -- traded in part, or not at all
      refine .resting _ _ (mem_removeTrades.mpr ⟨o, ho, hall, rfl⟩) rfl ?_ ?_
      · have hamount := RestingOrder.amount_reduce hle
        show (o.reduce (tradedBy o.orderId (s.tradesOfSweep c))).amount +
          (e.traded + tradedBy o.orderId (s.tradesOfSweep c)) = e.value
        omega
      · show (e.cancelled || false) = false
        rw [hkept, Bool.or_false]

/-- An order that is changed in place, or at another place. -/
theorem amended (hok : s.Ok) (h : Balanced id s.orders e) (ho : o ∈ s.orders)
    (hid : o.orderId = c.id) (o' : RestingOrder) (hid' : o'.orderId = o.orderId)
    (hqty : o'.qty = c.qty) (hkind : c.kind = .modify)
    (hl : l.Perm (o' :: (s.remove o).orders)) :
    Balanced id l (Tally.next id e (c, .flag true)) := by
  by_cases hc : c.id = id
  · -- the order itself gets a new quantity
    have hset : quantitySet id c (.flag true) = some o'.amount := by
      unfold quantitySet
      rw [if_pos hc]
      dsimp only
      rw [if_pos ⟨hkind, rfl⟩, RestingOrder.amount, hqty]
    exact set (hl.mem_iff.mpr List.mem_cons_self) (hid'.trans (hid.trans hc)) hset
  · -- other orders are not touched
    have hidle := h.idle (quantitySet_of_ne hc (.flag true)) (tradedBy_nil id)
      (cancels_of_ne hc (.flag true))
    refine hidle.congr fun o₁ ho₁ => ?_
    rw [hl.mem_iff, (orders_remove hok ho).mem_iff, List.mem_cons, List.mem_cons]
    have hne' : o₁ ≠ o' := fun heq => hc (by rw [← hid, ← hid', ← heq, ho₁])
    have hne : o₁ ≠ o := fun heq => hc (by rw [← hid, ← heq, ho₁])
    exact or_congr (iff_of_false hne' hne) Iff.rfl

/-- **A command keeps the books in balance.** -/
theorem step (hok : s.Ok) (h : Balanced id s.orders e) (heff : Effect s c s' reply) :
    Balanced id s'.orders (Tally.next id e (c, reply)) := by
  have hidle : ∀ r : AddResult, r.trades = [] → r.restingQty = 0 →
      Balanced id s.orders (Tally.next id e (c, .added r)) := by
    intro r htrades hrest
    refine h.idle (quantitySet_added hrest) ?_ (cancels_added r)
    show tradedBy id r.trades = 0
    rw [htrades, tradedBy_nil]
  cases heff with
  | refused => exact hidle _ rfl rfl
  | killed => exact hidle _ rfl rfl
  | matched => exact swept hok h rfl (quantitySet_added rfl)
  | exhausted => exact swept hok h rfl (quantitySet_added rfl)
  | rested hq hid hrest hroom =>
    have hins := orders_insert (s.swept c) (s.residual c)
    -- the trades of this command are before the residual rests
    by_cases hc : c.id = id
    · -- the order itself comes to rest
      have hne : (s.residual c).qty ≠ 0 := ofNat_unmet_ne hrest.unmet
      refine set (hins.mem_iff.mpr List.mem_cons_self) hc ?_
      unfold quantitySet
      rw [if_pos hc]
      dsimp only
      rw [if_neg hne]
      rfl
    · have hswept := swept hok h (c := c)
        (r := { accepted := true, trades := s.tradesOfSweep c, restingQty := (s.residual c).qty })
        rfl (quantitySet_of_ne hc _)
      refine hswept.congr fun o ho => ?_
      rw [hins.mem_iff, List.mem_cons]
      have hne : o ≠ s.residual c := fun heq => hc (by rw [← ho, heq]; rfl)
      exact or_iff_right hne
  | ignored hkind =>
    refine h.idle (quantitySet_flag fun hset => Bool.noConfusion hset.2) (tradedBy_nil id) ?_
    unfold cancels
    rw [decide_eq_false_iff_not]
    intro hc
    cases hc.2.2
  | cancelled o hkind hfind =>
    obtain ⟨ho, hid⟩ := mem_of_find hfind
    have hok' : s.tick.Ok := hok.tick
    have hremoved := orders_remove hok' ho
    by_cases hc : c.id = id
    · -- the order itself is cancelled
      refine cancelled (fun o₁ ho₁ hid₁ => ?_) (quantitySet_flag fun hset => ?_) ?_
      · refine notMem_ids_remove hok' ho (mem_ids.mpr ⟨o₁, ho₁, ?_⟩)
        rw [hid₁, hid, hc]
      · rw [hkind] at hset
        cases hset.1
      · unfold cancels
        rw [decide_eq_true_iff]
        exact ⟨hkind, hc, rfl⟩
    · have hidle' := h.idle (quantitySet_of_ne hc (.flag true)) (tradedBy_nil id)
        (cancels_of_ne hc (.flag true))
      refine hidle'.congr fun o₁ ho₁ => ?_
      have hne : o₁ ≠ o := fun heq => hc (by rw [← hid, ← heq, ho₁])
      have hmem : o₁ ∈ s.orders ↔ _ := hremoved.mem_iff
      rw [hmem, List.mem_cons, or_iff_right hne]
  | reduced o hkind hfind =>
    obtain ⟨ho, hid⟩ := mem_of_find hfind
    exact amended hok.tick h ho hid { o with qty := c.qty } rfl rfl hkind
      (orders_setQty hok.tick ho c.qty)
  | moved o hkind hfind =>
    obtain ⟨ho, hid⟩ := mem_of_find hfind
    exact amended hok.tick h ho hid (s.modified o c) rfl rfl hkind (orders_insert _ _)

end Balanced

namespace PriorityBook

variable {s s' : PriorityBook} {c : Command} {reply : Reply}

/-! ## The account of one command -/

/-- What is wanted is traded or left over. -/
theorem volume_sweep (h : s.Ok) (c : Command) :
    volume (s.tradesOfSweep c) + (s.sweepOf c).unmet = c.qty.toNat := by
  have hvolume : volume (s.tradesOfSweep c) = ((s.sweepOf c).taken.map Prod.snd).sum :=
    volume_tradesOf (taken_le h c.qty.toNat)
  rw [hvolume]
  unfold sweepOf sweep
  rw [RestingOrder.sweep, Greedy.sweep_eq]
  dsimp only
  rw [Greedy.sum_takes]
  omega

/-- **Nothing of an order is lost.** -/
theorem Effect.accounted (h : s.Ok) {r : AddResult} (heff : Effect s c s' (.added r))
    (hacc : r.accepted = true) : Accounted c r := by
  have hsum := volume_sweep h c
  -- what is dropped is what no trade met and what does not rest
  cases heff with
  | refused => cases hacc
  | killed hkind htif => exact ⟨c.qty.toNat, by simp [volume], fun _ => by simp [htif]⟩
  | matched hadds hq hid hrest =>
    refine ⟨(s.sweepOf c).unmet, ?_, fun hne => ?_⟩
    · show c.qty.toNat = volume (s.tradesOfSweep c) + 0 + (s.sweepOf c).unmet
      omega
    · -- what is left could not rest
      by_cases hstop : (s.sweepOf c).stopped = true
      · exact Or.inr (Or.inr (Or.inr (Or.inl hstop)))
      · rcases hadds with hkind | hkind
        · cases htif : c.tif with
          | gtc => exact absurd ⟨hkind, htif, by simpa using hstop, Nat.pos_of_ne_zero hne⟩ hrest
          | ioc => exact Or.inr (Or.inl rfl)
          | fok => exact Or.inr (Or.inr (Or.inl rfl))
        · exact Or.inl hkind
  | exhausted hq hid hrest =>
    refine ⟨(s.sweepOf c).unmet, ?_, fun _ => by simp⟩
    show c.qty.toNat = volume (s.tradesOfSweep c) + 0 + (s.sweepOf c).unmet
    omega
  | rested hq hid hrest =>
    have hqty : (s.residual c).qty.toNat = (s.sweepOf c).unmet :=
      toNat_ofNat_qty (unmet_le_qty s c.side c.limit c.account)
    refine ⟨0, ?_, fun hne => absurd rfl hne⟩
    show c.qty.toNat = volume (s.tradesOfSweep c) + (s.residual c).qty.toNat + 0
    omega

/-- No trade is empty. -/
theorem trades_pos (h : s.Ok) (c : Command) : ∀ t ∈ s.tradesOfSweep c, 1 ≤ t.qty.toNat := by
  have hpos : ∀ t ∈ (s.sweepOf c).taken, 0 < t.2 ∧ t.2 ≤ t.1.amount := fun t ht =>
    ⟨Greedy.taken_pos (amount_pos h c.side.opposite) t ht, taken_le h c.qty.toNat t ht⟩
  unfold tradesOfSweep
  generalize (s.sweepOf c).taken = taken at hpos
  generalize s.nextTradeId = tradeId
  -- along the orders taken, with the trade number running
  induction taken generalizing tradeId with
  | nil => exact fun t ht => absurd ht List.not_mem_nil
  | cons x taken ih =>
    obtain ⟨hx, htaken⟩ := List.forall_mem_cons.mp hpos
    rw [tradesOf, List.forall_mem_cons]
    refine ⟨?_, ih htaken (tradeId + 1)⟩
    show 1 ≤ (UInt32.ofNat x.2).toNat
    rw [toNat_ofNat_qty hx.2]
    exact hx.1

/-- **Every trade is a trade of something.** -/
theorem Effect.trades_pos (h : s.Ok) (heff : Effect s c s' reply) :
    ∀ t ∈ reply.trades, 1 ≤ t.qty.toNat := by
  have hnone : ∀ t ∈ ([] : List Trade), 1 ≤ t.qty.toNat := fun t ht => absurd ht List.not_mem_nil
  cases heff with
  | refused | killed | ignored | cancelled | reduced | moved => exact hnone
  | matched | exhausted | rested => exact PriorityBook.trades_pos h c

end PriorityBook

end MatchingEngine
