import MatchingEngine.Spec.Snapshot

/-!
# What a command can do

A command ends in one of nine ways (`Effect`), and `exec` in no other (`exec_effect`). What
holds over all runs is proved from these nine, without another look at the commands.
-/

namespace MatchingEngine

open PriorityList

/-- The trades that a reply tells. -/
def Reply.trades : Reply → List Trade
  | .added r => r.trades
  | .flag _ => []

/-- The price limit of an order to be matched. -/
def Command.limit (c : Command) : Option Price :=
  match c.kind with
  | .market => none
  | _ => some c.price

/-- The command adds an order. -/
def Command.Adds (c : Command) : Prop := c.kind = .limit ∨ c.kind = .market

namespace PriorityBook

variable {s : PriorityBook} {c : Command} {side taker : Side} {o : RestingOrder}
  {limit : Option Price} {account : Account} {q : ℕ} {id : OrderId} {seq : SeqNo}
  {tradeId : UInt64}

/-! ## The nine ways -/

/-- What the order of a command takes. -/
def sweepOf (s : PriorityBook) (c : Command) : Greedy.Outcome RestingOrder :=
  s.sweep c.side c.limit c.account c.qty.toNat

/-- The trades of the sweep that a command makes. -/
def tradesOfSweep (s : PriorityBook) (c : Command) : List Trade :=
  tradesOf c.id s.nextSeq s.nextTradeId (s.sweepOf c).taken

/-- The book after the order of a command was matched. -/
def swept (s : PriorityBook) (c : Command) : PriorityBook :=
  s.tick.afterSweep c.side (s.sweepOf c)

/-- What is left of the order of a command. -/
def residual (s : PriorityBook) (c : Command) : RestingOrder :=
  ⟨c.side, c.price, c.id, UInt32.ofNat (s.sweepOf c).unmet, c.account, s.nextSeq⟩

/-- An order that was modified, at its new place. -/
def modified (s : PriorityBook) (o : RestingOrder) (c : Command) : RestingOrder :=
  { o with price := c.price, qty := c.qty, seqNo := s.nextSeq }

/-- A residual that may rest. -/
structure MayRest (s : PriorityBook) (c : Command) : Prop where
  kind : c.kind = .limit
  tif : c.tif = .gtc
  unstopped : (s.sweepOf c).stopped = false
  unmet : 0 < (s.sweepOf c).unmet

/-- What a command can do to the book, one case for each outcome. -/
inductive Effect (s : PriorityBook) (c : Command) : PriorityBook → Reply → Prop where
  /-- No quantity, or an id that rests already. -/
  | refused (hadds : c.Adds) (hbad : c.qty = 0 ∨ c.id ∈ s.ids) : Effect s c s.tick (.added {})
  /-- A fill-or-kill order that does not find enough. -/
  | killed (hkind : c.kind = .limit) (htif : c.tif = .fok) :
      Effect s c s.tick (.added { accepted := true })
  /-- Matched, with nothing left that could rest. -/
  | matched (hadds : c.Adds) (hq : c.qty ≠ 0) (hid : c.id ∉ s.ids) (hrest : ¬ s.MayRest c) :
      Effect s c (s.swept c) (.added
        { accepted := true, trades := s.tradesOfSweep c, stpRejected := (s.sweepOf c).stopped })
  /-- Matched, and no room for what is left. -/
  | exhausted (hq : c.qty ≠ 0) (hid : c.id ∉ s.ids) (hrest : s.MayRest c)
      (hfull : (s.swept c).orders.length = s.capacity) :
      Effect s c (s.swept c) (.added
        { accepted := true, trades := s.tradesOfSweep c, poolExhausted := true })
  /-- Matched, and what is left rests. -/
  | rested (hq : c.qty ≠ 0) (hid : c.id ∉ s.ids) (hrest : s.MayRest c)
      (hroom : (s.swept c).orders.length < s.capacity) :
      Effect s c ((s.swept c).insert (s.residual c)) (.added
        { accepted := true, trades := s.tradesOfSweep c, restingQty := (s.residual c).qty })
  /-- A cancel or modify that finds nothing to do, or must not do it. -/
  | ignored (hkind : c.kind = .cancel ∨ c.kind = .modify) : Effect s c s.tick (.flag false)
  | cancelled (o : RestingOrder) (hkind : c.kind = .cancel) (hfind : s.find c.id = some o) :
      Effect s c (s.tick.remove o) (.flag true)
  /-- Modified in place. -/
  | reduced (o : RestingOrder) (hkind : c.kind = .modify) (hfind : s.find c.id = some o)
      (hq : c.qty ≠ 0) (hprice : c.price = o.price) (hle : c.qty ≤ o.qty) :
      Effect s c (s.tick.setQty o c.qty) (.flag true)
  /-- Modified, and put behind the others at its price. -/
  | moved (o : RestingOrder) (hkind : c.kind = .modify) (hfind : s.find c.id = some o)
      (hq : c.qty ≠ 0) (hplace : ¬ (c.price = o.price ∧ c.qty ≤ o.qty)) :
      Effect s c ((s.tick.remove o).insert (s.modified o c)) (.flag true)

/-- A limit order has one of the effects of an order that is added. -/
theorem addLimit_effect (h : s.Ok) (gate : ℕ → ℕ) (hkind : c.kind = .limit) :
    Effect s c (s.addLimit gate c.id c.side c.price c.qty c.account c.tif).1
      (.added (s.addLimit gate c.id c.side c.price c.qty c.account c.tif).2) := by
  have hlimit : c.limit = some c.price := by
    unfold Command.limit
    rw [hkind]
  have hsweep : s.sweep c.side (some c.price) c.account c.qty.toNat = s.sweepOf c := by
    rw [sweepOf, hlimit]
  have hfits : (s.swept c).orders.length ≤ s.capacity :=
    (h.tick.afterSweep c.side c.limit c.account c.qty.toNat).fits
  unfold addLimit
  -- the branches of `addLimit`, in their order
  by_cases hbad : c.qty = 0 ∨ c.id ∈ s.ids
  · rw [if_pos hbad]
    exact .refused (Or.inl hkind) hbad
  rw [if_neg hbad]
  rw [not_or] at hbad
  by_cases hfok : c.tif = .fok ∧ gate (s.available c.side (some c.price) c.account) < c.qty.toNat
  · rw [if_pos hfok]
    exact .killed hkind hfok.1
  rw [if_neg hfok, hsweep]
  by_cases hmay : c.tif = .gtc ∧ (s.sweepOf c).stopped = false ∧ 0 < (s.sweepOf c).unmet
  · have hrest : s.MayRest c := ⟨hkind, hmay.1, hmay.2.1, hmay.2.2⟩
    have hstop : (s.sweepOf c).stopped = false := hmay.2.1
    dsimp only
    -- a residual is left, and the room decides
    rw [if_pos hmay, restResidual, hstop]
    split
    · next hroom => exact .rested hbad.1 hbad.2 hrest hroom
    · next hfull => exact .exhausted hbad.1 hbad.2 hrest (le_antisymm hfits (not_lt.mp hfull))
  · dsimp only
    rw [if_neg hmay]
    exact .matched (Or.inl hkind) hbad.1 hbad.2 fun hrest =>
      hmay ⟨hrest.tif, hrest.unstopped, hrest.unmet⟩

/-- A market order is refused or matched. -/
theorem addMarket_effect (hkind : c.kind = .market) :
    Effect s c (s.addMarket c.id c.side c.qty c.account).1
      (.added (s.addMarket c.id c.side c.qty c.account).2) := by
  have hsweep : s.sweep c.side none c.account c.qty.toNat = s.sweepOf c := by
    unfold sweepOf Command.limit
    rw [hkind]
  unfold addMarket
  by_cases hbad : c.qty = 0 ∨ c.id ∈ s.ids
  · rw [if_pos hbad]
    exact .refused (Or.inr hkind) hbad
  · rw [if_neg hbad, hsweep]
    rw [not_or] at hbad
    -- what is left of a market order never rests
    refine .matched (Or.inr hkind) hbad.1 hbad.2 fun hrest => ?_
    have hlimit := hrest.kind
    rw [hkind] at hlimit
    cases hlimit

/-- A cancel is ignored or takes its order out. -/
theorem cancel_effect (hkind : c.kind = .cancel) :
    Effect s c (s.cancel c.id).1 (.flag (s.cancel c.id).2) := by
  unfold cancel
  cases hfind : s.find c.id with
  | none => exact .ignored (Or.inl hkind)
  | some o => exact .cancelled o hkind hfind

/-- A modify is ignored, reduces its order in place or moves it. -/
theorem modify_effect (hkind : c.kind = .modify) :
    Effect s c (s.modify c.id c.price c.qty).1 (.flag (s.modify c.id c.price c.qty).2) := by
  unfold modify
  by_cases hq : c.qty = 0
  · rw [if_pos hq]
    exact .ignored (Or.inr hkind)
  rw [if_neg hq]
  cases hfind : s.find c.id with
  | none => exact .ignored (Or.inr hkind)
  | some o =>
    dsimp only
    -- in place, or turned away because it would trade, or at a new place
    by_cases hplace : c.price = o.price ∧ c.qty ≤ o.qty
    · rw [if_pos hplace]
      exact .reduced o hkind hfind hq hplace.1 hplace.2
    rw [if_neg hplace]
    by_cases hcross : s.wouldTrade o.side c.price = true
    · rw [if_pos hcross]
      exact .ignored (Or.inr hkind)
    · rw [if_neg hcross]
      exact .moved o hkind hfind hq hplace

/-- **A command can do nothing else.** -/
theorem exec_effect (h : s.Ok) (gate : ℕ → ℕ) (c : Command) :
    Effect s c (s.exec gate c).1 (s.exec gate c).2 := by
  unfold exec
  cases hkind : c.kind with
  | limit => exact addLimit_effect h gate hkind
  | market => exact addMarket_effect hkind
  | cancel => exact cancel_effect hkind
  | modify => exact modify_effect hkind

/-- No command changes the capacity. -/
theorem Effect.capacity {s' : PriorityBook} {reply : Reply} (heff : Effect s c s' reply) :
    s'.capacity = s.capacity := by
  cases heff <;> rfl

end PriorityBook

end MatchingEngine
