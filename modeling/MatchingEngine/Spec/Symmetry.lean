import MatchingEngine.Spec.Effect

/-!
# Symmetries of the book

A `Symmetry` renames order ids and accounts, and may exchange the sides and move the prices,
as long as different ids and accounts stay different and a better price stays a better one.
The book cannot notice it: what it does to the renamed commands is what it does to the
commands, renamed (`exec_symmetry`).
-/

namespace MatchingEngine

open PriorityList

/-- A renaming of sides, prices, ids and accounts that keeps what the book compares: which side is
opposite, which of two prices is the better, which ids and accounts are equal. -/
structure Symmetry where
  side : Side → Side
  price : Price → Price
  orderId : OrderId → OrderId
  account : Account → Account
  side_opposite : ∀ s, side s.opposite = (side s).opposite
  side_side : ∀ s, side (side s) = s
  rank_le : ∀ s p q, (side s).best.rank (price p) ≤ (side s).best.rank (price q) ↔
    s.best.rank p ≤ s.best.rank q
  orderId_injective : Function.Injective orderId
  account_injective : Function.Injective account

namespace Symmetry

variable (σ : Symmetry)

/-- The renamed resting order; its quantity and number stay. -/
def order (o : RestingOrder) : RestingOrder :=
  { o with
    side := σ.side o.side, price := σ.price o.price, orderId := σ.orderId o.orderId
    account := σ.account o.account }

/-- The renamed trade; its quantity and its numbers stay. -/
def trade (t : Trade) : Trade :=
  { t with
    makerOrderId := σ.orderId t.makerOrderId, takerOrderId := σ.orderId t.takerOrderId
    price := σ.price t.price }

/-- The renamed command. -/
def command (c : Command) : Command :=
  { c with
    id := σ.orderId c.id, side := σ.side c.side, price := σ.price c.price
    account := σ.account c.account }

/-- The renamed result of an order command. -/
def result (r : AddResult) : AddResult := { r with trades := r.trades.map σ.trade }

/-- The renamed reply. -/
def reply : Reply → Reply
  | .added r => .added (σ.result r)
  | .flag ok => .flag ok

/-- The renamed book: each queue goes to the side its own side is renamed to. -/
def book (s : PriorityBook) : PriorityBook :=
  { s with resting := fun side => (s.resting (σ.side side)).map σ.order }

/-! ## Prices and sides -/

/-- The renaming keeps the order of priority. -/
theorem rank_lt (side : Side) (p q : Price) :
    (σ.side side).best.rank (σ.price p) < (σ.side side).best.rank (σ.price q) ↔
      side.best.rank p < side.best.rank q := by
  rw [← not_le, ← not_le, σ.rank_le]

/-- Prices are renamed one to one. -/
theorem price_inj {p q : Price} : σ.price p = σ.price q ↔ p = q := by
  constructor
  · intro h
    have hle : (σ.side .buy).best.rank (σ.price p) ≤ (σ.side .buy).best.rank (σ.price q) := by
      rw [h]
    have hge : (σ.side .buy).best.rank (σ.price q) ≤ (σ.side .buy).best.rank (σ.price p) := by
      rw [h]
    rw [σ.rank_le] at hle hge
    exact Best.rank_inj.mp (le_antisymm hle hge)
  · exact congrArg σ.price

/-- Sides are renamed one to one. -/
theorem side_inj {side side' : Side} : σ.side side = σ.side side' ↔ side = side' := by
  constructor
  · intro h
    rw [← σ.side_side side, h, σ.side_side]
  · exact congrArg σ.side

/-- Being within the limit is a bound on the rank, so it does not change. -/
theorem reaches_symmetry (taker : Side) (limit : Option Price) (p : Price) :
    reaches (σ.side taker) (limit.map σ.price) (σ.price p) = reaches taker limit p := by
  cases limit with
  | none => rfl
  | some limit =>
    rw [Bool.eq_iff_iff, Option.map_some, reaches_iff, reaches_iff, ← σ.side_opposite, σ.rank_le]

theorem account_beq (o : RestingOrder) (account : Account) :
    ((σ.order o).account == σ.account account) = (o.account == account) := by
  rw [Bool.eq_iff_iff, beq_iff_eq, beq_iff_eq]
  exact σ.account_injective.eq_iff

/-! ## Orders of the book -/

variable {s : PriorityBook} {o : RestingOrder} {id : OrderId} {c : Command}

/-- The queue of a renamed side is the renamed queue. -/
theorem resting_book (s : PriorityBook) (side : Side) :
    (σ.book s).resting (σ.side side) = (s.resting side).map σ.order := by
  show (s.resting (σ.side (σ.side side))).map σ.order = _
  rw [σ.side_side]

/-- The resting orders of the renamed book are the renamed ones, up to the order of the two
sides. -/
theorem orders_book (s : PriorityBook) : (σ.book s).orders.Perm (s.orders.map σ.order) := by
  have hperm := PriorityBook.orders_perm (σ.book s) (σ.side .buy)
  rw [← σ.side_opposite, σ.resting_book, σ.resting_book, ← List.map_append] at hperm
  exact hperm

theorem length_orders_book (s : PriorityBook) : (σ.book s).orders.length = s.orders.length := by
  rw [(σ.orders_book s).length_eq, List.length_map]

theorem ids_book (s : PriorityBook) : (σ.book s).ids.Perm (s.ids.map σ.orderId) := by
  have hperm := (σ.orders_book s).map RestingOrder.orderId
  rw [List.map_map] at hperm
  unfold PriorityBook.ids
  rw [List.map_map]
  exact hperm

/-- An id is live in the renamed book exactly if it was live before. -/
theorem mem_ids_book : σ.orderId id ∈ (σ.book s).ids ↔ id ∈ s.ids := by
  rw [(σ.ids_book s).mem_iff]
  exact List.mem_map_of_injective σ.orderId_injective

/-- A lookup by the renamed id finds the renamed order; ids are distinct, so the order of the sides
does not matter. -/
theorem find_book (h : s.ids.Nodup) (id : OrderId) :
    (σ.book s).find (σ.orderId id) = (s.find id).map σ.order := by
  cases hfind : s.find id with
  | none =>
    rw [PriorityBook.find_eq_none] at hfind
    rw [Option.map_none, PriorityBook.find_eq_none, σ.mem_ids_book]
    exact hfind
  | some o =>
    obtain ⟨ho, hid⟩ := PriorityBook.mem_of_find hfind
    have hmem : σ.order o ∈ (σ.book s).orders :=
      (σ.orders_book s).mem_iff.mpr (List.mem_map_of_mem ho)
    -- the order is there, and no other order has its id
    cases hfound : (σ.book s).find (σ.orderId id) with
    | none =>
      rw [PriorityBook.find_eq_none, σ.mem_ids_book] at hfound
      exact absurd (PriorityBook.mem_ids.mpr ⟨o, ho, hid⟩) hfound
    | some o' =>
      obtain ⟨ho', hid'⟩ := PriorityBook.mem_of_find hfound
      have hnd : (σ.book s).ids.Nodup := by
        rw [(σ.ids_book s).nodup_iff]
        exact h.map σ.orderId_injective
      have hids : o'.orderId = (σ.order o).orderId := by
        rw [hid', ← hid]
        rfl
      rw [Option.map_some, List.inj_on_of_nodup_map hnd ho' hmem hids]

/-! ## Operations -/

theorem setSide_book (s : PriorityBook) (side : Side) (l : List RestingOrder) :
    (σ.book s).setSide (σ.side side) (l.map σ.order) = σ.book (s.setSide side l) := by
  have hresting : ((σ.book s).setSide (σ.side side) (l.map σ.order)).resting =
      (σ.book (s.setSide side l)).resting := by
    -- every side is the image of one
    funext side'
    obtain ⟨side', rfl⟩ : ∃ t, σ.side t = side' := ⟨σ.side side', σ.side_side side'⟩
    rw [σ.resting_book]
    by_cases hs : side' = side
    · rw [hs, PriorityBook.resting_setSide, PriorityBook.resting_setSide]
    · have hs' : σ.side side' ≠ σ.side side := fun heq => hs (σ.side_inj.mp heq)
      rw [PriorityBook.resting_setSide_of_ne hs', PriorityBook.resting_setSide_of_ne hs,
        σ.resting_book]
  exact congrArg (fun resting => ({ s with resting } : PriorityBook)) hresting

/-- A sweep of the renamed book is the renamed sweep. -/
theorem sweep_book (s : PriorityBook) (taker : Side) (limit : Option Price) (account : Account)
    (q : ℕ) :
    (σ.book s).sweep (σ.side taker) (limit.map σ.price) (σ.account account) q =
      (s.sweep taker limit account q).map σ.order := by
  unfold PriorityBook.sweep
  rw [← σ.side_opposite, σ.resting_book]
  exact Greedy.sweep_map (fun _ => rfl) (fun _ _ => rfl)
    (fun o => σ.reaches_symmetry taker limit o.price) fun o => σ.account_beq o account

/-- The renaming keeps the quantity available. -/
theorem available_book (s : PriorityBook) (taker : Side) (limit : Option Price)
    (account : Account) :
    (σ.book s).available (σ.side taker) (limit.map σ.price) (σ.account account) =
      s.available taker limit account := by
  unfold PriorityBook.available RestingOrder.available Greedy.eligible Greedy.total
  rw [← σ.side_opposite, σ.resting_book, List.takeWhile_map, List.takeWhile_map, List.map_map]
  have hreach : (fun o : RestingOrder => reaches (σ.side taker) (limit.map σ.price) o.price) ∘
      σ.order = fun o => reaches taker limit o.price :=
    funext fun o => σ.reaches_symmetry taker limit o.price
  have hbarred : (fun o : RestingOrder => !(o.account == σ.account account)) ∘ σ.order =
      fun o => !(o.account == account) :=
    funext fun o => congrArg Bool.not (σ.account_beq o account)
  rw [hreach, hbarred]
  rfl

/-- The renaming keeps whether an order would trade. -/
theorem wouldTrade_book (s : PriorityBook) (side : Side) (price : Price) :
    (σ.book s).wouldTrade (σ.side side) (σ.price price) = s.wouldTrade side price := by
  unfold PriorityBook.wouldTrade
  rw [← σ.side_opposite, σ.resting_book, List.any_map]
  congr 1
  funext o
  exact σ.reaches_symmetry side (some price) o.price

/-- The book after a sweep is renamed with it. -/
theorem afterSweep_book (s : PriorityBook) (taker : Side) (r : Greedy.Outcome RestingOrder) :
    (σ.book s).afterSweep (σ.side taker) (r.map σ.order) = σ.book (s.afterSweep taker r) := by
  have hset := σ.setSide_book s taker.opposite r.queue
  rw [σ.side_opposite] at hset
  have hlen : (r.map σ.order).taken.length = r.taken.length := List.length_map _
  unfold PriorityBook.afterSweep
  rw [hlen]
  exact congrArg (fun t : PriorityBook =>
    { t with nextTradeId := s.nextTradeId + UInt64.ofNat r.taken.length }) hset

/-- Insertion commutes with the renaming. -/
theorem insert_book (s : PriorityBook) (o : RestingOrder) :
    (σ.book s).insert (σ.order o) = σ.book (s.insert o) := by
  have hkey : ∀ a b : RestingOrder, RestingOrder.rank (σ.side o.side) (σ.order a) <
      RestingOrder.rank (σ.side o.side) (σ.order b) ↔
        RestingOrder.rank o.side a < RestingOrder.rank o.side b :=
    fun a b => σ.rank_lt o.side a.price b.price
  unfold PriorityBook.insert
  rw [← σ.setSide_book, ← enqueue_map hkey, ← σ.resting_book]
  rfl

/-- Removal commutes with the renaming. -/
theorem remove_book (s : PriorityBook) (o : RestingOrder) :
    (σ.book s).remove (σ.order o) = σ.book (s.remove o) := by
  have hkeep : (fun o' : RestingOrder => o'.orderId != (σ.order o).orderId) ∘ σ.order =
      fun o' => o'.orderId != o.orderId := by
    funext o'
    show (σ.orderId o'.orderId != σ.orderId o.orderId) = _
    rw [Bool.eq_iff_iff, bne_iff_ne, bne_iff_ne, σ.orderId_injective.ne_iff]
  unfold PriorityBook.remove
  rw [← σ.setSide_book, ← hkeep, ← List.filter_map, ← σ.resting_book]
  rfl

/-- A change of quantity commutes with the renaming. -/
theorem setQty_book (s : PriorityBook) (o : RestingOrder) (qty : Qty) :
    (σ.book s).setQty (σ.order o) qty = σ.book (s.setQty o qty) := by
  unfold PriorityBook.setQty
  rw [← σ.setSide_book, List.map_map]
  show (σ.book s).setSide (σ.side o.side) (((σ.book s).resting (σ.side o.side)).map _) = _
  rw [σ.resting_book, List.map_map]
  congr 1
  -- the order with the id is the same one
  refine List.map_congr_left fun o' _ => ?_
  show (if σ.orderId o'.orderId = σ.orderId o.orderId then { σ.order o' with qty } else σ.order o')
    = σ.order (if o'.orderId = o.orderId then { o' with qty } else o')
  by_cases hid : o'.orderId = o.orderId
  · rw [if_pos hid, if_pos (congrArg _ hid)]
    rfl
  · rw [if_neg hid, if_neg fun heq => hid (σ.orderId_injective heq)]

/-- The trades of the renamed sweep are the renamed trades. -/
theorem tradesOf_symmetry (taker : OrderId) (seq : SeqNo) (tradeId : UInt64)
    (taken : List (RestingOrder × ℕ)) :
    tradesOf (σ.orderId taker) seq tradeId (taken.map fun t => (σ.order t.1, t.2)) =
      (tradesOf taker seq tradeId taken).map σ.trade := by
  induction taken generalizing tradeId with
  | nil => rfl
  | cons t taken ih =>
    rw [List.map_cons, tradesOf, tradesOf, ih]
    rfl

/-! ## Commands -/

theorem tick_book (s : PriorityBook) : (σ.book s).tick = σ.book s.tick := rfl

/-- What a command is turned away for does not change. -/
theorem refused_book (s : PriorityBook) (qty : Qty) (id : OrderId) :
    (qty = 0 ∨ σ.orderId id ∈ (σ.book s).ids) ↔ (qty = 0 ∨ id ∈ s.ids) :=
  or_congr_right σ.mem_ids_book

/-- Resting a residual commutes with the renaming. -/
theorem restResidual_book (s : PriorityBook) (o : RestingOrder) (r : AddResult) :
    (σ.book s).restResidual (σ.order o) (σ.result r) =
      (σ.book (s.restResidual o r).1, σ.result (s.restResidual o r).2) := by
  unfold PriorityBook.restResidual
  rw [σ.length_orders_book, σ.insert_book]
  show (if s.orders.length < s.capacity then _ else _) = _
  split
  · rfl
  · rfl

/-- The result of a sweep, renamed. -/
theorem result_sweep (id : OrderId) (seq : SeqNo) (tradeId : UInt64)
    (r : Greedy.Outcome RestingOrder) :
    σ.result { accepted := true, trades := tradesOf id seq tradeId r.taken,
               stpRejected := r.stopped } =
      { accepted := true, trades := tradesOf (σ.orderId id) seq tradeId (r.map σ.order).taken,
        stpRejected := r.stopped } := by
  unfold Greedy.Outcome.map
  dsimp only
  rw [σ.tradesOf_symmetry]
  rfl

/-- A limit order commutes with the renaming. -/
theorem addLimit_book (s : PriorityBook) (gate : ℕ → ℕ) (id : OrderId) (side : Side)
    (price : Price) (qty : Qty) (account : Account) (tif : TimeInForce) :
    (σ.book s).addLimit gate (σ.orderId id) (σ.side side) (σ.price price) qty (σ.account account)
        tif =
      (σ.book (s.addLimit gate id side price qty account tif).1,
        σ.result (s.addLimit gate id side price qty account tif).2) := by
  have havailable := σ.available_book s side (some price) account
  have hsweep := σ.sweep_book s side (some price) account qty.toNat
  rw [Option.map_some] at havailable hsweep
  unfold PriorityBook.addLimit
  rw [havailable, hsweep]
  by_cases hbad : qty = 0 ∨ id ∈ s.ids
  · rw [if_pos hbad, if_pos ((σ.refused_book s qty id).mpr hbad)]
    rfl
  rw [if_neg hbad, if_neg (mt (σ.refused_book s qty id).mp hbad)]
  split
  · rfl
  generalize s.sweep side (some price) account qty.toNat = r
  -- what was swept is the same, renamed
  have hswept := σ.afterSweep_book s.tick side r
  have hresult := σ.result_sweep id s.nextSeq s.nextTradeId r
  dsimp only
  by_cases hrest : tif = .gtc ∧ r.stopped = false ∧ 0 < r.unmet
  · have hrests := σ.restResidual_book (s.tick.afterSweep side r)
      ⟨side, price, id, UInt32.ofNat r.unmet, account, s.nextSeq⟩
      { accepted := true, trades := tradesOf id s.nextSeq s.nextTradeId r.taken,
        stpRejected := r.stopped }
    rw [← hswept, hresult] at hrests
    rw [if_pos hrest]
    exact (if_pos hrest).trans hrests
  · rw [if_neg hrest, ← hswept, hresult]
    exact if_neg hrest

/-- A market order commutes with the renaming. -/
theorem addMarket_book (s : PriorityBook) (id : OrderId) (side : Side) (qty : Qty)
    (account : Account) :
    (σ.book s).addMarket (σ.orderId id) (σ.side side) qty (σ.account account) =
      (σ.book (s.addMarket id side qty account).1,
        σ.result (s.addMarket id side qty account).2) := by
  have hsweep := σ.sweep_book s side none account qty.toNat
  rw [Option.map_none] at hsweep
  unfold PriorityBook.addMarket
  rw [hsweep]
  by_cases hbad : qty = 0 ∨ id ∈ s.ids
  · rw [if_pos hbad, if_pos ((σ.refused_book s qty id).mpr hbad)]
    rfl
  · rw [if_neg hbad, if_neg (mt (σ.refused_book s qty id).mp hbad)]
    dsimp only
    rw [← σ.afterSweep_book, σ.result_sweep]
    rfl

/-- A cancel commutes with the renaming. -/
theorem cancel_book (h : s.Ok) (id : OrderId) :
    (σ.book s).cancel (σ.orderId id) = (σ.book (s.cancel id).1, (s.cancel id).2) := by
  unfold PriorityBook.cancel
  rw [σ.find_book h.nodup]
  cases s.find id with
  | none => rfl
  | some o =>
    show ((σ.book s).tick.remove (σ.order o), true) = _
    rw [σ.tick_book, σ.remove_book]

/-- A modify commutes with the renaming. -/
theorem modify_book (h : s.Ok) (id : OrderId) (newPrice : Price) (newQty : Qty) :
    (σ.book s).modify (σ.orderId id) (σ.price newPrice) newQty =
      (σ.book (s.modify id newPrice newQty).1, (s.modify id newPrice newQty).2) := by
  unfold PriorityBook.modify
  rw [σ.find_book h.nodup]
  by_cases hq : newQty = 0
  · rw [if_pos hq, if_pos hq]
    rfl
  rw [if_neg hq, if_neg hq]
  cases s.find id with
  | none => rfl
  | some o =>
    have hplace : (σ.price newPrice = σ.price o.price ∧ newQty ≤ o.qty) ↔
        (newPrice = o.price ∧ newQty ≤ o.qty) := and_congr_left' σ.price_inj
    have hprice : (σ.order o).price = σ.price o.price := rfl
    have hqty : (σ.order o).qty = o.qty := rfl
    have hside : (σ.order o).side = σ.side o.side := rfl
    dsimp only [Option.map_some]
    rw [hprice, hqty, hside, σ.wouldTrade_book, σ.tick_book, σ.setQty_book, σ.remove_book]
    -- the branches are decided by prices and quantities that compare as before
    by_cases hp : newPrice = o.price ∧ newQty ≤ o.qty
    · rw [if_pos hp, if_pos (hplace.mpr hp)]
    rw [if_neg hp, if_neg (mt hplace.mp hp)]
    split
    · rfl
    · have hins := σ.insert_book (s.tick.remove o)
        { o with price := newPrice, qty := newQty, seqNo := s.nextSeq }
      exact congrArg (fun t => (t, true)) hins

/-- **A command on the renamed book** does the same, renamed. -/
theorem exec_symmetry (h : s.Ok) (gate : ℕ → ℕ) (c : Command) :
    (σ.book s).exec gate (σ.command c) =
      (σ.book (s.exec gate c).1, σ.reply (s.exec gate c).2) := by
  have hkind : (σ.command c).kind = c.kind := rfl
  unfold PriorityBook.exec
  rw [hkind]
  cases c.kind with
  | limit =>
    have hadd := σ.addLimit_book s gate c.id c.side c.price c.qty c.account c.tif
    exact congrArg (fun p => (p.1, Reply.added p.2)) hadd
  | market =>
    have hadd := σ.addMarket_book s c.id c.side c.qty c.account
    exact congrArg (fun p => (p.1, Reply.added p.2)) hadd
  | cancel =>
    have hcancel := σ.cancel_book h c.id
    exact congrArg (fun p => (p.1, Reply.flag p.2)) hcancel
  | modify =>
    have hmodify := σ.modify_book h c.id c.price c.qty
    exact congrArg (fun p => (p.1, Reply.flag p.2)) hmodify

end Symmetry

end MatchingEngine
