import MatchingEngine.Oracle.OracleTheorems
import MatchingEngine.Spec.Snapshot

/-!
# The reference implementation — commands

`Oracle.Mirrors r s`: the vector of the oracle `r` holds the orders of the abstract book `s`
in any order. Every command of the oracle then does what the abstract command does, where the
counter of its fill-or-kill check is 64 bits wide (`exec_spec`), and its snapshot shows the
abstract book (`snapshot_spec`).
-/

namespace MatchingEngine

open PriorityList

/-- What a total looks like in a 64-bit counter. -/
def counter64 (n : ℕ) : ℕ := n % 2 ^ 64

namespace Oracle

open RestingOrder

variable {r : Oracle} {s : PriorityBook} {n : ℕ} {o : RestingOrder} {id : OrderId}
  {side taker : Side} {limit : Price} {account : Account}

/-- The oracle holds the orders of the abstract book, in any order. -/
structure Mirrors (r : Oracle) (s : PriorityBook) : Prop where
  capacity : r.capacity = s.capacity
  orders : r.orders.Perm s.orders
  nextSeq : r.nextSeq = s.nextSeq
  nextTradeId : r.nextTradeId = s.nextTradeId

theorem mirrors_new (capacity : ℕ) : (new capacity).Mirrors (PriorityBook.new capacity) :=
  ⟨rfl, List.Perm.refl _, rfl, rfl⟩

/-- Every command takes the next sequence number. -/
def tick (r : Oracle) : Oracle := { r with nextSeq := r.nextSeq + 1 }

theorem Mirrors.tick (h : r.Mirrors s) : r.tick.Mirrors s.tick :=
  ⟨h.capacity, h.orders, congrArg (· + 1) h.nextSeq, h.nextTradeId⟩

/-- A taker finds the two sides of the abstract book in the vector. -/
theorem Mirrors.sides (h : r.Mirrors s) (hok : s.Ok) (ht : s.Timed n) (taker : Side) :
    Sides taker r.orders (s.resting taker.opposite) (s.resting taker) where
  perm := by
    have hp := PriorityBook.orders_perm s taker.opposite
    rw [Side.opposite_opposite] at hp
    exact h.orders.trans hp
  other := hok.side _
  same := hok.side _
  ordered := ht.ordered _

/-! ## Lookup -/

/-- An id is unknown to both, or names the same order in both. -/
theorem find_cases (h : r.Mirrors s) (hok : s.Ok) (id : OrderId) :
    (r.find id = none ∧ s.find id = none) ∨
      ∃ i o, r.find id = some i ∧ r.orders[i]? = some o ∧ s.find id = some o := by
  cases hf : r.find id with
  | none =>
    refine Or.inl ⟨rfl, PriorityBook.find_eq_none.mpr fun hid => ?_⟩
    obtain ⟨o, ho, he⟩ := PriorityBook.mem_ids.mp hid
    have hnot := List.findIdx?_eq_none_iff.mp hf o (h.orders.mem_iff.mpr ho)
    rw [he, beq_self_eq_true] at hnot
    cases hnot
  | some i =>
    obtain ⟨hlt, hi, -⟩ := List.findIdx?_eq_some_iff_getElem.mp hf
    rw [beq_iff_eq] at hi
    have hmem : r.orders[i] ∈ s.orders := h.orders.mem_iff.mp (List.getElem_mem hlt)
    refine Or.inr ⟨i, r.orders[i], rfl, List.getElem?_eq_getElem hlt, ?_⟩
    cases hs : s.find id with
    | none =>
      exact absurd (PriorityBook.mem_ids.mpr ⟨_, hmem, hi⟩) (PriorityBook.find_eq_none.mp hs)
    | some o =>
      obtain ⟨ho, hid⟩ := PriorityBook.mem_of_find hs
      rw [hok.eq_of_orderId ho hmem (hid.trans hi.symm)]

/-- The oracle finds an id exactly if it is live in the abstract book. -/
theorem find_isSome_iff (h : r.Mirrors s) (hok : s.Ok) (id : OrderId) :
    (r.find id).isSome = true ↔ id ∈ s.ids := by
  rcases find_cases h hok id with ⟨hf, hs⟩ | ⟨i, o, hf, -, hs⟩
  · rw [hf]
    simpa using PriorityBook.find_eq_none.mp hs
  · obtain ⟨ho, hid⟩ := PriorityBook.mem_of_find hs
    rw [hf]
    simpa using PriorityBook.mem_ids.mpr ⟨o, ho, hid⟩

/-! ## The fill-or-kill check -/

/-- The walk of the fill-or-kill check adds what comes before the taker's own first order. -/
theorem sumBeforeOwn_spec (account : Account) (l : List RestingOrder) : ∀ total : UInt64,
    sumBeforeOwn account total l =
      total + UInt64.ofNat (Greedy.total amount (beforeOwn account l)) := by
  induction l with
  | nil => exact fun total => (UInt64.add_zero total).symm
  | cons o l ih =>
    intro total
    rw [sumBeforeOwn, beforeOwn]
    by_cases ha : o.account = account
    · rw [if_pos ha, List.takeWhile_cons_of_neg (by simpa using ha)]
      exact (UInt64.add_zero total).symm
    · have hqty : o.qty.toUInt64 = UInt64.ofNat o.amount := by
        rw [← UInt64.toNat_inj, UInt32.toNat_toUInt64, amount,
          UInt64.toNat_ofNat_of_lt' (lt_trans o.qty.toNat_lt (by decide))]
      rw [if_neg ha, ih, List.takeWhile_cons_of_pos (by simpa using ha), Greedy.total_cons,
        UInt64.ofNat_add, hqty, UInt64.add_assoc]
      rfl

/-- The oracle sorts its candidates into the front of the queue. -/
theorem candidates_sorted (h : r.Mirrors s) (hok : s.Ok) (ht : s.Timed n) (taker : Side)
    (limit : Price) :
    ((r.orders.filter fun o => o.side != taker && crosses taker o.price limit).mergeSort
      fun a b => !better taker b a) = inReach taker (some limit) s.orders := by
  have hfilter : s.orders.filter (fun o => o.side != taker && crosses taker o.price limit) =
      inReach taker (some limit) s.orders := by
    rw [inReach, ofSide, List.filter_filter]
    refine List.filter_congr fun o _ => ?_
    rw [Bool.and_comm]
    cases taker <;> cases o.side <;> rfl
  rw [not_better_eq]
  refine mergeSort_eq ((h.orders.filter _).trans (List.Perm.of_eq hfilter)) ?_
  rw [PriorityBook.inReach_orders hok]
  exact ((ht.ordered taker.opposite).imp before_iff.mp).sublist (List.takeWhile_sublist _)

/-- The oracle's fill-or-kill total is the abstract one, in 64 bits. -/
theorem fillableBeforeSelfTrade_spec (h : r.Mirrors s) (hok : s.Ok) (ht : s.Timed n)
    (taker : Side) (limit : Price) (account : Account) :
    r.fillableBeforeSelfTrade taker limit account =
      UInt64.ofNat (s.available taker (some limit) account) := by
  rw [fillableBeforeSelfTrade, candidates_sorted h hok ht, sumBeforeOwn_spec, UInt64.zero_add,
    PriorityBook.available_eq hok, fillable]

theorem counter64_lt_iff {m : ℕ} {qty : Qty} :
    UInt64.ofNat m < qty.toUInt64 ↔ counter64 m < qty.toNat := by
  rw [UInt64.lt_iff_toNat_lt, UInt64.toNat_ofNat', UInt32.toNat_toUInt64]
  rfl

/-! ## Snapshots -/

/-- **The snapshot** shows the abstract book. -/
theorem snapshot_spec (h : r.Mirrors s) (hok : s.Ok) (ht : s.Timed n) : r.snapshot = s.orders := by
  have hside : ∀ side, (s.resting side).Pairwise fun a b => shownKey a < shownKey b := by
    intro side
    refine (ht.ordered side).imp_of_mem fun ha hb hab => ?_
    rw [shownKey, shownKey, hok.side side _ ha, hok.side side _ hb, Prod.Lex.toLex_lt_toLex]
    exact Or.inr ⟨rfl, before_iff.mp hab⟩
  rw [snapshot, not_shownBefore_eq]
  refine mergeSort_eq h.orders (List.pairwise_append.mpr ⟨hside .buy, hside .sell, ?_⟩)
  intro bid hbid ask hask
  rw [shownKey, shownKey, hok.side _ _ hbid, hok.side _ _ hask, Prod.Lex.toLex_lt_toLex]
  exact Or.inl Nat.zero_lt_one

/-! ## Submitting an order -/

section Submit

variable {hasLimit : Bool} {qty : Qty} {tif : TimeInForce} {w : Matching}

/-- The oracle with what the matching loop left. -/
def withMatching (r : Oracle) (w : Matching) : Oracle :=
  { r.tick with orders := w.orders, nextTradeId := w.nextTradeId }

/-- The result of a submit of which nothing rests. -/
def unrested (w : Matching) : AddResult :=
  { accepted := true, trades := w.trades, stpRejected := w.stpRejected }

/-- An empty or duplicate order only takes a number. -/
theorem submit_of_bad (hbad : qty = 0 ∨ (r.find id).isSome = true) :
    r.submit id side hasLimit limit qty account tif = .ok (r.tick, {}) := by
  unfold submit
  exact if_pos hbad

/-- A fill-or-kill order that falls short is accepted and does nothing. -/
theorem submit_of_short (hgood : ¬ (qty = 0 ∨ (r.find id).isSome = true))
    (hshort : tif = .fok ∧ r.fillableBeforeSelfTrade side limit account < qty.toUInt64) :
    r.submit id side hasLimit limit qty account tif = .ok (r.tick, { accepted := true }) := by
  unfold submit
  exact (if_neg hgood).trans (if_pos hshort)

/-- A submit that gets to match: the residual rests, finds no room, or is dropped. -/
theorem submit_of_match (hgood : ¬ (qty = 0 ∨ (r.find id).isSome = true))
    (hpass : ¬ (tif = .fok ∧ r.fillableBeforeSelfTrade side limit account < qty.toUInt64))
    (hw : matchLoop id side hasLimit limit account r.nextSeq (r.orders.length + 2)
      ⟨r.orders, r.nextTradeId, qty, [], false⟩ = .ok w) :
    r.submit id side hasLimit limit qty account tif =
      if tif = .gtc ∧ hasLimit ∧ !w.stpRejected ∧ w.qty > 0 then
        if w.orders.length ≥ r.capacity then
          .ok (r.withMatching w, { unrested w with poolExhausted := true })
        else
          .ok ({ r.withMatching w with
              orders := w.orders ++ [⟨side, limit, id, w.qty, account, r.nextSeq⟩] },
            { unrested w with restingQty := w.qty })
      else .ok (r.withMatching w, unrested w) := by
  unfold submit
  refine (if_neg hgood).trans ((if_neg hpass).trans ?_)
  show (matchLoop id side hasLimit limit account r.nextSeq (r.orders.length + 2)
    ⟨r.orders, r.nextTradeId, qty, [], false⟩ >>= _) = _
  rw [hw]
  rfl

/-- The matching loop leaves what the sweep of the abstract book leaves. -/
theorem matchLoop_mirrors (h : r.Mirrors s) (hok : s.Ok) (ht : s.Timed n) (id : OrderId)
    (side : Side) (hasLimit : Bool) (limit : Price) (account : Account) (qty : Qty) :
    ∃ w, matchLoop id side hasLimit limit account r.nextSeq (r.orders.length + 2)
        ⟨r.orders, r.nextTradeId, qty, [], false⟩ = .ok w ∧
      Swept (s.resting side) id s.nextSeq s.nextTradeId []
        (s.sweep side (limitOf hasLimit limit) account qty.toNat) w ∧
      (r.withMatching w).Mirrors
        (s.tick.afterSweep side (s.sweep side (limitOf hasLimit limit) account qty.toNat)) := by
  have hsides := h.sides hok ht side
  have hlen := hsides.perm.length_eq
  rw [List.length_append] at hlen
  obtain ⟨w, heq, hw⟩ := matchLoop_spec id side hasLimit limit account r.nextSeq _ _ _
    (r.orders.length + 2) r.nextTradeId qty [] hsides (by omega)
  rw [h.nextSeq, h.nextTradeId] at hw
  refine ⟨w, heq, hw, h.capacity, hw.orders.trans ?_, congrArg (· + 1) h.nextSeq,
    hw.nextTradeId⟩
  have hp := PriorityBook.orders_setSide s.tick side.opposite
    (s.sweep side (limitOf hasLimit limit) account qty.toNat).queue
  rw [Side.opposite_opposite] at hp
  exact hp.symm

end Submit

/-- The residual rests if there is room. -/
theorem restResidual_spec (h : r.Mirrors s) (o : RestingOrder) (result : AddResult) :
    ∃ r', (if r.orders.length ≥ r.capacity then
          (.ok (r, { result with poolExhausted := true }) : Checked (Oracle × AddResult))
        else .ok ({ r with orders := r.orders ++ [o] }, { result with restingQty := o.qty })) =
        .ok (r', (s.restResidual o result).2) ∧
      r'.Mirrors (s.restResidual o result).1 := by
  have hlen := h.orders.length_eq
  rw [PriorityBook.restResidual, ← hlen, ← h.capacity]
  by_cases hroom : r.orders.length < r.capacity
  · rw [if_neg (not_le.mpr hroom), if_pos hroom]
    refine ⟨_, rfl, h.capacity, ?_, h.nextSeq, h.nextTradeId⟩
    have hp : (r.orders ++ [o]).Perm (o :: r.orders) := List.perm_append_singleton o r.orders
    exact hp.trans ((h.orders.cons o).trans (PriorityBook.orders_insert s o).symm)
  · rw [if_pos (not_lt.mp hroom), if_neg hroom]
    exact ⟨_, rfl, h⟩

/-- **Limit orders** do what they mean. -/
theorem addLimit_spec (h : r.Mirrors s) (hok : s.Ok) (ht : s.Timed n) (id : OrderId) (side : Side)
    (price : Price) (qty : Qty) (account : Account) (tif : TimeInForce) :
    ∃ r', r.addLimit id side price qty account tif =
        .ok (r', (s.addLimit counter64 id side price qty account tif).2) ∧
      r'.Mirrors (s.addLimit counter64 id side price qty account tif).1 := by
  have hfind := find_isSome_iff h hok id
  simp only [addLimit, PriorityBook.addLimit]
  by_cases hbad : qty = 0 ∨ id ∈ s.ids
  · rw [submit_of_bad (by rw [hfind]; exact hbad), if_pos hbad]
    exact ⟨_, rfl, h.tick⟩
  have hgood : ¬ (qty = 0 ∨ (r.find id).isSome = true) := by rw [hfind]; exact hbad
  have hgate : (tif = .fok ∧ r.fillableBeforeSelfTrade side price account < qty.toUInt64) ↔
      (tif = .fok ∧ counter64 (s.available side (some price) account) < qty.toNat) := by
    rw [fillableBeforeSelfTrade_spec h hok ht, counter64_lt_iff]
  rw [if_neg hbad]
  by_cases hshort : tif = .fok ∧ counter64 (s.available side (some price) account) < qty.toNat
  · rw [submit_of_short hgood (hgate.mpr hshort), if_pos hshort]
    exact ⟨_, rfl, h.tick⟩
  obtain ⟨w, heq, hw, hmir⟩ := matchLoop_mirrors h hok ht id side true price account qty
  rw [submit_of_match hgood (fun hc => hshort (hgate.mp hc)) heq, if_neg hshort]
  -- from here on the sweep is only known by what the loop left
  have hle : (s.sweep side (some price) account qty.toNat).unmet ≤ qty.toNat :=
    PriorityBook.unmet_le_qty s side (some price) account
  have hlim : limitOf true price = some price := rfl
  rw [hlim] at hw hmir
  generalize s.sweep side (some price) account qty.toNat = out at hw hmir hle ⊢
  have hqty : w.qty > 0 ↔ 0 < out.unmet := by
    rw [pos_iff_toNat, hw.qty, toNat_ofNat_qty hle]
  have hrests : (tif = .gtc ∧ true = true ∧ (!w.stpRejected) = true ∧ w.qty > 0) ↔
      (tif = .gtc ∧ out.stopped = false ∧ 0 < out.unmet) := by
    rw [hqty, hw.stpRejected, Bool.not_eq_true', eq_self, true_and]
  have hresult : unrested w =
      { accepted := true, trades := tradesOf id s.nextSeq s.nextTradeId out.taken,
        stpRejected := out.stopped } := by
    rw [unrested, hw.trades, hw.stpRejected, List.nil_append]
  by_cases hrest : tif = .gtc ∧ true = true ∧ (!w.stpRejected) = true ∧ w.qty > 0
  · rw [if_pos hrest, if_pos (hrests.mp hrest), ← hresult, ← hw.qty, h.nextSeq]
    exact restResidual_spec hmir ⟨side, price, id, w.qty, account, s.nextSeq⟩ (unrested w)
  · -- nothing is left to rest
    rw [if_neg hrest, if_neg fun hc => hrest (hrests.mpr hc), hresult]
    exact ⟨_, rfl, hmir⟩

/-- **Market orders** do what they mean. -/
theorem addMarket_spec (h : r.Mirrors s) (hok : s.Ok) (ht : s.Timed n) (id : OrderId)
    (side : Side) (qty : Qty) (account : Account) :
    ∃ r', r.addMarket id side qty account = .ok (r', (s.addMarket id side qty account).2) ∧
      r'.Mirrors (s.addMarket id side qty account).1 := by
  have hfind := find_isSome_iff h hok id
  simp only [addMarket, PriorityBook.addMarket]
  by_cases hbad : qty = 0 ∨ id ∈ s.ids
  · rw [submit_of_bad (by rw [hfind]; exact hbad), if_pos hbad]
    exact ⟨_, rfl, h.tick⟩
  have hgood : ¬ (qty = 0 ∨ (r.find id).isSome = true) := by
    rw [hfind]
    exact hbad
  obtain ⟨w, heq, hw, hmir⟩ := matchLoop_mirrors h hok ht id side false 0 account qty
  have hlim : limitOf false 0 = none := rfl
  rw [hlim] at hw hmir
  rw [submit_of_match hgood (fun hc => by cases hc.1) heq, if_neg (fun hc => by cases hc.1),
    if_neg hbad]
  refine ⟨_, ?_, hmir⟩
  rw [unrested, hw.trades, hw.stpRejected, List.nil_append]

/-! ## Cancelling and modifying -/

/-- Removing the order at its position removes it from the abstract book. -/
theorem eraseIdx_perm (h : r.Mirrors s) (hok : s.Ok) {i : ℕ} (hi : r.orders[i]? = some o) :
    (r.orders.eraseIdx i).Perm (s.remove o).orders := by
  obtain ⟨hlt, hget⟩ := List.getElem?_eq_some_iff.mp hi
  have hmem : o ∈ s.orders := h.orders.mem_iff.mp (List.mem_of_getElem? hi)
  have hleft := (List.getElem_cons_eraseIdx_perm hlt).trans h.orders
  rw [hget] at hleft
  exact (hleft.trans (PriorityBook.orders_remove hok hmem)).cons_inv

/-- Replacing the order at its position puts the new one beside what is left without it. -/
theorem set_perm (h : r.Mirrors s) (hok : s.Ok) {i : ℕ} (hi : r.orders[i]? = some o)
    (o' : RestingOrder) : (r.orders.set i o').Perm (o' :: (s.remove o).orders) := by
  obtain ⟨hlt, -⟩ := List.getElem?_eq_some_iff.mp hi
  exact (List.set_perm_cons_eraseIdx hlt o').trans ((eraseIdx_perm h hok hi).cons o')

theorem cancel_eq (r : Oracle) (id : OrderId) : r.cancel id =
    match r.find id with
    | none => (r.tick, false)
    | some i => ({ r.tick with orders := r.orders.eraseIdx i }, true) := rfl

/-- **Cancel** does what it means. -/
theorem cancel_spec (h : r.Mirrors s) (hok : s.Ok) (id : OrderId) :
    ∃ r', r.cancel id = (r', (s.cancel id).2) ∧ r'.Mirrors (s.cancel id).1 := by
  rw [cancel_eq]
  unfold PriorityBook.cancel
  rcases find_cases h hok id with ⟨hf, hs⟩ | ⟨i, o, hf, hi, hs⟩
  · rw [hf, hs]
    exact ⟨_, rfl, h.tick⟩
  · rw [hf, hs]
    exact ⟨_, rfl, h.capacity, eraseIdx_perm h.tick hok.tick hi, h.tick.nextSeq, h.nextTradeId⟩

/-- The scan for a match of a modified order finds one exactly if it would trade. -/
theorem bestOpposite_isSome (h : r.Mirrors s) (hok : s.Ok) (side : Side) (price : Price) :
    (bestOpposite r.orders side true price).isSome = s.wouldTrade side price := by
  have hbest := bestOpposite_isBest r.orders side true price
  rw [Bool.eq_iff_iff, PriorityBook.wouldTrade, List.any_eq_true]
  constructor
  · intro hsome
    obtain ⟨⟨m, b⟩, hb⟩ := Option.isSome_iff_exists.mp hsome
    rw [hb] at hbest
    obtain ⟨hget, hc, -⟩ := hbest
    rw [candidate_iff] at hc
    have hmem := PriorityBook.mem_resting hok (h.orders.mem_iff.mp (List.mem_of_getElem? hget))
    rw [hc.1] at hmem
    exact ⟨b, hmem, hc.2⟩
  · rintro ⟨o, ho, hr⟩
    have hmem : o ∈ r.orders := h.orders.mem_iff.mpr (PriorityBook.mem_orders.mpr ⟨_, ho⟩)
    have hc : candidate side true price o = true := candidate_iff.mpr ⟨hok.side _ o ho, hr⟩
    cases hb : bestOpposite r.orders side true price with
    | some mb => rfl
    | none =>
      rw [hb] at hbest
      rw [hbest o hmem] at hc
      cases hc

/-- What a modify does to the order it found, case by case. -/
theorem modify_of_find {i : ℕ} {newPrice : Price} {newQty : Qty} (hq : newQty ≠ 0)
    (hf : r.find id = some i) (hi : r.orders[i]? = some o) : r.modify id newPrice newQty =
      if newPrice = o.price ∧ newQty ≤ o.qty then
        .ok ({ r.tick with orders := r.orders.set i { o with qty := newQty } }, true)
      else if (bestOpposite r.orders o.side true newPrice).isSome then .ok (r.tick, false)
      else
        .ok ({ r.tick with
            orders := r.orders.set i
              { o with price := newPrice, qty := newQty, seqNo := r.nextSeq } },
          true) := by
  have hf' : r.tick.find id = some i := hf
  unfold modify
  refine (if_neg hq).trans ?_
  show (match r.tick.find id with | none => _ | some i => _) = _
  rw [hf']
  show (orFault r.orders[i]? .outOfRange >>= _) = _
  rw [hi]
  rfl

/-- **Modify** does what it means. -/
theorem modify_spec (h : r.Mirrors s) (hok : s.Ok) (id : OrderId) (newPrice : Price)
    (newQty : Qty) :
    ∃ r', r.modify id newPrice newQty = .ok (r', (s.modify id newPrice newQty).2) ∧
      r'.Mirrors (s.modify id newPrice newQty).1 := by
  unfold PriorityBook.modify
  by_cases hq : newQty = 0
  · rw [if_pos hq]
    refine ⟨r.tick, ?_, h.tick⟩
    unfold modify
    exact if_pos hq
  rw [if_neg hq]
  rcases find_cases h hok id with ⟨hf, hs⟩ | ⟨i, o, hf, hi, hs⟩
  · rw [hs]
    refine ⟨r.tick, ?_, h.tick⟩
    have hf' : r.tick.find id = none := hf
    unfold modify
    refine (if_neg hq).trans ?_
    show (match r.tick.find id with | none => _ | some i => _) = _
    rw [hf']
    rfl
  rw [modify_of_find hq hf hi, hs, bestOpposite_isSome h hok]
  have hmem : o ∈ s.tick.orders := h.orders.mem_iff.mp (List.mem_of_getElem? hi)
  have hset := set_perm h.tick hok.tick hi
  dsimp only
  split_ifs with hsame htrade
  · -- the order keeps its place
    exact ⟨_, rfl, h.capacity, (hset _).trans (PriorityBook.orders_setQty hok.tick hmem _).symm,
      h.tick.nextSeq, h.nextTradeId⟩
  · exact ⟨_, rfl, h.tick⟩
  · -- the order gets a new place
    rw [h.nextSeq]
    exact ⟨_, rfl, h.capacity, (hset _).trans (PriorityBook.orders_insert _ _).symm,
      h.tick.nextSeq, h.nextTradeId⟩

/-- **Every command** does what it means. -/
theorem exec_spec (h : r.Mirrors s) (hok : s.Ok) (ht : s.Timed n) (c : Command) :
    ∃ r', r.exec c = .ok (r', (s.exec counter64 c).2) ∧ r'.Mirrors (s.exec counter64 c).1 := by
  unfold exec PriorityBook.exec
  cases c.kind with
  | limit =>
    obtain ⟨r', heq, hmir⟩ := addLimit_spec h hok ht c.id c.side c.price c.qty c.account c.tif
    refine ⟨r', ?_, hmir⟩
    dsimp only
    rw [heq]
    rfl
  | market =>
    obtain ⟨r', heq, hmir⟩ := addMarket_spec h hok ht c.id c.side c.qty c.account
    refine ⟨r', ?_, hmir⟩
    dsimp only
    rw [heq]
    rfl
  | cancel =>
    obtain ⟨r', heq, hmir⟩ := cancel_spec h hok c.id
    refine ⟨r', ?_, hmir⟩
    dsimp only
    rw [heq]
    rfl
  | modify =>
    obtain ⟨r', heq, hmir⟩ := modify_spec h hok c.id c.price c.qty
    refine ⟨r', ?_, hmir⟩
    dsimp only
    rw [heq]
    rfl

end Oracle

end MatchingEngine
