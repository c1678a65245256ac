import MatchingEngine.Bench.Workload
import MatchingEngine.Library.DenseList
import MatchingEngine.Spec.Ledger

/-!
# The shadow of a book

A shadow is in order (`Shadow.Ok`) if its three containers know the same ids and every id
knows its position, and it shows the orders whose quantities it has (`Shadow.Shows`). It stays
in order when an order is added, and when it forgets one, whichever order moves into the gap
(`forget_spec`). The loop over the trades of a sweep takes out of the shadow what the sweep
took out of the book (`settle_swept`).
-/

namespace MatchingEngine

namespace Bench

open DenseList PriorityBook

/-! ## What trades leave -/

section Trades

variable {t : Trade} {trades : List Trade} {id : OrderId} {q : Qty}

theorem tradedBy_cons_self (t : Trade) (trades : List Trade) :
    tradedBy t.makerOrderId (t :: trades) = t.qty.toNat + tradedBy t.makerOrderId trades := by
  rw [tradedBy, List.filter_cons_of_pos (by simp), volume_cons, tradedBy]

theorem tradedBy_cons_of_ne (h : t.makerOrderId ≠ id) :
    tradedBy id (t :: trades) = tradedBy id trades := by
  rw [tradedBy, List.filter_cons_of_neg (by simpa using h), tradedBy]

/-- A trade is part of what its maker traded. -/
theorem qty_le_tradedBy (h : t ∈ trades) : t.qty.toNat ≤ tradedBy t.makerOrderId trades := by
  induction trades with
  | nil => exact absurd h List.not_mem_nil
  | cons t' trades ih =>
    by_cases hm : t'.makerOrderId = t.makerOrderId
    · rw [← hm, tradedBy_cons_self, hm]
      rcases List.mem_cons.mp h with rfl | ht
      · omega
      · have := ih ht
        omega
    · rw [tradedBy_cons_of_ne hm]
      rcases List.mem_cons.mp h with rfl | ht
      · exact absurd rfl hm
      · exact ih ht

/-- What some trades leave of the order `id` with the quantity `q`. -/
def leftBy (trades : List Trade) (id : OrderId) (q : Qty) : Option Qty :=
  if tradedBy id trades = q.toNat then none else some (q - UInt32.ofNat (tradedBy id trades))

/-- What is left of an order that the trades do not use up. -/
theorem leftBy_eq_some {q' : Qty} : leftBy trades id q = some q' ↔
    tradedBy id trades ≠ q.toNat ∧ q - UInt32.ofNat (tradedBy id trades) = q' := by
  unfold leftBy
  by_cases h : tradedBy id trades = q.toNat
  · rw [if_pos h]
    exact iff_of_false (Option.some_ne_none q').symm fun hboth => hboth.1 h
  · rw [if_neg h, Option.some_inj, and_iff_right h]

/-- Without trades everything is left. -/
theorem leftBy_nil (h : q ≠ 0) : leftBy [] id q = some q := by
  have hq : 0 ≠ q.toNat := fun e => h (UInt32.toNat_inj.mp e.symm)
  rw [leftBy_eq_some]
  exact ⟨hq, UInt32.sub_zero q⟩

/-- A trade of another maker leaves the order as it was. -/
theorem leftBy_cons_of_ne (h : t.makerOrderId ≠ id) :
    leftBy (t :: trades) id = leftBy trades id := by
  funext q
  rw [leftBy, leftBy, tradedBy_cons_of_ne h]

/-- The first trade, and then the others. -/
theorem leftBy_cons_self (h : tradedBy t.makerOrderId (t :: trades) ≤ q.toNat) :
    leftBy (t :: trades) t.makerOrderId q =
      if q - t.qty = 0 then none else leftBy trades t.makerOrderId (q - t.qty) := by
  rw [tradedBy_cons_self] at h
  have hle : t.qty ≤ q := UInt32.le_iff_toNat_le.mpr (by omega)
  have hsub : (q - t.qty).toNat = q.toNat - t.qty.toNat := UInt32.toNat_sub_of_le _ _ hle
  have hrest : q - UInt32.ofNat (t.qty.toNat + tradedBy t.makerOrderId trades) =
      q - t.qty - UInt32.ofNat (tradedBy t.makerOrderId trades) := by
    rw [UInt32.ofNat_add, UInt32.ofNat_toNat, UInt32.eq_sub_iff_add_eq, UInt32.eq_sub_iff_add_eq,
      UInt32.add_assoc, UInt32.add_comm _ t.qty, UInt32.sub_add_cancel]
  rw [leftBy, leftBy, tradedBy_cons_self, hrest, hsub]
  by_cases hzero : q - t.qty = 0
  · have hnat := congrArg UInt32.toNat hzero
    rw [hsub, UInt32.toNat_zero] at hnat
    rw [if_pos hzero, if_pos (by omega)]
  · rw [if_neg hzero]
    apply if_congr _ rfl rfl
    omega

/-! ### One trade after the other -/

variable {remaining : OrderId → Option Qty}

/-- Every trade has a maker with a quantity, and no more of it is traded than there is. -/
def Covers (remaining : OrderId → Option Qty) (trades : List Trade) : Prop :=
  ∀ t ∈ trades, 1 ≤ t.qty.toNat ∧
    ∃ q, remaining t.makerOrderId = some q ∧ tradedBy t.makerOrderId trades ≤ q.toNat

/-- The quantities after one trade with a maker that has `q`. -/
def afterTrade (remaining : OrderId → Option Qty) (t : Trade) (q : Qty) : OrderId → Option Qty :=
  Function.update remaining t.makerOrderId (if q - t.qty = 0 then none else some (q - t.qty))

theorem afterTrade_self (remaining : OrderId → Option Qty) (t : Trade) (q : Qty) :
    afterTrade remaining t q t.makerOrderId = if q - t.qty = 0 then none else some (q - t.qty) :=
  Function.update_self ..

theorem afterTrade_of_ne (h : t.makerOrderId ≠ id) : afterTrade remaining t q id = remaining id :=
  Function.update_of_ne h.symm ..

/-- What remains of an order after a trade is not nothing. -/
theorem afterTrade_ne_zero (h : ∀ id q, remaining id = some q → q ≠ 0) (t : Trade) (q : Qty) :
    ∀ id q', afterTrade remaining t q id = some q' → q' ≠ 0 := by
  intro id q' hq'
  by_cases hm : t.makerOrderId = id
  · rw [← hm, afterTrade_self] at hq'
    split at hq'
    · cases hq'
    · next hne => exact Option.some.inj hq' ▸ hne
  · rw [afterTrade_of_ne hm] at hq'
    exact h id q' hq'

/-- A maker that trades again is not used up by its first trade. -/
theorem Covers.tail (h : Covers remaining (t :: trades)) (hq : remaining t.makerOrderId = some q) :
    Covers (afterTrade remaining t q) trades := by
  intro t' ht'
  obtain ⟨hone, q', hq', hle⟩ := h t' (List.mem_cons_of_mem _ ht')
  refine ⟨hone, ?_⟩
  by_cases hm : t.makerOrderId = t'.makerOrderId
  · have hlater := qty_le_tradedBy ht'
    rw [← hm, hq, Option.some_inj] at hq'
    subst hq'
    rw [← hm, tradedBy_cons_self] at hle
    rw [← hm] at hlater
    have hsub : (q - t.qty).toNat = q.toNat - t.qty.toNat :=
      UInt32.toNat_sub_of_le _ _ (UInt32.le_iff_toNat_le.mpr (by omega))
    have hne : q - t.qty ≠ 0 := fun e => by
      have hzero := congrArg UInt32.toNat e
      rw [hsub, UInt32.toNat_zero] at hzero
      omega
    rw [← hm, afterTrade_self, if_neg hne]
    exact ⟨_, rfl, by omega⟩
  · rw [afterTrade_of_ne hm]
    rw [tradedBy_cons_of_ne hm] at hle
    exact ⟨q', hq', hle⟩

/-- What the later trades leave of what the first one left. -/
theorem bind_leftBy_cons (hq : remaining t.makerOrderId = some q)
    (hle : tradedBy t.makerOrderId (t :: trades) ≤ q.toNat) (id : OrderId) :
    (afterTrade remaining t q id).bind (leftBy trades id) =
      (remaining id).bind (leftBy (t :: trades) id) := by
  by_cases hm : t.makerOrderId = id
  · subst hm
    rw [afterTrade_self, hq, Option.bind_some, leftBy_cons_self hle]
    split
    · rfl
    · rfl
  · rw [afterTrade_of_ne hm, leftBy_cons_of_ne hm]

end Trades

namespace Shadow

variable {sh : Shadow} {id : OrderId} {q : Qty} {t : Trade}

/-- The three containers know the same ids, and every id knows its position. -/
structure Ok (sh : Shadow) : Prop where
  indexes : Indexes sh.whereIdx sh.live
  keys : ∀ id, id ∈ sh.live ↔ (sh.remaining id).isSome

/-- The empty record. -/
theorem ok_empty : ({} : Shadow).Ok where
  indexes := Indexes.empty
  keys id := by simp

/-- A new quantity for a known id. -/
theorem Ok.setRemaining (h : sh.Ok) (hid : id ∈ sh.live) (q : Qty) :
    Ok { sh with remaining := Function.update sh.remaining id (some q) } where
  indexes := h.indexes
  keys id' := by
    show id' ∈ sh.live ↔ (Function.update sh.remaining id (some q) id').isSome
    by_cases he : id' = id
    · rw [he, Function.update_self]
      exact iff_of_true hid rfl
    · rw [Function.update_of_ne he]
      exact h.keys id'

/-- **`forget` forgets one id**, and keeps the containers together. -/
theorem forget_spec (h : sh.Ok) (hid : id ∈ sh.live) :
    ∃ sh', sh.forget id = .ok sh' ∧ sh'.Ok ∧
      sh'.remaining = Function.update sh.remaining id none := by
  obtain ⟨xs, b, hlive⟩ : ∃ xs b, sh.live = xs ++ [b] :=
    (List.eq_nil_or_concat' sh.live).resolve_left (List.ne_nil_of_mem hid)
  obtain ⟨i, hi⟩ := Option.isSome_iff_exists.mp (h.indexes.mem_iff.mp hid)
  have hindexes := h.indexes
  rw [hlive] at hindexes
  have hlast : sh.live.getLast? = some b := by rw [hlive, List.getLast?_concat]
  have hin : i < sh.live.length := (List.getElem?_eq_some_iff.mp ((h.indexes id i).mp hi)).1
  have hmem : ∀ id', id' ∈ swapRemove sh.live i b ↔ id' ≠ id ∧ id' ∈ sh.live := fun id' => by
    rw [hlive]
    exact hindexes.mem_swapRemove hi
  refine ⟨⟨swapRemove sh.live i b,
    Function.update (Function.update sh.whereIdx b (some i)) id none,
    Function.update sh.remaining id none⟩, ?_, ⟨?_, fun id' => ?_⟩, rfl⟩
  · unfold forget
    rw [hi, hlast, Option.getD_some, orFault_some, ok_bind, require_of hin]
    rfl
  · show Indexes _ (swapRemove sh.live i b)
    rw [hlive]
    exact hindexes.swapRemove hi
  · show id' ∈ swapRemove sh.live i b ↔ (Function.update sh.remaining id none id').isSome
    rw [hmem]
    by_cases he : id' = id
    · rw [he, Function.update_self]
      exact iff_of_false (fun hboth => hboth.1 rfl) (by decide)
    · rw [Function.update_of_ne he, and_iff_right he]
      exact h.keys id'

/-- One trade: the maker keeps the rest of its quantity, or is forgotten. -/
theorem settle_spec (h : sh.Ok) (hq : sh.remaining t.makerOrderId = some q) :
    ∃ sh', sh.settle t = .ok sh' ∧ sh'.Ok ∧ sh'.remaining = afterTrade sh.remaining t q := by
  have hlive : t.makerOrderId ∈ sh.live := by
    rw [h.keys, hq]
    rfl
  have hset := h.setRemaining hlive (q - t.qty)
  unfold settle afterTrade
  rw [hq, Option.getD_some]
  dsimp only
  by_cases hzero : q - t.qty = 0
  · rw [if_pos hzero, if_pos hzero]
    obtain ⟨sh', hforget, hok, hrem⟩ := forget_spec hset hlive
    refine ⟨sh', hforget, hok, ?_⟩
    rw [hrem]
    exact Function.update_idem ..
  · rw [if_neg hzero, if_neg hzero]
    exact ⟨_, rfl, hset, rfl⟩

/-- **The loop over the trades** leaves of every order what the trades leave of it. -/
theorem settle_all : ∀ (trades : List Trade) (sh : Shadow), sh.Ok →
    (∀ id q, sh.remaining id = some q → q ≠ 0) → Covers sh.remaining trades →
    ∃ sh', trades.foldlM settle sh = .ok sh' ∧ sh'.Ok ∧
      ∀ id, sh'.remaining id = (sh.remaining id).bind (leftBy trades id) := by
  intro trades
  induction trades with
  | nil =>
    intro sh h hpos _
    refine ⟨sh, rfl, h, fun id => ?_⟩
    cases hq : sh.remaining id with
    | none => rfl
    | some q => rw [Option.bind_some, leftBy_nil (hpos id q hq)]
  | cons t trades ih =>
    intro sh h hpos hcovers
    obtain ⟨-, q, hq, hle⟩ := hcovers t List.mem_cons_self
    obtain ⟨sh₁, hsettle, hok₁, hrem₁⟩ := settle_spec h hq
    have hpos₁ := afterTrade_ne_zero hpos t q
    have hcovers₁ := hcovers.tail hq
    rw [← hrem₁] at hpos₁ hcovers₁
    obtain ⟨sh', hrun, hok', hrem'⟩ := ih sh₁ hok₁ hpos₁ hcovers₁
    refine ⟨sh', ?_, hok', fun id => ?_⟩
    · rw [List.foldlM_cons, hsettle, ok_bind]
      exact hrun
    · rw [hrem', hrem₁]
      exact bind_leftBy_cons hq hle id

/-- A new order. -/
theorem add_spec (h : sh.Ok) (hid : id ∉ sh.live) (q : Qty) : (sh.add id q).Ok where
  indexes := h.indexes.push hid
  keys id' := by
    show id' ∈ sh.live ++ [id] ↔ (Function.update sh.remaining id (some q) id').isSome
    rw [List.mem_append, List.mem_singleton]
    by_cases he : id' = id
    · rw [he, Function.update_self]
      exact iff_of_true (Or.inr rfl) rfl
    · rw [Function.update_of_ne he, or_iff_left he]
      exact h.keys id'

/-! ## Showing orders -/

/-- The shadow has the orders `l`, each with its quantity. -/
def Shows (sh : Shadow) (l : List RestingOrder) : Prop :=
  ∀ id q, sh.remaining id = some q ↔ ∃ o ∈ l, o.orderId = id ∧ o.qty = q

variable {l : List RestingOrder} {s : PriorityBook} {c : Command} {o : RestingOrder}

/-- The live ids are those of the orders shown. -/
theorem Shows.mem_live (h : sh.Ok) (hs : sh.Shows l) :
    id ∈ sh.live ↔ ∃ o ∈ l, o.orderId = id := by
  rw [h.keys, Option.isSome_iff_exists]
  constructor
  · intro hq
    obtain ⟨q, hq⟩ := hq
    obtain ⟨o, ho, hid, -⟩ := (hs id q).mp hq
    exact ⟨o, ho, hid⟩
  · intro ho
    obtain ⟨o, ho, hid⟩ := ho
    exact ⟨o.qty, (hs id o.qty).mpr ⟨o, ho, hid, rfl⟩⟩

/-- **Trades.** The loop over the trades of a sweep takes out of the shadow what the sweep
took out of the book. -/
theorem settle_swept (h : sh.Ok) (hok : s.Ok) (hs : sh.Shows s.orders) (c : Command) :
    ∃ sh', (s.tradesOfSweep c).foldlM settle sh = .ok sh' ∧ sh'.Ok ∧
      sh'.Shows (s.swept c).orders := by
  have hpos : ∀ id q, sh.remaining id = some q → q ≠ 0 := by
    intro id q hq
    obtain ⟨o, ho, -, hoq⟩ := (hs id q).mp hq
    rw [← hoq]
    exact hok.live o.side o (PriorityBook.mem_resting hok ho)
  have hcovers : Covers sh.remaining (s.tradesOfSweep c) := by
    intro t ht
    have hone := PriorityBook.trades_pos hok c t ht
    refine ⟨hone, ?_⟩
    -- an order of which something was traded rests
    obtain ⟨o, ho, hid⟩ : ∃ o ∈ s.orders, o.orderId = t.makerOrderId := by
      by_contra hno
      have hzero : tradedBy t.makerOrderId (s.tradesOfSweep c) = 0 := by
        apply tradedBy_of_absent hok
        intro o ho hid
        exact hno ⟨o, mem_orders.mpr ⟨_, ho⟩, hid⟩
      have hle := qty_le_tradedBy ht
      omega
    refine ⟨o.qty, (hs _ _).mpr ⟨o, ho, hid, rfl⟩, ?_⟩
    rw [← hid]
    exact tradedBy_le hok c ho
  obtain ⟨sh', hrun, hok', hrem⟩ := settle_all (s.tradesOfSweep c) sh h hpos hcovers
  refine ⟨sh', hrun, hok', fun id q' => ?_⟩
  rw [hrem, orders_swept hok, Option.bind_eq_some_iff]
  constructor
  · intro hleft
    obtain ⟨q, hq, hleft⟩ := hleft
    obtain ⟨o, ho, hid, hoq⟩ := (hs id q).mp hq
    obtain ⟨hne, heq⟩ := leftBy_eq_some.mp hleft
    rw [← hid, ← hoq] at hne heq
    exact ⟨_, mem_removeTrades.mpr ⟨o, ho, hne, rfl⟩, hid, heq⟩
  · intro ho'
    obtain ⟨o', ho', hid, hq'⟩ := ho'
    obtain ⟨o, ho, hne, heq⟩ := mem_removeTrades.mp ho'
    subst heq
    refine ⟨o.qty, (hs id o.qty).mpr ⟨o, ho, hid, rfl⟩, leftBy_eq_some.mpr ?_⟩
    rw [← hid]
    exact ⟨hne, hq'⟩

/-- **A cancel.** -/
theorem forget_removed (h : sh.Ok) (hok : s.Ok) (hs : sh.Shows s.orders) (ho : o ∈ s.orders) :
    ∃ sh', sh.forget o.orderId = .ok sh' ∧ sh'.Ok ∧ sh'.Shows (s.remove o).orders := by
  have hlive : o.orderId ∈ sh.live := (hs.mem_live h).mpr ⟨o, ho, rfl⟩
  obtain ⟨sh', hforget, hok', hrem⟩ := forget_spec h hlive
  refine ⟨sh', hforget, hok', fun id q => ?_⟩
  have hperm := orders_remove hok ho
  rw [hrem]
  by_cases he : id = o.orderId
  · rw [he, Function.update_self]
    refine iff_of_false (by simp) fun ho' => ?_
    obtain ⟨o', ho', hid, -⟩ := ho'
    exact notMem_ids_remove hok ho (mem_ids.mpr ⟨o', ho', hid⟩)
  · rw [Function.update_of_ne he, hs id q]
    apply exists_congr
    intro o'
    rw [hperm.mem_iff, List.mem_cons]
    constructor
    · intro hboth
      obtain ⟨rfl | ho', hid, hq⟩ := hboth
      · exact absurd hid.symm he
      · exact ⟨ho', hid, hq⟩
    · intro hboth
      exact ⟨Or.inr hboth.1, hboth.2⟩

/-- **An order that comes to rest.** -/
theorem add_inserted (h : sh.Ok) (hs : sh.Shows s.orders) (hid : o.orderId ∉ s.ids) :
    (sh.add o.orderId o.qty).Ok ∧ (sh.add o.orderId o.qty).Shows (s.insert o).orders := by
  have hlive : o.orderId ∉ sh.live := fun hm => by
    obtain ⟨o', ho', hid'⟩ := (hs.mem_live h).mp hm
    exact hid (mem_ids.mpr ⟨o', ho', hid'⟩)
  refine ⟨add_spec h hlive o.qty, fun id q => ?_⟩
  have hperm := orders_insert s o
  show Function.update sh.remaining o.orderId (some o.qty) id = some q ↔ _
  by_cases he : id = o.orderId
  · rw [he, Function.update_self, Option.some_inj]
    constructor
    · intro hq
      exact ⟨o, hperm.mem_iff.mpr List.mem_cons_self, rfl, hq⟩
    · intro ho'
      obtain ⟨o', ho', hid', hq⟩ := ho'
      rcases List.mem_cons.mp (hperm.mem_iff.mp ho') with rfl | ho'
      · exact hq
      · exact absurd (mem_ids.mpr ⟨o', ho', hid'⟩) hid
  · rw [Function.update_of_ne he, hs id q]
    apply exists_congr
    intro o'
    rw [hperm.mem_iff, List.mem_cons]
    constructor
    · intro hboth
      exact ⟨Or.inr hboth.1, hboth.2⟩
    · intro hboth
      obtain ⟨rfl | ho', hid', hq⟩ := hboth
      · exact absurd hid'.symm he
      · exact ⟨ho', hid', hq⟩

end Shadow

end Bench

end MatchingEngine
