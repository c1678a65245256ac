import MatchingEngine.Book.Refinement
import MatchingEngine.Spec.Snapshot

/-!
# The accessors of the book

`has_bid`, `has_ask`, `best_bid`, `best_ask`, `order_at` and `head_at` in
`include/engine/book.hpp`, which read the levels and the pool directly. In every run they show
what the snapshot shows (`accessors_show_the_snapshot`).
-/

namespace MatchingEngine

namespace Book

open FixedPool IntrusiveList PriorityBook Run

/-! ## The accessors -/

/-- `has_bid`: there is a level of bids. -/
def hasBid (b : Book) : Bool := !b.bids.empty

/-- `has_ask`: there is a level of asks. -/
def hasAsk (b : Book) : Bool := !b.asks.empty

/-- The price of the best level. -/
def bestPrice (levels : PriceLevels) : Checked Price := do
  let level ← levels.read (← levels.best)
  return level.price

/-- `best_bid`, which the caller asks for if there is one. -/
def bestBid (b : Book) : Checked Price := bestPrice b.bids

/-- `best_ask`, which the caller asks for if there is one. -/
def bestAsk (b : Book) : Checked Price := bestPrice b.asks

/-- `order_at`, for a slot in use. -/
def orderAt (b : Book) (idx : Index) : Checked Order := b.pool.unchecked idx

/-- `head_at`: the first slot of the level of a price. -/
def headAt (b : Book) (side : Side) (price : Price) : Checked Index := do
  let level ← (b.levels side).read (← (b.levels side).atPrice side.best price)
  return level.head

/-! ## What they show -/

/-- The orders at one price, first to last. -/
def queueAt (side : Side) (price : Price) (l : List RestingOrder) : List RestingOrder :=
  (ofSide side l).filter fun o => o.price = price

variable {b : Book} {s : PriorityBook} {L : Side → Ladder} {vacant : List Index} {side : Side}
  {price : Price}

/-- A side is empty if no order rests there. -/
theorem empty_iff (h : b.Repr L vacant) (hs : b.Shows L s) (side : Side) :
    (b.levels side).empty = true ↔ s.resting side = [] := by
  rw [(h.sides side).levels.empty_iff, Ladder.levels, List.map_eq_nil_iff, hs.resting,
    List.map_eq_nil_iff]
  constructor
  · intro hnil
    rw [hnil]
    rfl
  · intro hnil
    have hlen := (h.full side).length_le
    rw [hnil, List.length_nil] at hlen
    exact List.length_eq_zero_iff.mp (Nat.le_zero.mp hlen)

/-- The best price of an empty side is asked for against an assertion. -/
theorem bestPrice_empty {levels : PriceLevels} (h : levels.empty = true) :
    bestPrice levels = .error .assertion := by
  have hcount : ¬ 0 < levels.count := by
    rw [PriceLevels.empty, beq_iff_eq] at h
    omega
  unfold bestPrice PriceLevels.best require
  rw [if_neg hcount]
  rfl

/-- The best price is that of the first order of the side. -/
theorem bestPrice_head (h : b.Repr L vacant) (hs : b.Shows L s) {o : RestingOrder}
    (ho : (s.resting side).head? = some o) : bestPrice (b.levels side) = .ok o.price := by
  have hside := h.sides side
  have hfull := h.full side
  rw [hs.resting] at ho
  cases hL : L side with
  | nil =>
    rw [hL] at ho
    cases ho
  | cons l B =>
    obtain ⟨price, xs⟩ := l
    rw [hL] at hside hfull ho
    obtain ⟨i, ys, rfl⟩ := List.exists_cons_of_ne_nil (hfull (price, xs) List.mem_cons_self)
    have hbest : (b.levels side).best = .ok B.length := by
      rw [← Ladder.length_levels]
      exact PriceLevels.Repr.best (l := .ofList price (i :: ys)) hside.levels
    have hchain : Chain b.pool side price (i :: ys) := hside.chain (A := [])
    have hprice := hchain.price_restingAt List.mem_cons_self
    rw [Ladder.slots_cons, List.cons_append, List.map_cons, List.head?_cons, Option.some_inj] at ho
    unfold bestPrice
    rw [hbest, ok_bind, hside.read (A := []), ok_bind, Level.price_ofList, ← ho, hprice]
    rfl

/-- The best price is the one that some order has and no order betters. -/
theorem bestPrice_eq_ok (h : b.Repr L vacant) (hs : b.Shows L s) (hok : s.Ok) :
    bestPrice (b.levels side) = .ok price ↔ (∃ o ∈ s.resting side, o.price = price) ∧
      ∀ o ∈ s.resting side, side.best.rank price ≤ side.best.rank o.price := by
  cases hrest : s.resting side with
  | nil =>
    rw [bestPrice_empty ((empty_iff h hs side).mpr hrest)]
    simp
  | cons o l =>
    have hhead : (s.resting side).head? = some o := by
      rw [hrest]
      rfl
    have hsorted := hok.sorted side
    rw [hrest, List.pairwise_cons] at hsorted
    have hfirst : ∀ o' ∈ o :: l, side.best.rank o.price ≤ side.best.rank o'.price := by
      rw [List.forall_mem_cons]
      exact ⟨le_rfl, hsorted.1⟩
    rw [bestPrice_head h hs hhead, Except.ok.injEq]
    constructor
    · rintro rfl
      exact ⟨⟨o, List.mem_cons_self, rfl⟩, hfirst⟩
    · rintro ⟨⟨o', ho', rfl⟩, hleast⟩
      exact Best.rank_inj.mp (le_antisymm (hfirst o' ho') (hleast o List.mem_cons_self))

/-- The head of a level is its first order, and the links lead from it through the others. -/
theorem headAt_spec (h : b.Repr L vacant) (hs : b.Shows L s) (side : Side) (price : Price) :
    ((s.resting side).filter fun o => o.price = price) = [] ∧
        b.headAt side price = .error .assertion ∨
      ∃ first o, b.headAt side price = .ok first ∧ b.orderAt first = .ok o ∧
        ((s.resting side).filter fun o => o.price = price).head? = some o.resting ∧
        appendLevel b.pool (b.pool.slots.size + 1) first [] =
          .ok ((s.resting side).filter fun o => o.price = price) := by
  have hside := h.sides side
  have hfull := h.full side
  have hsize := h.length_slots_le side
  have helse : ∀ A : Ladder, (∀ l ∈ A, Chain b.pool side l.1 l.2) → (∀ l ∈ A, l.1 ≠ price) →
      ((A.slots.map b.pool.restingAt).filter fun o => o.price = price) = [] := by
    intro A hchains hne
    rw [List.filter_eq_nil_iff, List.forall_mem_map]
    intro i hi
    obtain ⟨l, hl, hil⟩ := List.mem_flatMap.mp hi
    rw [(hchains l hl).price_restingAt hil, decide_eq_true_eq]
    exact hne l hl
  obtain ⟨(A : Ladder), (B : Ladder), hA, hB, hor⟩ :=
    PriorityList.split hside.sorted (side.best.rank price)
  have hAne : ∀ l ∈ A, l.1 ≠ price := fun l hl heq =>
    absurd (hA l hl) (by rw [heq]; exact lt_irrefl _)
  have hBne : ∀ l ∈ B, l.1 ≠ price := fun l hl heq =>
    absurd (hB l hl) (by rw [heq]; exact lt_irrefl _)
  rw [hs.resting]
  rcases hor with hL | ⟨⟨price', xs⟩, hc, hL⟩
  · -- no level has that price
    left
    rw [hL] at hside ⊢
    have hchains := List.forall_mem_append.mp hside.chains
    constructor
    · rw [Ladder.slots_append, List.map_append, List.filter_append, helse A hchains.1 hAne,
        helse B hchains.2 hBne, List.append_nil]
    · have hlevels := hside.levels
      rw [Ladder.levels_append] at hlevels
      have hfind : (b.levels side).find side.best price = .ok none := by
        apply hlevels.find_new
        · exact List.forall_mem_map.mpr fun l hl => hA l hl
        · exact List.forall_mem_map.mpr fun l hl => hB l hl
      unfold headAt PriceLevels.atPrice
      rw [hfind]
      rfl
  · -- the level is there, and not empty
    right
    obtain rfl : price' = price := Best.rank_inj.mp hc
    rw [hL] at hside hfull hsize ⊢
    have hchain := hside.chain
    have hchains := List.forall_mem_append.mp hside.chains
    have hqueue : ((Ladder.slots (A ++ (price', xs) :: B)).map b.pool.restingAt).filter
        (fun o => o.price = price') = xs.map b.pool.restingAt := by
      have hall : ((xs.map b.pool.restingAt).filter fun o => o.price = price') =
          xs.map b.pool.restingAt := by
        rw [List.filter_eq_self, List.forall_mem_map]
        exact fun i hi => decide_eq_true (hchain.price_restingAt hi)
      rw [Ladder.slots_append, Ladder.slots_cons, List.map_append, List.map_append,
        List.filter_append, List.filter_append, helse A hchains.1 hAne, hall,
        helse B (List.forall_mem_cons.mp hchains.2).2 hBne, List.append_nil, List.nil_append]
    rw [hqueue]
    rw [Ladder.slots_append, Ladder.slots_cons, List.length_append, List.length_append] at hsize
    have hwalk := appendLevel_spec xs (b.pool.slots.size + 1) kNilIndex [] (by omega)
      hchain.list.seg hchain.list.nil_notMem hchain.orders.holds
    obtain ⟨i, ys, rfl⟩ := List.exists_cons_of_ne_nil (hfull (price', xs) (by simp))
    obtain ⟨o, ho, -⟩ := hchain.orders i List.mem_cons_self
    refine ⟨i, o, ?_, unchecked_of_value? ho, ?_, hwalk⟩
    · unfold headAt
      rw [hside.atPrice, ok_bind, hside.read, ok_bind, Level.head_ofList]
      rfl
    · rw [List.map_cons, List.head?_cons, restingAt_of_value? ho]

/-- A side is not empty if some order rests there. -/
theorem not_empty_iff (h : b.Repr L vacant) (hs : b.Shows L s) (hok : s.Ok) (side : Side) :
    (!(b.levels side).empty) = true ↔ ∃ o ∈ s.orders, o.side = side := by
  rw [Bool.not_eq_true', ← Bool.not_eq_true, empty_iff h hs, ← ofSide_orders hok]
  constructor
  · intro hne
    obtain ⟨o, ho⟩ := List.exists_mem_of_ne_nil _ hne
    obtain ⟨ho, hside⟩ := List.mem_filter.mp ho
    exact ⟨o, ho, of_decide_eq_true hside⟩
  · rintro ⟨o, ho, hside⟩ hnil
    have hmem : o ∈ ofSide side s.orders := List.mem_filter.mpr ⟨ho, decide_eq_true hside⟩
    rw [hnil] at hmem
    cases hmem

/-- A property of the orders of a side, told from all orders. -/
theorem forall_mem_resting (hok : s.Ok) {P : RestingOrder → Prop} :
    (∀ o ∈ s.resting side, P o) ↔ ∀ o ∈ s.orders, o.side = side → P o := by
  rw [← ofSide_orders hok]
  simp [ofSide]

/-- An order of a side, told from all orders. -/
theorem exists_mem_resting (hok : s.Ok) {P : RestingOrder → Prop} :
    (∃ o ∈ s.resting side, P o) ↔ ∃ o ∈ s.orders, o.side = side ∧ P o := by
  rw [← ofSide_orders hok]
  simp [ofSide, and_assoc]

/-- **The accessors show the snapshot**, in every run. A side has a best price if it has an order,
which is the highest bid or the lowest ask, and the best bid is below the best ask. The head of a
level is the first order at its price, and its links lead through the others. -/
theorem accessors_show_the_snapshot (capacity : Index) (cmds : List Command) :
    ∃ b replies l, runM exec (new capacity) cmds = .ok (b, replies) ∧ b.snapshot = .ok l ∧
      (b.hasBid = true ↔ ∃ o ∈ l, o.side = .buy) ∧ (b.hasAsk = true ↔ ∃ o ∈ l, o.side = .sell) ∧
      (∀ price, b.bestBid = .ok price ↔ (∃ o ∈ l, o.side = .buy ∧ o.price = price) ∧
        ∀ o ∈ l, o.side = .buy → o.price ≤ price) ∧
      (∀ price, b.bestAsk = .ok price ↔ (∃ o ∈ l, o.side = .sell ∧ o.price = price) ∧
        ∀ o ∈ l, o.side = .sell → price ≤ o.price) ∧
      (∀ bid ask, b.bestBid = .ok bid → b.bestAsk = .ok ask → bid < ask) ∧
      ∀ side price,
        queueAt side price l = [] ∧ b.headAt side price = .error .assertion ∨
        ∃ first o, b.headAt side price = .ok first ∧ b.orderAt first = .ok o ∧
          (queueAt side price l).head? = some o.resting ∧
          appendLevel b.pool (b.pool.slots.size + 1) first [] = .ok (queueAt side price l) := by
  obtain ⟨b, hrun, hrep, hok⟩ := run_spec capacity cmds
  obtain ⟨L, vacant, h, hs⟩ := hrep
  generalize (run (PriorityBook.exec counter32) (.new capacity.toNat) cmds).1 = s at hs hok
  have hbid : ∀ price, b.bestBid = .ok price ↔ (∃ o ∈ s.resting .buy, o.price = price) ∧
      ∀ o ∈ s.resting .buy, o.price ≤ price := by
    intro price
    show bestPrice (b.levels .buy) = .ok price ↔ _
    rw [bestPrice_eq_ok h hs hok]
    refine and_congr_right fun _ => forall₂_congr fun o _ => ?_
    show -price.toInt ≤ -o.price.toInt ↔ _
    rw [Int64.le_iff_toInt_le]
    omega
  have hask : ∀ price, b.bestAsk = .ok price ↔ (∃ o ∈ s.resting .sell, o.price = price) ∧
      ∀ o ∈ s.resting .sell, price ≤ o.price := by
    intro price
    show bestPrice (b.levels .sell) = .ok price ↔ _
    rw [bestPrice_eq_ok h hs hok]
    refine and_congr_right fun _ => forall₂_congr fun o _ => ?_
    rw [Int64.le_iff_toInt_le]
    rfl
  refine ⟨b, _, s.orders, hrun, snapshot_spec ⟨L, vacant, h, hs⟩, not_empty_iff h hs hok .buy,
    not_empty_iff h hs hok .sell, fun price => ?_, fun price => ?_, fun bid ask hb ha => ?_,
    fun side price => ?_⟩
  · rw [hbid, exists_mem_resting hok, forall_mem_resting hok]
  · rw [hask, exists_mem_resting hok, forall_mem_resting hok]
  · obtain ⟨⟨o, ho, rfl⟩, -⟩ := (hbid bid).mp hb
    obtain ⟨⟨o', ho', rfl⟩, -⟩ := (hask ask).mp ha
    exact hok.uncrossed o ho o' ho'
  · rw [queueAt, ofSide_orders hok]
    exact headAt_spec h hs side price

end Book

end MatchingEngine
