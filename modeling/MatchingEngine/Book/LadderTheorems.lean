import MatchingEngine.Book.Book
import MatchingEngine.Book.LevelTheorems
import MatchingEngine.Book.PriceLevelsTheorems

/-!
# One side of the book as a ladder of slots

A `Ladder` lists the prices of a side, best first, each with the slots of its orders, first
to last. `SideRepr` says that the level array and the links in the pool lay out a given
ladder. A level of it may be empty: operations go through such states, and only between
commands every level has an order (`Ladder.Full`).
-/

namespace MatchingEngine

open IntrusiveList PriorityList FixedPool

/-! ## What a slot shows -/

/-- An order as the snapshot shows it. -/
def Order.resting (o : Order) : RestingOrder :=
  ⟨o.side, o.price, o.orderId, o.qty, o.account, o.seqNo⟩

/-- The links do not show. -/
theorem Order.resting_congr {o o' : Order} (h : o'.unlinked = o.unlinked) :
    o'.resting = o.resting := show o'.unlinked.resting = o.unlinked.resting from congrArg _ h

/-- The order in slot `i` as the snapshot shows it. -/
def FixedPool.restingAt (p : FixedPool Order) (i : Index) : RestingOrder :=
  ((p.value? i).getD {}).resting

section RestingAt

variable {p p' : FixedPool Order} {i : Index} {o : Order}

/-- The order in a slot that holds one. -/
theorem restingAt_of_value? (h : p.value? i = some o) : p.restingAt i = o.resting := by
  rw [restingAt, h, Option.getD_some]

/-- What is shown of a slot depends on its value. -/
theorem restingAt_congr (h : p'.value? i = p.value? i) : p'.restingAt i = p.restingAt i := by
  rw [restingAt, restingAt, h]

/-- Links do not show. -/
theorem restingAt_relinks (h : Relinks p p') (i : Index) : p'.restingAt i = p.restingAt i := by
  cases hv : p.value? i with
  | none =>
    have hd := h.data i
    rw [hv, Option.map_none, Option.map_eq_none_iff] at hd
    rw [restingAt, restingAt, hv, hd]
  | some o =>
    obtain ⟨o', hv', he⟩ := h.value? hv
    rw [restingAt_of_value? hv, restingAt_of_value? hv', Order.resting_congr he]

end RestingAt

/-! ## Chains -/

/-- The slots `xs` hold live orders of one side and price. -/
def Live (p : FixedPool Order) (side : Side) (price : Price) (xs : List Index) : Prop :=
  ∀ i ∈ xs, ∃ o, p.value? i = some o ∧ o.side = side ∧ o.price = price ∧ o.qty ≠ 0

/-- The slots `xs` are linked in this order and hold live orders of one side and price. -/
structure Chain (p : FixedPool Order) (side : Side) (price : Price) (xs : List Index) : Prop where
  list : IsList p.nxt p.prv kNilIndex xs
  orders : Live p side price xs

section Chains

variable {p p' : FixedPool Order} {side : Side} {price : Price} {xs ys : List Index} {i : Index}
  {o o' : Order}

/-- A write that keeps the link forwards keeps them all. -/
theorem nxt_setValue (ho : p.value? i = some o) (hn : o'.nextIdx = o.nextIdx) :
    (p.setValue i o').nxt = p.nxt := by
  funext j
  by_cases e : j = i
  · rw [e, nxt_of_value? (value?_setValue_self (lt_of_value? ho)), nxt_of_value? ho, hn]
  · rw [nxt, nxt, value?_setValue_of_ne e]

/-- A write that keeps the link backwards keeps them all. -/
theorem prv_setValue (ho : p.value? i = some o) (hb : o'.prevIdx = o.prevIdx) :
    (p.setValue i o').prv = p.prv := by
  funext j
  by_cases e : j = i
  · rw [e, prv_of_value? (value?_setValue_self (lt_of_value? ho)), prv_of_value? ho, hb]
  · rw [prv, prv, value?_setValue_of_ne e]

namespace Live

/-- Slots with live orders hold values. -/
theorem holds (h : Live p side price xs) : p.Holds xs := fun i hi => by
  obtain ⟨o, ho, -⟩ := h i hi
  exact ⟨o, ho⟩

theorem mono (h : Live p side price xs) (hsub : ∀ i ∈ ys, i ∈ xs) : Live p side price ys :=
  fun i hi => h i (hsub i hi)

/-- Live orders depend on the values of their slots. -/
theorem congr (h : Live p side price xs) (hv : ∀ i ∈ xs, p'.value? i = p.value? i) :
    Live p' side price xs := fun i hi => by rw [hv i hi]; exact h i hi

/-- Relinking does not change what an order is. -/
theorem relinks (h : Live p side price xs) (hr : Relinks p p') : Live p' side price xs :=
  fun i hi => by
    obtain ⟨o, ho, hs, hp, hq⟩ := h i hi
    obtain ⟨o', ho', he⟩ := hr.value? ho
    have hrest := Order.resting_congr he
    have hside : o'.side = o.side := congrArg RestingOrder.side hrest
    have hprice : o'.price = o.price := congrArg RestingOrder.price hrest
    have hqty : o'.qty = o.qty := congrArg RestingOrder.qty hrest
    exact ⟨o', ho', hside.trans hs, hprice.trans hp, hqty ▸ hq⟩

/-- A live order may be replaced by another of its side and price. -/
theorem setValue (h : Live p side price xs) (ho : p.value? i = some o) (hs : o'.side = o.side)
    (hp : o'.price = o.price) (hq : o'.qty ≠ 0) : Live (p.setValue i o') side price xs :=
  fun j hj => by
    by_cases e : j = i
    · subst e
      obtain ⟨o₀, ho₀, hs₀, hp₀, -⟩ := h j hj
      obtain rfl : o₀ = o := Option.some.inj (ho₀.symm.trans ho)
      exact ⟨o', value?_setValue_self (lt_of_value? ho), hs.trans hs₀, hp.trans hp₀, hq⟩
    · rw [value?_setValue_of_ne e]
      exact h j hj

end Live

namespace Chain

/-- A chain depends on its own slots only. -/
theorem congr (h : Chain p side price xs) (hv : ∀ i ∈ xs, p'.value? i = p.value? i) :
    Chain p' side price xs where
  list := h.list.congr (fun i hi => by rw [nxt, nxt, hv i hi]) fun i hi => by
    rw [prv, prv, hv i hi]
  orders := h.orders.congr hv

/-- A write to an order that keeps its links, side and price. -/
theorem setValue (h : Chain p side price xs) (ho : p.value? i = some o)
    (hn : o'.nextIdx = o.nextIdx) (hb : o'.prevIdx = o.prevIdx) (hs : o'.side = o.side)
    (hp : o'.price = o.price) (hq : o'.qty ≠ 0) : Chain (p.setValue i o') side price xs where
  list := by
    rw [nxt_setValue ho hn, prv_setValue ho hb]
    exact h.list
  orders := h.orders.setValue ho hs hp hq

/-- The orders of a chain have its price. -/
theorem price_restingAt (h : Chain p side price xs) (hi : i ∈ xs) :
    (p.restingAt i).price = price := by
  obtain ⟨o, ho, -, hp, -⟩ := h.orders i hi
  rw [restingAt_of_value? ho, ← hp]
  rfl

end Chain

end Chains

/-! ## Ladders -/

/-- The prices of a side, best first, each with the slots of its orders. -/
abbrev Ladder := List (Price × List Index)

namespace Ladder

/-- The slots of the levels, from the best level on. -/
def slots (L : Ladder) : List Index := L.flatMap Prod.snd

/-- No level without an order. -/
def Full (L : Ladder) : Prop := ∀ l ∈ L, l.2 ≠ []

/-- The level array a ladder stands for. -/
def levels (L : Ladder) : List Level := L.map fun l => .ofList l.1 l.2

/-- The ladder with the slots `xs` at `price`, or no level there if there are none. -/
def put (A : Ladder) (price : Price) (xs : List Index) (B : Ladder) : Ladder :=
  if xs = [] then A ++ B else A ++ (price, xs) :: B

variable {A B L : Ladder} {price : Price} {xs : List Index}

@[simp] theorem slots_nil : slots [] = [] := rfl

@[simp] theorem slots_cons : slots ((price, xs) :: B) = xs ++ B.slots := rfl

@[simp] theorem slots_append : slots (A ++ B) = A.slots ++ B.slots := List.flatMap_append

@[simp] theorem levels_append : levels (A ++ B) = A.levels ++ B.levels := List.map_append

@[simp] theorem levels_cons : levels ((price, xs) :: B) = .ofList price xs :: B.levels := rfl

@[simp] theorem length_levels : L.levels.length = L.length := List.length_map ..

@[simp] theorem slots_put : (put A price xs B).slots = A.slots ++ (xs ++ B.slots) := by
  unfold put
  split
  · next h => rw [h, slots_append, List.nil_append]
  · rw [slots_append, slots_cons]

/-- No level is empty after one was put, since an empty one is dropped. -/
theorem full_put (h : Full (A ++ B)) : Full (put A price xs B) := by
  unfold put
  split
  · exact h
  · next hxs =>
    intro l hl
    rcases List.mem_append.mp hl with hl | hl
    · exact h l (List.mem_append_left _ hl)
    · rcases List.mem_cons.mp hl with rfl | hl
      · exact hxs
      · exact h l (List.mem_append_right _ hl)

/-- Every level takes a slot. -/
theorem Full.length_le (h : Full L) : L.length ≤ L.slots.length := by
  induction L with
  | nil => exact le_rfl
  | cons l L ih =>
    obtain ⟨hl, hL⟩ := List.forall_mem_cons.mp h
    have := List.length_pos_iff.mpr hl
    rw [show slots (l :: L) = l.2 ++ slots L from rfl, List.length_append, List.length_cons]
    have := ih hL
    omega

end Ladder

/-! ## Sides -/

/-- The levels and the links lay out the ladder `L`. -/
structure SideRepr (p : FixedPool Order) (room : ℕ) (side : Side) (levels : PriceLevels)
    (L : Ladder) : Prop where
  levels : levels.Repr room L.levels
  sorted : L.Pairwise fun l l' => side.best.rank l.1 < side.best.rank l'.1
  chains : ∀ l ∈ L, Chain p side l.1 l.2

/-- A new array is a side without levels. -/
theorem sideRepr_new (p : FixedPool Order) (side : Side) (room : ℕ) :
    SideRepr p room side (.new room) [] :=
  ⟨PriceLevels.repr_new room, List.Pairwise.nil, by simp⟩

namespace SideRepr

variable {p p' : FixedPool Order} {room : ℕ} {side : Side} {levels : PriceLevels}
  {A B L : Ladder} {price : Price} {xs ys : List Index} {i : Index} {o : Order}

/-- A side depends on its own slots only. -/
theorem congr (h : SideRepr p room side levels L) (hv : ∀ i ∈ L.slots, p'.value? i = p.value? i) :
    SideRepr p' room side levels L where
  levels := h.levels
  sorted := h.sorted
  chains l hl := (h.chains l hl).congr fun i hi => hv i (List.mem_flatMap_of_mem hl hi)

/-- A write to an order that keeps its links, side and price. -/
theorem setValue (h : SideRepr p room side levels L) {o' : Order} (ho : p.value? i = some o)
    (hn : o'.nextIdx = o.nextIdx) (hb : o'.prevIdx = o.prevIdx) (hs : o'.side = o.side)
    (hp : o'.price = o.price) (hq : o'.qty ≠ 0) :
    SideRepr (p.setValue i o') room side levels L where
  levels := h.levels
  sorted := h.sorted
  chains l hl := (h.chains l hl).setValue ho hn hb hs hp hq

/-- The array holds the levels in front, the level, and those behind it. -/
theorem levels_split (h : SideRepr p room side levels (A ++ (price, xs) :: B)) :
    levels.Repr room (A.levels ++ .ofList price xs :: B.levels) := by
  rw [← Ladder.levels_cons, ← Ladder.levels_append]
  exact h.levels

/-- A level of the side is a chain. -/
theorem chain (h : SideRepr p room side levels (A ++ (price, xs) :: B)) : Chain p side price xs :=
  h.chains (price, xs) (by simp)

/-- Better levels come before a level, worse ones behind it. -/
theorem around (h : SideRepr p room side levels (A ++ (price, xs) :: B)) :
    (∀ l ∈ A.levels, side.best.rank l.price < side.best.rank price) ∧
      ∀ l ∈ B.levels, side.best.rank price < side.best.rank l.price := by
  have hs := List.pairwise_append.mp h.sorted
  constructor
  · intro l hl
    obtain ⟨a, ha, rfl⟩ := List.mem_map.mp hl
    exact hs.2.2 a ha (price, xs) List.mem_cons_self
  · intro l hl
    obtain ⟨b, hb, rfl⟩ := List.mem_map.mp hl
    exact (List.pairwise_cons.mp hs.2.1).1 b hb

/-- Every order of a side is in one of its levels. -/
theorem mem_split (h : SideRepr p room side levels L) (hi : i ∈ L.slots) :
    ∃ A price xs ys B, L = A ++ (price, xs ++ i :: ys) :: B ∧
      ∃ o, p.value? i = some o ∧ o.side = side ∧ o.price = price ∧ o.qty ≠ 0 := by
  obtain ⟨⟨price, zs⟩, hl, hiz⟩ := List.mem_flatMap.mp hi
  obtain ⟨A, B, rfl⟩ := List.append_of_mem hl
  obtain ⟨o, ho⟩ := h.chain.orders i hiz
  obtain ⟨xs, ys, rfl⟩ := List.append_of_mem hiz
  exact ⟨A, price, xs, ys, B, rfl, o, ho⟩

/-- Another list of slots at the price of a level. -/
theorem write (h : SideRepr p room side levels (A ++ (price, xs) :: B))
    (hv : ∀ i ∈ A.slots ++ B.slots, p'.value? i = p.value? i) (hc : Chain p' side price ys) :
    SideRepr p' room side (levels.write B.length (.ofList price ys)) (A ++ (price, ys) :: B) where
  levels := by
    have := h.levels
    rw [Ladder.levels_append, Ladder.levels_cons] at this ⊢
    rw [← Ladder.length_levels]
    exact this.write
  sorted := by
    have hs := h.sorted
    rw [List.pairwise_append, List.pairwise_cons] at hs ⊢
    exact ⟨hs.1, hs.2.1, fun a ha b hb => by
      rcases List.mem_cons.mp hb with rfl | hb
      · exact hs.2.2 a ha (price, xs) List.mem_cons_self
      · exact hs.2.2 a ha b (List.mem_cons_of_mem _ hb)⟩
  chains l hl := by
    have hsub : ∀ l ∈ A ++ B, Chain p' side l.1 l.2 := fun l hl =>
      (h.chains l (by rcases List.mem_append.mp hl with hl | hl <;> simp [hl])).congr
        fun i hi => hv i (by
          rw [← Ladder.slots_append]
          exact List.mem_flatMap_of_mem hl hi)
    rcases List.mem_append.mp hl with hl | hl
    · exact hsub l (List.mem_append_left _ hl)
    · rcases List.mem_cons.mp hl with rfl | hl
      · exact hc
      · exact hsub l (List.mem_append_right _ hl)

/-- Without one of its levels a ladder is still laid out. -/
theorem without (h : SideRepr p room side levels (A ++ (price, xs) :: B)) {levels' : PriceLevels}
    (hl : levels'.Repr room (A ++ B).levels) : SideRepr p room side levels' (A ++ B) where
  levels := hl
  sorted := h.sorted.sublist (List.Sublist.append_left (List.sublist_cons_self _ _) A)
  chains l hl := h.chains l (by rcases List.mem_append.mp hl with hl | hl <;> simp [hl])

/-- `erase` drops the level. -/
theorem erase (h : SideRepr p room side levels (A ++ (price, xs) :: B)) :
    ∃ levels', levels.erase side.best price = .ok levels' ∧
      SideRepr p room side levels' (A ++ B) := by
  obtain ⟨levels', heq, hr⟩ := h.levels_split.erase h.around.1 h.around.2
  exact ⟨levels', heq, h.without (by simpa using hr)⟩

/-- `pop_best` drops the first level. -/
theorem popBest (h : SideRepr p room side levels ((price, xs) :: B)) :
    ∃ levels', levels.popBest = .ok levels' ∧ SideRepr p room side levels' B := by
  obtain ⟨levels', heq, hr⟩ := PriceLevels.Repr.popBest (l := .ofList price xs) h.levels
  exact ⟨levels', heq, without (A := []) h hr⟩

/-- A level is read at its position in the array. -/
theorem read (h : SideRepr p room side levels (A ++ (price, xs) :: B)) :
    levels.read B.length = .ok (.ofList price xs) := by
  rw [← Ladder.length_levels]
  exact h.levels_split.read

/-- A level is found by its rank. -/
theorem byRank (h : SideRepr p room side levels (A ++ (price, xs) :: B)) :
    levels.byRank A.length = .ok (.ofList price xs) := by
  rw [← Ladder.length_levels]
  exact h.levels_split.byRank

theorem size_eq (h : SideRepr p room side levels L) : levels.size = L.length := by
  rw [PriceLevels.size, h.levels.count, Ladder.length_levels]

/-- A level is found by its price. -/
theorem atPrice (h : SideRepr p room side levels (A ++ (price, xs) :: B)) :
    levels.atPrice side.best price = .ok B.length := by
  rw [← Ladder.length_levels]
  exact h.levels_split.atPrice h.around.1 h.around.2

/-- **Get or insert** finds the level of a price, or makes an empty one in its place. -/
theorem getOrInsert (h : SideRepr p room side levels L) (hfull : L.Full) (price : Price)
    (hroom : L.length < room) :
    ∃ levels' A xs B, levels.getOrInsert side.best price = .ok (levels', B.length) ∧
      L = Ladder.put A price xs B ∧ (A ++ B).Full ∧
      SideRepr p room side levels' (A ++ (price, xs) :: B) := by
  obtain ⟨(A : Ladder), (B : Ladder), hA, hB, hor⟩ :=
    PriorityList.split h.sorted (side.best.rank price)
  have hA' : ∀ l ∈ A.levels, side.best.rank l.price < side.best.rank price := fun l hl => by
    obtain ⟨a, ha, rfl⟩ := List.mem_map.mp hl
    exact hA a ha
  have hB' : ∀ l ∈ B.levels, side.best.rank price < side.best.rank l.price := fun l hl => by
    obtain ⟨b, hb, rfl⟩ := List.mem_map.mp hl
    exact hB b hb
  rcases hor with rfl | ⟨⟨price', xs⟩, hc, rfl⟩
  · -- a new level
    obtain ⟨levels', heq, hr⟩ := PriceLevels.Repr.getOrInsert_new
      (by simpa using h.levels) hA' hB' (by simpa using hroom)
    refine ⟨levels', A, [], B, by simpa using heq, by simp [Ladder.put], hfull, ?_, ?_, ?_⟩
    · rw [Ladder.levels_append, Ladder.levels_cons]
      exact hr
    · have hs := List.pairwise_append.mp h.sorted
      rw [List.pairwise_append, List.pairwise_cons]
      refine ⟨hs.1, ⟨hB, hs.2.1⟩, fun a ha b hb => ?_⟩
      rcases List.mem_cons.mp hb with rfl | hb
      · exact hA a ha
      · exact hs.2.2 a ha b hb
    · intro l hl
      rcases List.mem_append.mp hl with hl | hl
      · exact h.chains l (List.mem_append_left _ hl)
      · rcases List.mem_cons.mp hl with rfl | hl
        · exact ⟨IsList.empty, fun i hi => absurd hi List.not_mem_nil⟩
        · exact h.chains l (List.mem_append_right _ hl)
  · -- the level is there
    obtain rfl : price' = price := Best.rank_inj.mp hc
    have hne : xs ≠ [] := hfull (price', xs) (by simp)
    refine ⟨levels, A, xs, B, ?_, by rw [Ladder.put, if_neg hne], fun l hl => hfull l ?_, h⟩
    · rw [← Ladder.length_levels]
      exact h.levels_split.getOrInsert_old hA' hB'
    · rcases List.mem_append.mp hl with hl | hl <;> simp [hl]

end SideRepr

end MatchingEngine
