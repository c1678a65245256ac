import MatchingEngine.Book.IndexTheorems
import MatchingEngine.Book.LadderTheorems

/-!
# The order book — representation

`Book.Repr b L vacant` is the invariant of the book between two commands: the free list is
`vacant`, the slots in use are those of the ladders `L`, the id map is their index, and each
side lays out its ladder with no level empty.

The operations on one level, `appendAt` and `unlinkAt`, get their specs here. Both touch one
side only (`Book.SameBut`).
-/

namespace MatchingEngine

open FixedPool

/-! ## Sides -/

/-- The slots of both ladders. -/
def allSlots (L : Side → Ladder) : List Index := (L .buy).slots ++ (L .sell).slots

/-- All slots are those of the one side and of the other. -/
theorem allSlots_perm (L : Side → Ladder) (side : Side) :
    (allSlots L).Perm ((L side).slots ++ (L side.opposite).slots) := by
  cases side with
  | buy => exact List.Perm.refl _
  | sell => exact List.perm_append_comm

/-- All slots if one side is replaced. -/
theorem allSlots_update (L : Side → Ladder) (side : Side) (L' : Ladder) :
    (allSlots (Function.update L side L')).Perm (L'.slots ++ (L side.opposite).slots) := by
  have h := allSlots_perm (Function.update L side L') side
  rwa [Function.update_self, Function.update_of_ne (Side.opposite_ne side)] at h

namespace Book

variable {b b' b'' : Book} {side side' : Side} {L : Side → Ladder} {vacant : List Index}
  {A B : Ladder} {price : Price} {xs ys : List Index} {i : Index} {o : Order} {room : ℕ}

/-! ## Fields -/

@[simp] theorem levels_setLevels (b : Book) (side : Side) (l : PriceLevels) :
    (b.setLevels side l).levels side = l := by
  cases side <;> rfl

@[simp] theorem levels_setLevels_opposite (b : Book) (side : Side) (l : PriceLevels) :
    (b.setLevels side l).levels side.opposite = b.levels side.opposite := by
  cases side <;> rfl

@[simp] theorem pool_setLevels (b : Book) (side : Side) (l : PriceLevels) :
    (b.setLevels side l).pool = b.pool := by
  cases side <;> rfl

@[simp] theorem idMap_setLevels (b : Book) (side : Side) (l : PriceLevels) :
    (b.setLevels side l).idMap = b.idMap := by
  cases side <;> rfl

@[simp] theorem nextSeq_setLevels (b : Book) (side : Side) (l : PriceLevels) :
    (b.setLevels side l).nextSeq = b.nextSeq := by
  cases side <;> rfl

@[simp] theorem nextTradeId_setLevels (b : Book) (side : Side) (l : PriceLevels) :
    (b.setLevels side l).nextTradeId = b.nextTradeId := by
  cases side <;> rfl

@[simp] theorem levels_withPool (b : Book) (p : FixedPool Order) (side : Side) :
    levels { b with pool := p } side = b.levels side := by
  cases side <;> rfl

@[simp] theorem levels_withIdMap (b : Book) (m : IdMap splitmix64) (side : Side) :
    levels { b with idMap := m } side = b.levels side := by
  cases side <;> rfl

@[simp] theorem levels_withPool_withIdMap (b : Book) (p : FixedPool Order)
    (m : IdMap splitmix64) (side : Side) :
    levels { b with pool := p, idMap := m } side = b.levels side := by
  cases side <;> rfl

@[simp] theorem levels_withNextSeq (b : Book) (seq : SeqNo) (side : Side) :
    levels { b with nextSeq := seq } side = b.levels side := by
  cases side <;> rfl

/-- `b'` is `b` except for the pool and the levels of one side. -/
structure SameBut (side : Side) (b b' : Book) : Prop where
  levels : b'.levels side.opposite = b.levels side.opposite
  idMap : b'.idMap = b.idMap
  nextSeq : b'.nextSeq = b.nextSeq
  nextTradeId : b'.nextTradeId = b.nextTradeId

namespace SameBut

/-- Two steps on one side. -/
theorem trans (h : SameBut side b b') (h' : SameBut side b' b'') : SameBut side b b'' :=
  ⟨h'.levels.trans h.levels, h'.idMap.trans h.idMap, h'.nextSeq.trans h.nextSeq,
    h'.nextTradeId.trans h.nextTradeId⟩

/-- Replacing the levels of a side. -/
theorem setLevels (b : Book) (side : Side) (l : PriceLevels) :
    SameBut side b (b.setLevels side l) := ⟨by simp, by simp, by simp, by simp⟩

/-- Replacing the pool. -/
theorem withPool (side : Side) (b : Book) (p : FixedPool Order) :
    SameBut side b { b with pool := p } := ⟨by simp, rfl, rfl, rfl⟩

end SameBut

/-! ## The representation -/

/-- The invariant of the book between two commands. -/
structure Repr (b : Book) (L : Side → Ladder) (vacant : List Index) : Prop where
  pool : b.pool.Repr vacant (allSlots L)
  index : Indexed b.pool b.idMap (allSlots L)
  sides : ∀ side, SideRepr b.pool (b.pool.slots.size + 1) side (b.levels side) (L side)
  full : ∀ side, (L side).Full

/-- The new book has no level, and every slot is free. -/
theorem repr_new (capacity : Index) :
    (new capacity).Repr (fun _ => []) (indices capacity.toNat) where
  pool := FixedPool.repr_new capacity
  index := indexed_new capacity
  sides side := by
    have hsize : (new capacity).pool.slots.size = capacity.toNat := by
      simp [new, FixedPool.new]
    rw [hsize]
    cases side <;> exact sideRepr_new _ _ _
  full _ := by simp [Ladder.Full]

namespace Repr

/-- A slot is in one level of one side. -/
theorem nodup (h : b.Repr L vacant) (side : Side) :
    ((L side).slots ++ (L side.opposite).slots).Nodup :=
  (allSlots_perm L side).nodup_iff.mp h.pool.nodup_used

/-- The slots of a side are slots of the book. -/
theorem mem_allSlots (hi : i ∈ (L side).slots) : i ∈ allSlots L :=
  (allSlots_perm L side).mem_iff.mpr (List.mem_append_left _ hi)

/-- There are no more levels than orders, and no more orders than slots. -/
theorem length_lt (h : b.Repr L vacant) (side : Side) :
    (L side).length < b.pool.slots.size + 1 := by
  have h1 := (h.full side).length_le
  have h2 := h.pool.length_add
  have h3 := (allSlots_perm L side).length_eq
  rw [List.length_append] at h3
  omega

/-- A book with another ladder on one side. -/
theorem update (h : b.Repr L vacant) {L' : Ladder} {vacant' : List Index}
    (hs : b'.levels side.opposite = b.levels side.opposite)
    (hsize : b'.pool.slots.size = b.pool.slots.size)
    (hv : ∀ i ∈ (L side.opposite).slots, b'.pool.value? i = b.pool.value? i)
    (hpool : b'.pool.Repr vacant' (L'.slots ++ (L side.opposite).slots))
    (hindex : Indexed b'.pool b'.idMap (L'.slots ++ (L side.opposite).slots))
    (hside : SideRepr b'.pool (b.pool.slots.size + 1) side (b'.levels side) L')
    (hfull : L'.Full) : b'.Repr (Function.update L side L') vacant' where
  pool := hpool.of_perm (allSlots_update L side L')
  index := hindex.of_perm (allSlots_update L side L')
  sides side' := by
    rw [hsize]
    rcases Side.eq_or_opposite side side' with rfl | rfl
    · rw [Function.update_self]
      exact hside
    · rw [Function.update_of_ne (Side.opposite_ne side), hs]
      exact (h.sides side.opposite).congr hv
  full side' := by
    rcases Side.eq_or_opposite side side' with rfl | rfl
    · rw [Function.update_self]
      exact hfull
    · rw [Function.update_of_ne (Side.opposite_ne side)]
      exact h.full _

end Repr

/-! ## One level -/

/-- **`appendAt`** links a slot behind the last one of its level. -/
theorem appendAt_spec
    (h : SideRepr b.pool room side (b.levels side) (A ++ (price, xs) :: B))
    (hnd : (i :: (A ++ (price, xs) :: B).slots).Nodup) (hnil : i ≠ kNilIndex)
    (ho : b.pool.value? i = some o) (hunlinked : o.unlinked = o) (hs : o.side = side)
    (hp : o.price = price) (hq : o.qty ≠ 0) :
    ∃ b', b.appendAt side B.length i = .ok b' ∧ SameBut side b b' ∧ Relinks b.pool b'.pool ∧
      (∀ j, j ∉ xs ++ [i] → b'.pool.value? j = b.pool.value? j) ∧
      SideRepr b'.pool room side (b'.levels side) (A ++ (price, xs ++ [i]) :: B) := by
  rw [Ladder.slots_append, Ladder.slots_cons, List.nodup_cons, List.mem_append, List.mem_append,
    not_or, not_or] at hnd
  obtain ⟨⟨hiA, hix, hiB⟩, hnd⟩ := hnd
  have hchain := h.chain
  have hlive : Live b.pool side price (xs ++ [i]) := fun j hj => by
    rcases List.mem_append.mp hj with hj | hj
    · exact hchain.orders j hj
    · rw [List.mem_singleton.mp hj]
      exact ⟨o, ho, hs, hp, hq⟩
  obtain ⟨p', heq, hr, hl, hv⟩ := levelAppend_ofList price hchain.list hlive.holds hix hnil
  have hlinks : o.prevIdx = kNilIndex ∧ o.nextIdx = kNilIndex := by
    rw [← hunlinked]
    exact ⟨rfl, rfl⟩
  -- the other levels are elsewhere
  have hother : ∀ j ∈ A.slots ++ B.slots, p'.value? j = b.pool.value? j := fun j hj => by
    refine hv j fun hj' => ?_
    rw [List.nodup_append, List.nodup_append] at hnd
    rcases List.mem_append.mp hj' with hj' | hj'
    · rcases List.mem_append.mp hj with hj | hj
      · exact hnd.2.2 j hj j (List.mem_append_left _ hj') rfl
      · exact hnd.2.1.2.2 j hj' j hj rfl
    · rw [List.mem_singleton.mp hj'] at hj
      exact (List.mem_append.mp hj).elim hiA hiB
  refine ⟨{ b with pool := p' }.setLevels side
    ((b.levels side).write B.length (.ofList price (xs ++ [i]))), ?_,
    (SameBut.withPool side b p').trans (SameBut.setLevels _ _ _), by simpa using hr,
    by simpa using hv, ?_⟩
  · rw [appendAt, unchecked_of_value? ho]
    simp only [ok_bind, require_of hlinks, h.read, heq]
    rfl
  · rw [levels_setLevels, pool_setLevels]
    exact h.write hother ⟨hl, hlive.relinks hr⟩

/-- **`unlinkAt`** takes a slot out of its level, and the level out of its side if that was
its last one. -/
theorem unlinkAt_spec
    (h : SideRepr b.pool room side (b.levels side) (A ++ (price, xs ++ i :: ys) :: B))
    (hnd : (A ++ (price, xs ++ i :: ys) :: B).slots.Nodup) :
    ∃ b', b.unlinkAt side B.length price i = .ok b' ∧ SameBut side b b' ∧
      Relinks b.pool b'.pool ∧ (∀ j, j ∉ xs ++ i :: ys → b'.pool.value? j = b.pool.value? j) ∧
      b'.pool.nxt i = kNilIndex ∧ b'.pool.prv i = kNilIndex ∧
      SideRepr b'.pool room side (b'.levels side) (Ladder.put A price (xs ++ ys) B) := by
  rw [Ladder.slots_append, Ladder.slots_cons] at hnd
  obtain ⟨p', heq, hr, hl, hv, hn, hb⟩ := levelUnlink_ofList price h.chain.list
    h.chain.orders.holds
  have hother : ∀ j ∈ A.slots ++ B.slots, p'.value? j = b.pool.value? j := fun j hj => by
    refine hv j fun hj' => ?_
    obtain ⟨-, hnd', hA⟩ := List.nodup_append.mp hnd
    obtain ⟨-, -, hB⟩ := List.nodup_append.mp hnd'
    rcases List.mem_append.mp hj with hj | hj
    · exact hA j hj j (List.mem_append_left _ hj') rfl
    · exact hB j hj' j hj rfl
  have hsub : ∀ j ∈ xs ++ ys, j ∈ xs ++ i :: ys := fun j hj => by
    rcases List.mem_append.mp hj with hj | hj <;> simp [hj]
  have hside := h.write hother ⟨hl, (h.chain.orders.mono hsub).relinks hr⟩
  have hframe := (SameBut.withPool side b p').trans (SameBut.setLevels _ side
    ((b.levels side).write B.length (.ofList price (xs ++ ys))))
  have hnil : kNilIndex ∉ xs ++ ys := hl.nil_notMem
  rw [unlinkAt, h.read]
  simp only [ok_bind, heq, Level.head_ofList, IntrusiveList.IsList.head_eq_nil_iff hnil]
  by_cases hempty : xs ++ ys = []
  · -- the level is erased
    rw [hempty] at hside
    obtain ⟨levels', he, hside'⟩ := hside.erase
    refine ⟨({ b with pool := p' }.setLevels side
      ((b.levels side).write B.length (.ofList price (xs ++ ys)))).setLevels side levels', ?_,
      hframe.trans (SameBut.setLevels _ _ _), by simpa using hr, by simpa using hv,
      by simpa using hn, by simpa using hb, ?_⟩
    · rw [if_pos hempty, eraseLevel, levels_setLevels, levels_withPool, hempty, he]
      rfl
    · rw [levels_setLevels, pool_setLevels, pool_setLevels, Ladder.put, if_pos hempty]
      exact hside'
  · refine ⟨_, if_neg hempty, hframe, by simpa using hr, by simpa using hv, by simpa using hn,
      by simpa using hb, ?_⟩
    rw [levels_setLevels, pool_setLevels, Ladder.put, if_neg hempty]
    exact hside

end Book

end MatchingEngine
