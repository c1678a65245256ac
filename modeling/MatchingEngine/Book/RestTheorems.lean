import MatchingEngine.Book.CrossTheorems

/-!
# Resting an order

Linking a slot into its side is the same for a new order and for one that a modify moves:
`levelForInsert` finds or makes the level, `appendAt` puts the slot behind the others there.
Shown as a list, that is `enqueue` (`appendAt_enqueue`).
-/

namespace MatchingEngine

open FixedPool IntrusiveList PriorityList

/-! ## Slots of a ladder -/

namespace Ladder

variable {A B : Ladder} {price : Price} {xs ys : List Index} {i : Index}

/-- A slot that is linked to a level is one more slot of the side. -/
theorem slots_append_link : (slots (A ++ (price, xs ++ [i]) :: B)).Perm
    (i :: slots (A ++ (price, xs) :: B)) := by
  rw [slots_append, slots_cons, slots_append, slots_cons, List.append_assoc, List.singleton_append,
    ← List.append_assoc, ← List.append_assoc]
  exact List.perm_middle

/-- The place of a level does not matter for the slots. -/
theorem slots_put_eq : (put A price xs B).slots = (A ++ (price, xs) :: B).slots := by
  rw [slots_put, slots_append, slots_cons]

end Ladder

/-! ## Ranks -/

namespace SideRepr

variable {p p' : FixedPool Order} {room : ℕ} {side : Side} {levels : PriceLevels}
  {A B L : Ladder} {price : Price} {xs : List Index} {i : Index}

/-- In the order of the slots, an order at the price of a level goes behind that level. -/
theorem enqueue_eq (h : SideRepr p room side levels (A ++ (price, xs) :: B)) {o : RestingOrder}
    (ho : o.price = price) :
    enqueue (RestingOrder.rank side) o ((A.slots ++ (xs ++ B.slots)).map p.restingAt) =
      A.slots.map p.restingAt ++ (xs.map p.restingAt ++ o :: B.slots.map p.restingAt) := by
  have hs := List.pairwise_append.mp h.sorted
  have hrank : RestingOrder.rank side o = side.best.rank price := by rw [RestingOrder.rank, ho]
  have hA : ∀ o' ∈ A.slots.map p.restingAt,
      RestingOrder.rank side o' ≤ RestingOrder.rank side o := fun o' ho' => by
    obtain ⟨j, hj, rfl⟩ := List.mem_map.mp ho'
    obtain ⟨l, hl, hjl⟩ := List.mem_flatMap.mp hj
    have hp := (h.chains l (List.mem_append_left _ hl)).price_restingAt hjl
    rw [RestingOrder.rank, hp, hrank]
    exact (hs.2.2 l hl (price, xs) List.mem_cons_self).le
  have hx : ∀ o' ∈ xs.map p.restingAt,
      RestingOrder.rank side o' ≤ RestingOrder.rank side o := fun o' ho' => by
    obtain ⟨j, hj, rfl⟩ := List.mem_map.mp ho'
    rw [RestingOrder.rank, h.chain.price_restingAt hj, hrank]
  have hB : ∀ o' ∈ B.slots.map p.restingAt,
      RestingOrder.rank side o < RestingOrder.rank side o' := fun o' ho' => by
    obtain ⟨j, hj, rfl⟩ := List.mem_map.mp ho'
    obtain ⟨l, hl, hjl⟩ := List.mem_flatMap.mp hj
    have hp := (h.chains l (by simp [hl])).price_restingAt hjl
    rw [hrank, RestingOrder.rank, hp]
    exact (List.pairwise_cons.mp hs.2.1).1 l hl
  rw [List.map_append, List.map_append, enqueue_append hA, enqueue_append hx, enqueue_of_lt hB]

end SideRepr

namespace Book

variable {b : Book} {s : PriorityBook} {L : Side → Ladder} {vacant : List Index} {side : Side}
  {A B M : Ladder} {price : Price} {xs ys : List Index} {i : Index} {o : Order} {room : ℕ}

/-! ## Linking -/

/-- **`level_for_insert`** finds or makes the level of a price. -/
theorem levelForInsert_spec (h : SideRepr b.pool room side (b.levels side) M) (hfull : M.Full)
    (price : Price) (hroom : M.length < room) :
    ∃ levels' A xs B, b.levelForInsert side price = .ok (b.setLevels side levels', B.length) ∧
      M = Ladder.put A price xs B ∧ (A ++ B).Full ∧
      SideRepr b.pool room side levels' (A ++ (price, xs) :: B) := by
  obtain ⟨levels', A, xs, B, heq, hM, hf, hs⟩ := h.getOrInsert hfull price hroom
  refine ⟨levels', A, xs, B, ?_, hM, hf, hs⟩
  rw [levelForInsert, heq]
  rfl

/-- **Appending** to a level is `enqueue` on what the side shows. -/
theorem appendAt_enqueue
    (h : SideRepr b.pool room side (b.levels side) (A ++ (o.price, xs) :: B))
    (hnd : (i :: (A ++ (o.price, xs) :: B).slots).Nodup) (hnil : i ≠ kNilIndex)
    (ho : b.pool.value? i = some o) (hunlinked : o.unlinked = o) (hs : o.side = side)
    (hq : o.qty ≠ 0) (hfull : (A ++ B).Full) :
    ∃ b' M', b.appendAt side B.length i = .ok b' ∧ SameBut side b b' ∧ Relinks b.pool b'.pool ∧
      (∀ j, j ∉ i :: (A ++ (o.price, xs) :: B).slots → b'.pool.value? j = b.pool.value? j) ∧
      SideRepr b'.pool room side (b'.levels side) M' ∧ M'.Full ∧
      M'.slots.Perm (i :: (A ++ (o.price, xs) :: B).slots) ∧
      M'.slots.map b'.pool.restingAt = enqueue (RestingOrder.rank side) o.resting
        ((A ++ (o.price, xs) :: B).slots.map b.pool.restingAt) := by
  obtain ⟨b', heq, hsame, hr, hv, hside⟩ := appendAt_spec h hnd hnil ho hunlinked hs rfl hq
  refine ⟨b', A ++ (o.price, xs ++ [i]) :: B, heq, hsame, hr, fun j hj => hv j fun hj' => hj ?_,
    hside, ?_, ?_, ?_⟩
  · rcases List.mem_append.mp hj' with hj' | hj'
    · simp [hj']
    · simp [List.mem_singleton.mp hj']
  · intro l hl
    rcases List.mem_append.mp hl with hl | hl
    · exact hfull l (List.mem_append_left _ hl)
    · rcases List.mem_cons.mp hl with rfl | hl
      · simp
      · exact hfull l (List.mem_append_right _ hl)
  · exact Ladder.slots_append_link
  · have hmap : ∀ zs : List Index, zs.map b'.pool.restingAt = zs.map b.pool.restingAt :=
      fun zs => List.map_congr_left fun j _ => restingAt_relinks hr j
    rw [Ladder.slots_append, Ladder.slots_cons, Ladder.slots_append, Ladder.slots_cons,
      h.enqueue_eq (o := o.resting) rfl, hmap]
    simp [restingAt_of_value? ho]

/-! ## The residual of a limit order -/

/-- The orders shown are those in the slots in use. -/
theorem Shows.orders_eq (hs : b.Shows L s) : s.orders = (allSlots L).map b.pool.restingAt := by
  rw [PriorityBook.orders, hs.resting, hs.resting, allSlots, List.map_append]

/-- There is room in the abstract book exactly if a slot is free. -/
theorem Shows.room_iff (h : b.Repr L vacant) (hs : b.Shows L s) :
    s.orders.length < s.capacity ↔ vacant ≠ [] := by
  have hlen := h.pool.length_add
  rw [hs.orders_eq, List.length_map, hs.capacity, ← List.length_pos_iff]
  omega

/-- What an id is in the pool and in what is shown. -/
theorem Repr.hasId_iff (h : b.Repr L vacant) (hi : i ∈ allSlots L) {id : OrderId} :
    HasId b.pool i id ↔ (b.pool.restingAt i).orderId = id := by
  obtain ⟨o, ho⟩ := h.pool.occupied i hi
  rw [HasId, ho, restingAt_of_value? ho, Option.map_some, Option.some_inj]
  rfl

/-- An id that does not rest is the id of no slot. -/
theorem Repr.absent (h : b.Repr L vacant) (hs : b.Shows L s) {id : OrderId} (hid : id ∉ s.ids) :
    ∀ i ∈ allSlots L, ¬ HasId b.pool i id := by
  intro i hi hi'
  rw [h.hasId_iff hi] at hi'
  apply hid
  rw [PriorityBook.ids, hs.orders_eq, List.map_map]
  exact List.mem_map.mpr ⟨i, hi, hi'⟩

/-- With a full pool only the level array of the side is touched, and its live levels are what
they were: a level that was made for the order is taken out again. -/
theorem rest_full_frame (h : b.Repr L []) (side : Side) (price : Price) (incoming : Order)
    (seq : SeqNo) :
    ∃ levels', b.rest side price incoming seq = .ok (b.setLevels side levels', false) ∧
      SideRepr b.pool (b.pool.slots.size + 1) side levels' (L side) := by
  obtain ⟨levels', A, xs, B, heq, hL, hf, hside⟩ :=
    levelForInsert_spec (h.sides side) (h.full side) price (h.length_lt side)
  have hnil : kNilIndex ∉ xs := hside.chain.list.nil_notMem
  have hinvalid : (!({} : Handle).valid) = true := by decide
  rw [rest, heq]
  simp only [ok_bind, pool_setLevels, h.pool.allocate_full, hinvalid, if_true, levels_withPool,
    levels_setLevels, hside.read, Level.head_ofList, IsList.head_eq_nil_iff hnil]
  have hsame : ({ b.setLevels side levels' with pool := b.pool } : Book)
      = b.setLevels side levels' := by cases side <;> rfl
  rw [hsame]
  by_cases hxs : xs = []
  · -- the level was made for this order
    subst hxs
    obtain ⟨levels'', herase, hside'⟩ := hside.erase
    rw [if_pos rfl, eraseLevel, levels_setLevels, herase]
    rw [Ladder.put, if_pos rfl] at hL
    refine ⟨levels'', ?_, hL ▸ hside'⟩
    cases side <;> rfl
  · rw [Ladder.put, if_neg hxs] at hL
    exact ⟨levels', if_neg hxs, hL ▸ hside⟩

/-- **With a full pool** nothing rests, and no level stays behind. -/
theorem rest_full (h : b.Repr L []) (hs : b.Shows L s) (side : Side) (price : Price)
    (incoming : Order) (seq : SeqNo) :
    ∃ b', b.rest side price incoming seq = .ok (b', false) ∧ b'.Repr L [] ∧ b'.Shows L s := by
  obtain ⟨levels', heq, hside⟩ := rest_full_frame h side price incoming seq
  refine ⟨_, heq, ⟨by simpa using h.pool, by simpa using h.index, fun side' => ?_, h.full⟩,
    by simpa using hs.capacity, fun side' => by simpa using hs.resting side',
    by simpa using hs.nextSeq, by simpa using hs.nextTradeId⟩
  rcases Side.eq_or_opposite side side' with rfl | rfl
  · simpa using hside
  · simpa using h.sides _

/-- The first free slot with an order in it, before the order is linked. -/
theorem allocate_write (h : b.Repr L (i :: vacant)) (incoming o : Order) :
    ∃ p, b.pool.allocate incoming = .ok (makeHandle i (b.pool.generationAt i), p) ∧
      p.get (makeHandle i (b.pool.generationAt i)) = .ok (some incoming) ∧
      p.value? i = some incoming ∧ (p.setValue i o).Repr vacant (i :: allSlots L) ∧
      (p.setValue i o).value? i = some o ∧
      (∀ j ∈ allSlots L, (p.setValue i o).value? j = b.pool.value? j) ∧
      Indexed (p.setValue i o) b.idMap (allSlots L) ∧
      p.generationAt i = b.pool.generationAt i ∧ p.slots.size = b.pool.slots.size := by
  obtain ⟨p, halloc, hp, hi, hv, hg, hsize⟩ := h.pool.allocate (v := incoming)
  have hnotMem : i ∉ allSlots L := (List.nodup_cons.mp hp.nodup_used).1
  have hget := hp.get_of_mem hi
  rw [hg] at hget
  have hv' : ∀ j ∈ allSlots L, (p.setValue i o).value? j = b.pool.value? j := by
    intro j hj
    have hne : j ≠ i := ne_of_mem_of_not_mem hj hnotMem
    rw [value?_setValue_of_ne hne, hv j hne]
  refine ⟨p, halloc, hget, hi, hp.setValue List.mem_cons_self,
    value?_setValue_self (lt_of_value? hi), hv', ?_, hg i, hsize⟩
  refine h.index.congr (fun j hj id => ?_) (fun j _ => hg j) ?_
  · rw [HasId, HasId, hv' j hj]
  · rw [size_setValue, hsize]

/-- **With a free slot** the order rests behind everything at its price or better. -/
theorem rest_room (h : b.Repr L (i :: vacant)) (hs : b.Shows L s) (incoming : Order)
    (hq : incoming.qty ≠ 0) (hunlinked : incoming.unlinked = incoming)
    (hid : incoming.orderId ∉ s.ids) (seq : SeqNo) :
    ∃ b' L' vacant', b.rest incoming.side incoming.price incoming seq = .ok (b', true) ∧
      b'.Repr L' vacant' ∧ b'.Shows L' (s.insert { incoming.resting with seqNo := seq }) := by
  obtain ⟨side, hside⟩ : ∃ side, incoming.side = side := ⟨_, rfl⟩
  rw [hside]
  obtain ⟨levels', A, xs, B, heq, hL, hf, hsr⟩ :=
    levelForInsert_spec (h.sides side) (h.full side) incoming.price (h.length_lt side)
  have hslots : (L side).slots = (A ++ (incoming.price, xs) :: B : Ladder).slots := by
    rw [hL, Ladder.slots_put_eq]
  -- the slot, with the sequence number of the order
  obtain ⟨o, ho⟩ : ∃ o : Order, { incoming with seqNo := seq } = o := ⟨_, rfl⟩
  obtain ⟨p₁, halloc, hget, hi₁, hp₂, hi₂, hv₂, hindex₂, hg₁, hsize₁⟩ := allocate_write h incoming o
  have hnotMem : i ∉ allSlots L := (List.nodup_cons.mp hp₂.nodup_used).1
  have hne : ∀ j ∈ allSlots L, j ≠ i := fun j hj => ne_of_mem_of_not_mem hj hnotMem
  have hnil : i ≠ kNilIndex := hp₂.ne_nil_of_mem (by simp)
  -- its place
  have hmem : ∀ j ∈ (A ++ (incoming.price, xs) :: B : Ladder).slots, j ∈ allSlots L := fun j hj =>
    Repr.mem_allSlots (hslots ▸ hj)
  have hnd : (i :: (A ++ (incoming.price, xs) :: B : Ladder).slots).Nodup := by
    refine List.nodup_cons.mpr ⟨fun hj => hnotMem (hmem i hj), ?_⟩
    rw [← hslots]
    exact (List.nodup_append.mp (h.nodup side)).1
  have hsr₂ := hsr.congr fun j hj => hv₂ j (hmem j hj)
  obtain ⟨b₂, hb₂⟩ : ∃ b₂, { b.setLevels side levels' with pool := p₁.setValue i o } = b₂ :=
    ⟨_, rfl⟩
  have hpool₂ : b₂.pool = p₁.setValue i o := by rw [← hb₂]
  have hlevels₂ : b₂.levels side = levels' := by rw [← hb₂, levels_withPool, levels_setLevels]
  have hframe₂ : SameBut side b b₂ := by
    rw [← hb₂]
    exact (SameBut.setLevels b side levels').trans (SameBut.withPool _ _ _)
  have hprice : incoming.price = o.price := ho ▸ rfl
  have hunlinked₂ : o.unlinked = o :=
    ho ▸ congrArg (fun o : Order => { o with seqNo := seq }) hunlinked
  rw [← hpool₂, ← hlevels₂, hprice] at hsr₂
  rw [hprice] at hnd hslots
  rw [← hpool₂] at hi₂ hp₂ hv₂ hindex₂
  obtain ⟨b₃, M', happend, hframe₃, hr₃, hv₃, hsr₃, hfull₃, hperm₃, hmap₃⟩ :=
    appendAt_enqueue hsr₂ hnd hnil hi₂ hunlinked₂ (ho ▸ hside) (ho ▸ hq) hf
  -- its id
  have hindex₃ : Indexed b₃.pool b₃.idMap (allSlots L) := by
    rw [hframe₃.idMap, hframe₂.idMap]
    exact hindex₂.relinks hr₃
  have habs : ∀ j ∈ allSlots L, ¬ HasId b₃.pool j incoming.orderId := fun j hj hj' => by
    have hrest : (b₃.pool.restingAt j).orderId = (b.pool.restingAt j).orderId := by
      rw [restingAt_relinks hr₃, restingAt_congr (hv₂ j hj)]
    have hid' := h.absent hs hid j hj
    rw [h.hasId_iff hj] at hid'
    obtain ⟨oj, hoj⟩ := (hr₃.repr hp₂).occupied j (List.mem_cons_of_mem _ hj)
    rw [HasId, hoj, Option.map_some, Option.some_inj] at hj'
    rw [← hrest, restingAt_of_value? hoj] at hid'
    exact hid' hj'
  have hid₃ : HasId b₃.pool i incoming.orderId := by
    obtain ⟨o', ho', he⟩ := hr₃.value? hi₂
    have hrest : o'.orderId = o.orderId := congrArg RestingOrder.orderId (Order.resting_congr he)
    rw [HasId, ho', Option.map_some, hrest, ← ho]
  obtain ⟨m', hinsert, hindex₄⟩ := hindex₃.insert (hr₃.repr hp₂) hid₃ habs
  have hhandle : b₃.pool.handleAt i = makeHandle i (b.pool.generationAt i) := by
    rw [handleAt, hr₃.generation, hpool₂, generationAt_setValue, hg₁]
  rw [hhandle] at hinsert
  have hperm : (M'.slots ++ (L side.opposite).slots).Perm (i :: allSlots L) := by
    refine (hperm₃.append_right _).trans ?_
    rw [List.cons_append, ← hslots]
    exact (allSlots_perm L side).symm.cons i
  have hsize₃ : b₃.pool.slots.size = b.pool.slots.size := by
    rw [hr₃.size, hpool₂, size_setValue, hsize₁]
  have hv : ∀ j ∈ (L side.opposite).slots, b₃.pool.value? j = b.pool.value? j := fun j hj => by
    rw [hv₃ j ?_, hv₂ j (Repr.mem_allSlots hj)]
    rw [List.mem_cons, not_or, ← hslots]
    exact ⟨hne j (Repr.mem_allSlots hj), fun hj' =>
      (List.nodup_append.mp (h.nodup side)).2.2 j hj' j hj rfl⟩
  have hvalid : (!(makeHandle i (b.pool.generationAt i)).valid) = false := by
    rw [valid_makeHandle _ hnil]
    rfl
  refine ⟨{ b₃ with idMap := m' }, Function.update L side M', vacant, ?_, h.update ?_ hsize₃ hv
    ((hr₃.repr hp₂).of_perm hperm) (hindex₄.of_perm hperm) ?_ hfull₃, ⟨?_, fun side' => ?_, ?_, ?_⟩⟩
  · rw [rest, heq]
    simp only [ok_bind, pool_setLevels, halloc, hvalid, Bool.false_eq_true, if_false, hget,
      orFault_some, index_makeHandle, modify_of_value? hi₁, ho, hb₂, happend,
      hindex₃.contains_of_absent habs, require_of, hinsert]
    rfl
  · rw [levels_withIdMap, hframe₃.levels, hframe₂.levels]
  · rw [levels_withIdMap]
    exact hsr₃
  · exact hs.capacity.trans hsize₃.symm
  · have hside' : ({ incoming.resting with seqNo := seq } : RestingOrder).side = side := hside
    have hrest : o.resting = { incoming.resting with seqNo := seq } := ho ▸ rfl
    rw [PriorityBook.insert, hside', PriorityBook.setSide]
    rcases Side.eq_or_opposite side side' with rfl | rfl
    · simp only [Function.update_self, hmap₃, hrest, ← hslots, hs.resting]
      congr 1
      exact List.map_congr_left fun j hj => (restingAt_congr (hv₂ j (Repr.mem_allSlots hj))).symm
    · simp only [Function.update_of_ne (Side.opposite_ne side), hs.resting]
      exact List.map_congr_left fun j hj => (restingAt_congr (hv j hj)).symm
  · show s.nextSeq = b₃.nextSeq
    rw [hframe₃.nextSeq, hframe₂.nextSeq, hs.nextSeq]
  · show s.nextTradeId = b₃.nextTradeId
    rw [hframe₃.nextTradeId, hframe₂.nextTradeId, hs.nextTradeId]

end Book

end MatchingEngine
