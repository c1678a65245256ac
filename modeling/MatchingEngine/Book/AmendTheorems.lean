import MatchingEngine.Book.AddTheorems

/-!
# Cancelling and modifying orders

Both commands find an order by its id, and unless a modify keeps the place of the order, both
take its slot out of its level first (`unlinkAt_detaches`). A cancel then frees the slot, a
modify links it in again with its new price.
-/

namespace MatchingEngine

open FixedPool IntrusiveList PriorityList

namespace Book

variable {b b' : Book} {s : PriorityBook} {L : Side → Ladder} {vacant : List Index} {side : Side}
  {M : Ladder} {xs ys : List Index} {i : Index} {o : Order} {id : OrderId}

/-! ## Detaching a slot -/

/-- The slot `i` was taken out of its side, between `xs` and `ys`, and nothing else changed. -/
structure Detached (b b' : Book) (L : Ladder) (side : Side) (xs : List Index) (i : Index)
    (ys : List Index) (M : Ladder) : Prop where
  before : L.slots = xs ++ i :: ys
  after : M.slots = xs ++ ys
  full : M.Full
  frame : SameBut side b b'
  relinks : Relinks b.pool b'.pool
  others : ∀ j, j ∉ L.slots → b'.pool.value? j = b.pool.value? j
  next : b'.pool.nxt i = kNilIndex
  prev : b'.pool.prv i = kNilIndex
  side : SideRepr b'.pool (b.pool.slots.size + 1) side (b'.levels side) M

/-- **Unlinking** an order in use detaches its slot. -/
theorem unlinkAt_detaches (h : b.Repr L vacant) (hi : i ∈ (L o.side).slots)
    (ho : b.pool.value? i = some o) :
    ∃ pos b' xs ys M, b.levelFor o.side o.price = .ok pos ∧
      b.unlinkAt o.side pos o.price i = .ok b' ∧ Detached b b' (L o.side) o.side xs i ys M := by
  have hside := h.sides o.side
  have hnd := (List.nodup_append.mp (h.nodup o.side)).1
  have hfull := h.full o.side
  obtain ⟨(A : Ladder), price, xs, ys, (B : Ladder), hL, o', ho', -, hp, -⟩ := hside.mem_split hi
  obtain rfl : o' = o := Option.some.inj (ho'.symm.trans ho)
  subst hp
  rw [hL] at hside hnd hfull ⊢
  obtain ⟨b', heq, hframe, hr, hv, hn, hb, hside'⟩ := unlinkAt_spec hside hnd
  refine ⟨B.length, b', A.slots ++ xs, ys ++ B.slots, Ladder.put A o'.price (xs ++ ys) B,
    hside.atPrice, heq, ?_, ?_, Ladder.full_put fun l hl => hfull l ?_, hframe, hr,
    fun j hj => hv j fun hj' => hj ?_, hn, hb, hside'⟩
  · rw [Ladder.slots_append, Ladder.slots_cons, List.append_assoc, List.append_assoc,
      List.cons_append]
  · rw [Ladder.slots_put, List.append_assoc, List.append_assoc]
  · rcases List.mem_append.mp hl with hl | hl <;> simp [hl]
  · rw [Ladder.slots_append, Ladder.slots_cons]
    exact List.mem_append_right _ (List.mem_append_left _ hj')

/-- Without one of its orders, the abstract book still shows the other side. -/
theorem Shows.resting_remove_opposite (hs : b.Shows L s) {p : FixedPool Order} {o' : RestingOrder}
    (hside : o'.side = side)
    (hv : ∀ j ∈ (L side.opposite).slots, p.value? j = b.pool.value? j) :
    (s.remove o').resting side.opposite = (L side.opposite).slots.map p.restingAt := by
  have hkeep : (s.remove o').resting side.opposite = s.resting side.opposite := by
    rw [PriorityBook.remove, hside]
    exact PriorityBook.resting_setSide_of_ne (Side.opposite_ne side) _
  rw [hkeep, hs.resting]
  exact List.map_congr_left fun j hj => (restingAt_congr (hv j hj)).symm

namespace Detached

/-- The slots in use, with the detached one in front of those of the other side. -/
theorem perm (hd : Detached b b' (L side) side xs i ys M) :
    (allSlots L).Perm (xs ++ i :: (ys ++ (L side.opposite).slots)) := by
  have hp := allSlots_perm L side
  rw [hd.before, List.append_assoc, List.cons_append] at hp
  exact hp

/-- The slots in use, with the detached one in front of those left on its side. -/
theorem perm_after (hd : Detached b b' (L side) side xs i ys M) :
    (i :: M.slots ++ (L side.opposite).slots).Perm
      (xs ++ i :: (ys ++ (L side.opposite).slots)) := by
  rw [hd.after, List.cons_append, List.append_assoc]
  exact List.perm_middle.symm

theorem mem (hd : Detached b b' (L side) side xs i ys M) : i ∈ allSlots L := by
  rw [hd.perm.mem_iff]
  simp

/-- The detached order keeps everything but its links. -/
theorem value? {L : Ladder} (hd : Detached b b' L side xs i ys M) (ho : b.pool.value? i = some o) :
    b'.pool.value? i = some o.unlinked := by
  obtain ⟨o₁, ho₁, he⟩ := hd.relinks.value? ho
  have hnext : o₁.nextIdx = kNilIndex := (nxt_of_value? ho₁).symm.trans hd.next
  have hprev : o₁.prevIdx = kNilIndex := (prv_of_value? ho₁).symm.trans hd.prev
  rw [ho₁, ← he, Order.unlinked_eq_self hnext hprev]

variable (h : b.Repr L vacant) (hd : Detached b b' (L side) side xs i ys M)

include h hd

/-- The slots of the book before are all different. -/
theorem nodup : (xs ++ i :: (ys ++ (L side.opposite).slots)).Nodup :=
  hd.perm.nodup_iff.mp h.pool.nodup_used

/-- The slot that was taken out is in no level. -/
theorem notMem : i ∉ xs ++ (ys ++ (L side.opposite).slots) := by
  have hnd := hd.nodup h
  rw [List.nodup_middle, List.nodup_cons] at hnd
  exact hnd.1

theorem ne_of_mem {j : Index} (hj : j ∈ M.slots) : j ≠ i := by
  rintro rfl
  rw [hd.after] at hj
  refine hd.notMem h ?_
  rw [← List.append_assoc]
  exact List.mem_append_left _ hj

/-- The slots of the book after are all different. -/
theorem nodup_after : (i :: M.slots ++ (L side.opposite).slots).Nodup :=
  hd.perm_after.nodup_iff.mpr (hd.nodup h)

/-- The other side keeps its orders. -/
theorem opposite {j : Index} (hj : j ∈ (L side.opposite).slots) :
    b'.pool.value? j = b.pool.value? j :=
  hd.others j fun hj' => (List.nodup_append.mp (h.nodup side)).2.2 j hj' j hj rfl

/-- The slot is still in use. -/
theorem pool : b'.pool.Repr vacant (xs ++ i :: (ys ++ (L side.opposite).slots)) :=
  hd.relinks.repr (h.pool.of_perm hd.perm.symm)

/-- The id map still knows the order. -/
theorem index : Indexed b'.pool b'.idMap (xs ++ i :: (ys ++ (L side.opposite).slots)) := by
  rw [hd.frame.idMap]
  exact (h.index.of_perm hd.perm.symm).relinks hd.relinks

/-- Without the order of the slot, the abstract side shows the slots that are left. -/
theorem resting_remove (hs : b.Shows L s) (hside : (b.pool.restingAt i).side = side) :
    (s.remove (b.pool.restingAt i)).resting side = M.slots.map b.pool.restingAt := by
  have hne : ∀ j ∈ M.slots, (b.pool.restingAt j).orderId ≠ (b.pool.restingAt i).orderId := by
    intro j hj he
    have hmem : j ∈ allSlots L := by
      rw [hd.after] at hj
      rw [hd.perm.mem_iff]
      rcases List.mem_append.mp hj with hj | hj <;> simp [hj]
    exact hd.ne_of_mem h hj (h.index.id_inj hmem hd.mem ((h.hasId_iff hmem).mpr he)
      ((h.hasId_iff hd.mem).mpr rfl))
  have hkeep : ∀ zs : List Index, (∀ j ∈ zs, j ∈ M.slots) →
      (zs.map b.pool.restingAt).filter (fun o' => o'.orderId != (b.pool.restingAt i).orderId)
        = zs.map b.pool.restingAt := by
    intro zs hzs
    refine List.filter_eq_self.mpr fun o' ho' => ?_
    obtain ⟨j, hj, rfl⟩ := List.mem_map.mp ho'
    exact bne_iff_ne.mpr (hne j (hzs j hj))
  have hx := hkeep xs fun j hj => by rw [hd.after]; exact List.mem_append_left _ hj
  have hy := hkeep ys fun j hj => by rw [hd.after]; exact List.mem_append_right _ hj
  rw [PriorityBook.remove, hside, PriorityBook.resting_setSide, hs.resting, hd.before, hd.after,
    List.map_append, List.map_append, List.map_cons, List.filter_append, hx,
    List.filter_cons_of_neg (by simp), hy]

/-- With another order in its place, the abstract book shows the slots that are left and the
new one. -/
theorem resting_insert (hs : b.Shows L s) {p : FixedPool Order} {M' : Ladder} {o' : RestingOrder}
    (hside : (b.pool.restingAt i).side = side) (hside' : o'.side = side)
    (hmap : M'.slots.map p.restingAt =
      enqueue (RestingOrder.rank side) o' (M.slots.map b.pool.restingAt))
    (hv : ∀ j ∈ (L side.opposite).slots, p.value? j = b.pool.value? j) (taker : Side) :
    ((s.remove (b.pool.restingAt i)).insert o').resting taker =
      (Function.update L side M' taker).slots.map p.restingAt := by
  rcases Side.eq_or_opposite side taker with rfl | rfl
  · have hinsert := PriorityBook.resting_insert (s.remove (b.pool.restingAt i)) o'
    rw [hside', hd.resting_remove h hs hside] at hinsert
    rw [hinsert, Function.update_self, hmap]
  · have hne : side.opposite ≠ o'.side := fun e => Side.opposite_ne side (e.trans hside')
    rw [PriorityBook.resting_insert_of_ne hne, Function.update_of_ne (Side.opposite_ne side)]
    exact hs.resting_remove_opposite hside hv

end Detached

/-! ## Cancel -/

/-- A cancel of an unknown id is only counted. -/
theorem cancelOrder_of_absent (hfind : b.idMap.find id = .ok none) :
    b.cancelOrder id = .ok (b.tick, false) := by
  rw [cancelOrder]
  simp only [hfind]
  rfl

/-- A cancel of a known id unlinks the order, drops its entry and frees its slot. -/
theorem cancelOrder_of_find {h : Handle} (hfind : b.idMap.find id = .ok (some h))
    (hget : b.pool.get h = .ok (some o)) :
    b.cancelOrder id = (do
      let pos ← b.tick.levelFor o.side o.price
      let b ← b.tick.unlinkAt o.side pos o.price h.index
      let (_, idMap) ← b.idMap.erase id
      return ({ b with pool := b.pool.free h, idMap }, true)) := by
  rw [cancelOrder]
  simp only [hfind, ok_bind, hget]
  rfl

/-- **Cancelling** an order takes it, and nothing else, out of the book. -/
theorem cancelOrder_spec (h : b.Represents s) (id : OrderId) :
    ∃ b', b.cancelOrder id = .ok (b', (s.cancel id).2) ∧ b'.Represents (s.cancel id).1 := by
  have htick := h.tick
  obtain ⟨L, vacant, hrepr, hs⟩ := h
  rw [PriorityBook.cancel]
  rcases find_cases hrepr hs id with ⟨hfind, hnone⟩ | ⟨i, o, hi, ho, hid, hfind, hsome⟩
  · rw [hnone]
    exact ⟨b.tick, cancelOrder_of_absent hfind, htick⟩
  · rw [hsome]
    have hrest : b.tick.pool.restingAt i = o.resting := restingAt_of_value? ho
    obtain ⟨pos, b₁, xs, ys, M, hpos, hunlink, hd⟩ := unlinkAt_detaches hrepr.tick hi ho
    obtain ⟨p₂, hfree, hp₂, hv₂, hg₂, -, hsize₂⟩ := (hd.pool hrepr.tick).free
    have hid₁ : HasId b₁.pool i id := by
      obtain ⟨o₁, ho₁, he⟩ := hd.relinks.value? ho
      rw [HasId, ho₁, Option.map_some, ← hid]
      exact congrArg (fun o : RestingOrder => some o.orderId) (Order.resting_congr he)
    obtain ⟨m', herase, hindex⟩ := (hd.index hrepr.tick).erase (hd.nodup hrepr.tick) hid₁
    have hne : ∀ j ∈ xs ++ (ys ++ (L o.side.opposite).slots), j ≠ i := fun j hj =>
      ne_of_mem_of_not_mem hj (hd.notMem hrepr.tick)
    have hne' : ∀ j ∈ (L o.side.opposite).slots, j ≠ i := fun j hj =>
      hne j (List.mem_append_right _ (List.mem_append_right _ hj))
    have hhandle : b.pool.handleAt i = makeHandle i (b₁.pool.generationAt i) :=
      congrArg (makeHandle i) (hd.relinks.generation i).symm
    refine ⟨{ b₁ with pool := p₂, idMap := m' }, ?_, Function.update L o.side M, i :: vacant,
      hrepr.tick.update ?_ (hsize₂.trans hd.relinks.size) ?_ ?_ ?_ ?_ hd.full, ?_, ?_, ?_, ?_⟩
    · rw [cancelOrder_of_find hfind (hrepr.pool.get_of_mem ho), hpos, ok_bind, handleAt,
        index_makeHandle, hunlink, ok_bind, herase, ← handleAt, hhandle, hfree]
      rfl
    · rw [levels_withPool_withIdMap, hd.frame.levels]
    · intro j hj
      exact (hv₂ j (hne' j hj)).trans (hd.opposite hrepr.tick hj)
    · rw [hd.after, List.append_assoc]
      exact hp₂
    · rw [hd.after, List.append_assoc]
      exact hindex.congr (fun j hj id => by rw [HasId, HasId, hv₂ j (hne j hj)])
        (fun j hj => hg₂ j (hne j hj)) hsize₂
    · rw [levels_withPool_withIdMap]
      exact hd.side.congr fun j hj => hv₂ j (hd.ne_of_mem hrepr.tick hj)
    · exact hs.capacity.trans (hsize₂.trans hd.relinks.size).symm
    · intro side
      have hside : (b.tick.pool.restingAt i).side = o.side := by
        rw [hrest]
        rfl
      rw [← hrest]
      rcases Side.eq_or_opposite o.side side with rfl | rfl
      · rw [hd.resting_remove hrepr.tick hs.tick hside, Function.update_self]
        refine List.map_congr_left fun j hj => ?_
        rw [restingAt_congr (hv₂ j (hd.ne_of_mem hrepr.tick hj)), restingAt_relinks hd.relinks]
      · rw [Function.update_of_ne (Side.opposite_ne o.side)]
        apply hs.tick.resting_remove_opposite hside
        intro j hj
        exact (hv₂ j (hne' j hj)).trans (hd.opposite hrepr.tick hj)
    · exact hs.tick.nextSeq.trans hd.frame.nextSeq.symm
    · exact hs.nextTradeId.trans hd.frame.nextTradeId.symm

/-! ## Modify -/

/-- A modified order, before it is linked in again. -/
def moved (o : Order) (price : Price) (qty : Qty) (seq : SeqNo) : Order :=
  { o.unlinked with price, qty, seqNo := seq }

/-- A modify to quantity 0 is only counted. -/
theorem modifyOrder_zero (id : OrderId) (price : Price) :
    b.modifyOrder id price 0 = .ok (b.tick, false) := rfl

/-- A modify of an unknown id is only counted. -/
theorem modifyOrder_of_absent {price : Price} {qty : Qty} (hq : qty ≠ 0)
    (hfind : b.idMap.find id = .ok none) : b.modifyOrder id price qty = .ok (b.tick, false) := by
  rw [modifyOrder, if_neg hq]
  simp only [hfind]
  rfl

/-- A modify of a known id changes the quantity in place, or moves the order. -/
theorem modifyOrder_of_find {price : Price} {qty : Qty} {h : Handle} (hq : qty ≠ 0)
    (hfind : b.idMap.find id = .ok (some h)) (hget : b.pool.get h = .ok (some o)) :
    b.modifyOrder id price qty =
      if price = o.price ∧ qty ≤ o.qty then (do
        let pool ← b.pool.modify h.index fun o => { o with qty }
        return ({ b.tick with pool }, true))
      else (do
        if ← b.tick.wouldCross o.side price then return (b.tick, false)
        let pos ← b.tick.levelFor o.side o.price
        let b₁ ← b.tick.unlinkAt o.side pos o.price h.index
        let pool ← b₁.pool.modify h.index fun o => { o with price, qty, seqNo := b.nextSeq }
        let (b₂, pos) ← { b₁ with pool }.levelForInsert o.side price
        return (← b₂.appendAt o.side pos h.index, true)) := by
  rw [modifyOrder, if_neg hq]
  simp only [hfind, ok_bind, hget]
  rfl

/-- A smaller quantity at the same price is written in place. -/
theorem setQty_spec (h : b.Repr L vacant) (hs : b.Shows L s) (hi : i ∈ (L o.side).slots)
    (ho : b.pool.value? i = some o) {qty : Qty} (hq : qty ≠ 0) :
    { b with pool := b.pool.setValue i { o with qty } }.Represents (s.setQty o.resting qty) := by
  have hmem : i ∈ allSlots L := Repr.mem_allSlots hi
  have hid : HasId b.pool i o.orderId := hasId_of_value? ho
  refine ⟨L, vacant, ⟨h.pool.setValue hmem, h.index.setValue ho rfl, fun side => ?_, h.full⟩,
    hs.capacity.trans size_setValue.symm, fun side => ?_, hs.nextSeq, hs.nextTradeId⟩
  · rw [levels_withPool, size_setValue]
    exact (h.sides side).setValue ho rfl rfl rfl rfl hq
  · rcases Side.eq_or_opposite o.side side with rfl | rfl
    · have hset : (s.setQty o.resting qty).resting o.side = (s.resting o.side).map fun o' =>
          if o'.orderId = o.orderId then { o' with qty } else o' :=
        PriorityBook.resting_setSide _ _ _
      rw [hset, hs.resting, List.map_map]
      refine List.map_congr_left fun j hj => ?_
      show (if (b.pool.restingAt j).orderId = o.orderId then _ else _) = _
      by_cases hj' : j = i
      · rw [hj', restingAt_of_value? ho, if_pos (show o.resting.orderId = o.orderId from rfl),
          restingAt_of_value? (value?_setValue_self (lt_of_value? ho))]
        rfl
      · rw [restingAt_congr (value?_setValue_of_ne hj'), if_neg fun he => hj' ?_]
        exact h.index.id_inj (Repr.mem_allSlots hj) hmem
          ((h.hasId_iff (Repr.mem_allSlots hj)).mpr he) hid
    · have hset : (s.setQty o.resting qty).resting o.side.opposite = s.resting o.side.opposite :=
        PriorityBook.resting_setSide_of_ne (Side.opposite_ne o.side) _
      rw [hset, hs.resting]
      refine List.map_congr_left fun j hj => (restingAt_congr (value?_setValue_of_ne ?_)).symm
      rintro rfl
      exact (List.nodup_append.mp (h.nodup o.side)).2.2 j hi j hj rfl

/-- An order that moves is taken out and put behind everything at its new price or better. -/
theorem move_spec (h : b.Repr L vacant) (hs : b.Shows L s) (hi : i ∈ (L o.side).slots)
    (ho : b.pool.value? i = some o) (price : Price) {qty : Qty} (hq : qty ≠ 0) (seq : SeqNo) :
    ∃ b', (do
        let pos ← b.levelFor o.side o.price
        let b₁ ← b.unlinkAt o.side pos o.price i
        let pool ← b₁.pool.modify i fun o => { o with price, qty, seqNo := seq }
        let (b₂, pos) ← { b₁ with pool }.levelForInsert o.side price
        return (← b₂.appendAt o.side pos i, true)) = Except.ok (b', true) ∧
      b'.Represents ((s.remove o.resting).insert { o.resting with price, qty, seqNo := seq }) := by
  obtain ⟨pos, b₁, xs, ys, M, hpos, hunlink, hd⟩ := unlinkAt_detaches h hi ho
  -- the detached order
  have ho₁ := hd.value? ho
  obtain ⟨o₂, ho₂⟩ : ∃ o₂, moved o price qty seq = o₂ := ⟨_, rfl⟩
  have hrest₂ : o₂.resting = { o.resting with price, qty, seqNo := seq } := by rw [← ho₂]; rfl
  have hs₂ : o₂.side = o.side := by rw [← ho₂]; rfl
  have hprice₂ : price = o₂.price := by rw [← ho₂]; rfl
  obtain ⟨p₂, hset⟩ : ∃ p₂, b₁.pool.setValue i o₂ = p₂ := ⟨_, rfl⟩
  have hi₂ : p₂.value? i = some o₂ := by rw [← hset, value?_setValue_self (lt_of_value? ho₁)]
  have hv₂ : ∀ j, j ≠ i → p₂.value? j = b₁.pool.value? j := fun j hj => by
    rw [← hset, value?_setValue_of_ne hj]
  have hsize₂ : p₂.slots.size = b₁.pool.slots.size := by rw [← hset, size_setValue]
  have hp₂ : p₂.Repr vacant _ := hset ▸ (hd.pool h).setValue (by simp)
  have hindex₂ : Indexed p₂ b₁.idMap _ := hset ▸ (hd.index h).setValue ho₁ (by rw [← ho₂]; rfl)
  have hshow₂ : ∀ j ∈ M.slots, p₂.restingAt j = b.pool.restingAt j := fun j hj =>
    (restingAt_congr (hv₂ j (hd.ne_of_mem h hj))).trans (restingAt_relinks hd.relinks j)
  -- its new level
  have hside₂ : SideRepr p₂ (b.pool.slots.size + 1) o.side
      ({ b₁ with pool := p₂ }.levels o.side) M := by
    rw [levels_withPool]
    exact hd.side.congr fun j hj => hv₂ j (hd.ne_of_mem h hj)
  have hlen : M.length < b.pool.slots.size + 1 := by
    have h1 := hd.full.length_le
    have h2 := hp₂.length_add
    have h3 := hd.relinks.size
    rw [hd.after] at h1
    simp only [List.length_append, List.length_cons] at h1 h2
    omega
  obtain ⟨levels', (A : Ladder), zs, (B : Ladder), hinsert, hM, hfull, hside₃⟩ :=
    levelForInsert_spec (b := { b₁ with pool := p₂ }) hside₂ hd.full price hlen
  have hslots : M.slots = (A ++ (o₂.price, zs) :: B : Ladder).slots := by
    rw [hM, Ladder.slots_put_eq, hprice₂]
  obtain ⟨b₃, hb₃⟩ : ∃ b₃, { b₁ with pool := p₂ }.setLevels o.side levels' = b₃ := ⟨_, rfl⟩
  have hpool₃ : b₃.pool = p₂ := by rw [← hb₃, pool_setLevels]
  have hframe₃ : SameBut o.side b b₃ := by
    rw [← hb₃]
    exact (hd.frame.trans (SameBut.withPool _ _ _)).trans (SameBut.setLevels _ _ _)
  -- its place there
  have hside₄ : SideRepr b₃.pool (b.pool.slots.size + 1) o.side (b₃.levels o.side)
      (A ++ (o₂.price, zs) :: B) := by
    rw [← hprice₂, hpool₃, ← hb₃, levels_setLevels]
    exact hside₃
  have hnd : (i :: (A ++ (o₂.price, zs) :: B : Ladder).slots).Nodup := by
    rw [← hslots]
    exact (List.nodup_append.mp (hd.nodup_after h)).1
  obtain ⟨b₄, M', happend, hframe₄, hr₄, hv₄, hside₅, hfull₅, hperm, hmap⟩ :=
    appendAt_enqueue hside₄ hnd (hp₂.ne_nil_of_mem (by simp)) (by rw [hpool₃]; exact hi₂)
      (by rw [← ho₂]; rfl) hs₂ (by rw [← ho₂]; exact hq) hfull
  rw [hpool₃] at hr₄ hv₄ hmap
  rw [← hslots] at hv₄ hperm hmap
  have hframe : SameBut o.side b b₄ := hframe₃.trans hframe₄
  have hperm' : (M'.slots ++ (L o.side.opposite).slots).Perm
      (xs ++ i :: (ys ++ (L o.side.opposite).slots)) :=
    (hperm.append_right _).trans hd.perm_after
  have hsize : b₄.pool.slots.size = b.pool.slots.size :=
    hr₄.size.trans (hsize₂.trans hd.relinks.size)
  have hv : ∀ j ∈ (L o.side.opposite).slots, b₄.pool.value? j = b.pool.value? j := by
    intro j hj
    have hj' : j ∉ i :: M.slots := fun hj' =>
      (List.nodup_append.mp (hd.nodup_after h)).2.2 j hj' j hj rfl
    rw [hv₄ j hj', hv₂ j fun e => hj' (e ▸ List.mem_cons_self), hd.opposite h hj]
  refine ⟨b₄, ?_, Function.update L o.side M', vacant, h.update hframe.levels hsize hv
    ((hr₄.repr hp₂).of_perm hperm') ?_ hside₅ hfull₅, hs.capacity.trans hsize.symm,
    fun side => ?_, hs.nextSeq.trans hframe.nextSeq.symm,
    hs.nextTradeId.trans hframe.nextTradeId.symm⟩
  · have hmodify : b₁.pool.modify i (fun o => { o with price, qty, seqNo := seq }) = .ok p₂ := by
      rw [modify_of_value? ho₁, ← hset, ← ho₂]
      rfl
    rw [hpos, ok_bind, hunlink, ok_bind, hmodify, ok_bind, hinsert, ok_bind, hb₃]
    simp only [happend]
    rfl
  · rw [hframe.idMap, ← hd.frame.idMap]
    exact (hindex₂.relinks hr₄).of_perm hperm'
  · have hrest : (b.pool.restingAt i).side = o.side := by
      rw [restingAt_of_value? ho]
      rfl
    rw [← hrest₂, ← restingAt_of_value? ho]
    apply hd.resting_insert h hs hrest hs₂
    · rw [hmap, List.map_congr_left hshow₂]
    · exact hv

/-- **Modifying** an order does what it means. -/
theorem modifyOrder_spec (h : b.Represents s) (hok : s.Ok) (id : OrderId) (price : Price)
    (qty : Qty) :
    ∃ b', b.modifyOrder id price qty = .ok (b', (s.modify id price qty).2) ∧
      b'.Represents (s.modify id price qty).1 := by
  have htick := h.tick
  obtain ⟨L, vacant, hrepr, hs⟩ := h
  rw [PriorityBook.modify]
  by_cases hq : qty = 0
  · rw [hq, if_pos rfl]
    exact ⟨b.tick, modifyOrder_zero id price, htick⟩
  rw [if_neg hq]
  rcases find_cases hrepr hs id with ⟨hfind, hnone⟩ | ⟨i, o, hi, ho, hid, hfind, hsome⟩
  · rw [hnone]
    exact ⟨b.tick, modifyOrder_of_absent hq hfind, htick⟩
  · rw [hsome, modifyOrder_of_find hq hfind (hrepr.pool.get_of_mem ho), handleAt,
      index_makeHandle]
    have hprice : o.resting.price = o.price := rfl
    have hqty : o.resting.qty = o.qty := rfl
    have hside : o.resting.side = o.side := rfl
    simp only [hprice, hqty, hside]
    by_cases hplace : price = o.price ∧ qty ≤ o.qty
    · rw [if_pos hplace, if_pos hplace, modify_of_value? ho]
      exact ⟨_, rfl, setQty_spec hrepr.tick hs.tick hi ho hq⟩
    · rw [if_neg hplace, if_neg hplace, wouldCross_spec hrepr.tick hs.tick hok.tick, ok_bind]
      have hwould : s.tick.wouldTrade o.side price = s.wouldTrade o.side price := rfl
      rw [hwould]
      by_cases hcross : s.wouldTrade o.side price = true
      · rw [if_pos hcross, if_pos hcross]
        exact ⟨_, rfl, htick⟩
      · rw [if_neg hcross, if_neg hcross, hs.nextSeq]
        obtain ⟨b', heq, hrep⟩ := move_spec hrepr.tick hs.tick hi ho price hq b.nextSeq
        exact ⟨b', heq, hrep⟩

end Book

end MatchingEngine
