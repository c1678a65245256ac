import MatchingEngine.Book.SweepTheorems
import Mathlib.Data.List.TakeWhile

/-!
# What the book shows

`Book.Shows b L s` says that the concrete book `b`, laid out as the ladders `L`, shows the
abstract book `s`: reading the slots of each ladder in order gives the resting orders of
that side. `cross` and the fill-or-kill pre-check are a sweep and a sum on what is shown.
-/

namespace MatchingEngine

open FixedPool IntrusiveList

namespace Book

/-- Reading the slots of the ladders shows the abstract book. -/
structure Shows (b : Book) (L : Side → Ladder) (s : PriorityBook) : Prop where
  capacity : s.capacity = b.pool.slots.size
  resting : ∀ side, s.resting side = (L side).slots.map b.pool.restingAt
  nextSeq : s.nextSeq = b.nextSeq
  nextTradeId : s.nextTradeId = b.nextTradeId

/-- The concrete book is in order and shows the abstract one. -/
def Represents (b : Book) (s : PriorityBook) : Prop :=
  ∃ L vacant, b.Repr L vacant ∧ b.Shows L s

variable {b : Book} {s : PriorityBook} {L : Side → Ladder} {vacant : List Index} {taker : Side}

/-- A new book is an empty one. -/
theorem represents_new (capacity : Index) :
    (new capacity).Represents (PriorityBook.new capacity.toNat) := by
  refine ⟨_, _, repr_new capacity, ?_, fun _ => rfl, rfl, rfl⟩
  simp [new, FixedPool.new, PriorityBook.new]

/-! ## Matching -/

/-- **Cross** sweeps the opposite side greedily. -/
theorem cross_spec (h : b.Repr L vacant) (hs : b.Shows L s) (incoming : Order)
    {limit : Option Price} (seq : SeqNo) (trades : List Trade) (crosses : Price → Price → Bool)
    (hcrosses : ∀ p, crosses p incoming.price = reaches taker limit p)
    {r : Greedy.Outcome RestingOrder}
    (hr : s.sweep taker limit incoming.account incoming.qty.toNat = r) :
    ∃ b' L' vacant', b.cross taker.opposite incoming seq trades crosses
        = .ok (b', { incoming with qty := UInt32.ofNat r.unmet },
            trades ++ tradesOf incoming.orderId seq s.nextTradeId r.taken, r.stopped) ∧
      b'.Repr L' vacant' ∧ b'.Shows L' (s.afterSweep taker r) := by
  have hinv : Sweep.SideInv ⟨b.pool, b.idMap, b.nextTradeId, incoming, trades⟩
      (b.pool.slots.size + 1) taker.opposite (b.levels taker.opposite) (L taker.opposite)
      (L taker.opposite.opposite).slots vacant :=
    ⟨h.pool.of_perm (allSlots_perm L taker.opposite).symm,
      h.index.of_perm (allSlots_perm L taker.opposite).symm, h.sides _, h.full _⟩
  have hlen : (L taker.opposite).length < (b.levels taker.opposite).size + 1 := by
    rw [(h.sides taker.opposite).size_eq]
    exact Nat.lt_succ_self _
  have hr' : RestingOrder.sweep (fun o => crosses o.price incoming.price) incoming.account
      incoming.qty.toNat ((L taker.opposite).slots.map b.pool.restingAt) = r := by
    rw [← hr, PriorityBook.sweep, hs.resting]
    simp only [hcrosses]
  obtain ⟨s', levels', L', vacant', heq, hdid, hinv', hqueue, hoth, hsize⟩ :=
    sweepLevels_spec seq _ (L taker.opposite) (b.levels taker.opposite) _ vacant hlen rfl
      rfl hinv hr'
  obtain ⟨b', hb'⟩ : ∃ b', { b with
      pool := s'.pool, idMap := s'.idMap, nextTradeId := s'.nextTradeId }.setLevels
        taker.opposite levels' = b' := ⟨_, rfl⟩
  have hpool : b'.pool = s'.pool := by rw [← hb', pool_setLevels]
  have hidMap : b'.idMap = s'.idMap := by rw [← hb', idMap_setLevels]
  have hlevels : b'.levels taker.opposite = levels' := by rw [← hb', levels_setLevels]
  have hother : b'.levels taker.opposite.opposite = b.levels taker.opposite.opposite := by
    rw [← hb', levels_setLevels_opposite]
    cases taker <;> rfl
  refine ⟨b', Function.update L taker.opposite L', vacant', ?_, h.update hother ?_ ?_ ?_ ?_ ?_ ?_,
    ⟨?_, fun side => ?_, ?_, ?_⟩⟩
  · rw [cross, heq, hs.nextTradeId]
    simp only [ok_bind, pure_eq_ok, hb', hdid.incoming, hdid.trades]
  · rw [hpool, hsize]
  · rw [hpool]
    exact hoth
  · rw [hpool]
    exact hinv'.pool
  · rw [hpool, hidMap]
    exact hinv'.index
  · rw [hpool, hlevels]
    exact hinv'.side
  · exact hinv'.full
  · rw [hpool, hsize]
    exact hs.capacity
  · rw [hpool]
    rcases Side.eq_or_opposite taker.opposite side with rfl | rfl
    · simp only [PriorityBook.afterSweep, PriorityBook.setSide, Function.update_self, hqueue]
    · have hne := Side.opposite_ne taker.opposite
      simp only [PriorityBook.afterSweep, PriorityBook.setSide, Function.update_of_ne hne]
      rw [hs.resting]
      exact List.map_congr_left fun i hi => (restingAt_congr (hoth i hi)).symm
  · rw [← hb', nextSeq_setLevels]
    exact hs.nextSeq
  · rw [← hb', nextTradeId_setLevels]
    show s.nextTradeId + _ = s'.nextTradeId
    rw [hdid.nextTradeId, hs.nextTradeId]

/-! ## The fill-or-kill pre-check -/

section Available

variable {p : FixedPool Order} {side : Side} {price limit : Price} {account : Account}
  {xs : List Index} {levels : PriceLevels} {room : ℕ} {crosses : Price → Price → Bool}

/-- The inner walk adds up the orders in front of the first one of the account. -/
theorem availableInLevel_spec (account : Account) : ∀ (ys : List Index) (fuel : ℕ)
    (before : Index) (total : Qty), ys.length < fuel → Seg p.nxt p.prv before ys kNilIndex →
    kNilIndex ∉ ys → p.Holds ys →
    availableInLevel p account fuel (ys.headD kNilIndex) total =
      .ok (total + UInt32.ofNat (Greedy.total RestingOrder.amount
          ((ys.map p.restingAt).takeWhile fun o => !(o.account == account))),
        (ys.map p.restingAt).any fun o => o.account == account) := by
  intro ys
  induction ys with
  | nil =>
    intro fuel before total hf _ _ _
    obtain ⟨fuel, rfl⟩ := Nat.exists_eq_add_one_of_ne_zero (by omega : fuel ≠ 0)
    simp [availableInLevel]
  | cons i ys ih =>
    intro fuel before total hf hseg hnil hh
    obtain ⟨fuel, rfl⟩ := Nat.exists_eq_add_one_of_ne_zero (by omega : fuel ≠ 0)
    rw [List.length_cons] at hf
    rw [List.mem_cons, not_or] at hnil
    obtain ⟨o, ho⟩ := hh i List.mem_cons_self
    rw [availableInLevel, List.headD_cons, if_neg (Ne.symm hnil.1), unchecked_of_value? ho, ok_bind,
      List.map_cons, restingAt_of_value? ho]
    by_cases hacc : o.account = account
    · -- the self-trade boundary
      simp [hacc, Order.resting]
    · have hnext : o.nextIdx = ys.headD kNilIndex := (nxt_of_value? ho).symm.trans hseg.2.1
      have hne : (o.resting.account == account) = false := beq_eq_false_iff_ne.mpr hacc
      rw [if_neg hacc, hnext, ih fuel i _ (by omega) hseg.2.2 hnil.2
        fun j hj => hh j (List.mem_cons_of_mem _ hj)]
      have hqty : UInt32.ofNat o.resting.amount = o.qty := UInt32.ofNat_toNat
      rw [List.takeWhile_cons_of_pos (by rw [hne]; rfl), Greedy.total_cons, UInt32.ofNat_add, hqty,
        List.any_cons, hne, Bool.false_or, UInt32.add_assoc]

/-- The outer walk adds up what a sweep could take from the levels that are left. -/
theorem availableFromRank_spec : ∀ (B A : Ladder) (total : Qty),
    SideRepr p room side levels (A ++ B) → B.Full → B.slots.length ≤ p.slots.size →
    availableFromRank p levels limit account crosses B.length total =
      .ok (total + UInt32.ofNat (RestingOrder.available (fun o => crosses o.price limit) account
        (B.slots.map p.restingAt))) := by
  intro B
  induction B with
  | nil =>
    intro A total _ _ _
    exact congrArg _ (UInt32.add_zero total).symm
  | cons l B ih =>
    obtain ⟨price, xs⟩ := l
    intro A total h hfull hlen
    obtain ⟨hxs, hB⟩ := List.forall_mem_cons.mp hfull
    have hchain : Chain p side price xs := h.chain
    have hrank : levels.size - (B.length + 1) = A.length := by
      rw [h.size_eq, List.length_append, List.length_cons]
      omega
    rw [Ladder.slots_cons, List.length_append] at hlen
    rw [List.length_cons, availableFromRank, hrank, h.byRank]
    simp only [ok_bind, Level.price_ofList, Level.head_ofList, Ladder.slots_cons, List.map_append]
    by_cases hc : crosses price limit = true
    · have hreach : ∀ o ∈ xs.map p.restingAt, crosses o.price limit = true := fun o ho => by
        obtain ⟨i, hi, rfl⟩ := List.mem_map.mp ho
        rw [hchain.price_restingAt hi]
        exact hc
      have hlevel := availableInLevel_spec account xs (p.slots.size + 1) kNilIndex total (by omega)
        hchain.list.seg hchain.list.nil_notMem hchain.orders.holds
      simp only [hc, Bool.not_true, Bool.false_eq_true, if_false, hlevel, ok_bind]
      by_cases hown : (xs.map p.restingAt).any (fun o => o.account == account) = true
      · -- the boundary is in this level
        obtain ⟨o, ho, hoa⟩ := List.any_eq_true.mp hown
        rw [if_pos hown, RestingOrder.available,
          Greedy.eligible_append_of_barred hreach ⟨o, ho, hoa⟩]
        rfl
      · have hclear : ∀ o ∈ xs.map p.restingAt, crosses o.price limit = true ∧
            (o.account == account) = false := fun o ho => by
          refine ⟨hreach o ho, ?_⟩
          rw [← Bool.not_eq_true]
          exact fun hoa => hown (List.any_eq_true.mpr ⟨o, ho, hoa⟩)
        have htake : (xs.map p.restingAt).takeWhile (fun o => !(o.account == account))
            = xs.map p.restingAt := List.takeWhile_eq_self_iff.mpr fun o ho => by
          rw [(hclear o ho).2]
          rfl
        rw [if_neg hown, htake, ih (A ++ [(price, xs)]) _ (by simpa using h) hB (by omega),
          RestingOrder.available, RestingOrder.available, Greedy.eligible_append_of_clear hclear,
          Greedy.total_append, UInt32.ofNat_add, UInt32.add_assoc]
    · -- the level is beyond the price bound
      obtain ⟨i, ys, rfl⟩ := List.exists_cons_of_ne_nil hxs
      have hout : crosses (p.restingAt i).price limit = false := by
        rw [hchain.price_restingAt List.mem_cons_self]
        simpa using hc
      rw [List.map_cons, List.cons_append, RestingOrder.available,
        Greedy.eligible_cons_of_not_reach (a := p.restingAt i) hout]
      simp only [Bool.not_eq_true] at hc
      simp [hc]

end Available

/-- **The pre-check** adds up, in 32 bits, what a sweep could take. -/
theorem availableBeforeSelfTrade_spec (h : b.Repr L vacant) (hs : b.Shows L s) (price : Price)
    (account : Account) (crosses : Price → Price → Bool)
    (hcrosses : ∀ p, crosses p price = reaches taker (some price) p) :
    b.availableBeforeSelfTrade taker.opposite price account crosses =
      .ok (UInt32.ofNat (s.available taker (some price) account)) := by
  have hlen : (L taker.opposite).slots.length ≤ b.pool.slots.size := by
    have h1 := h.pool.length_add
    have h2 := (allSlots_perm L taker.opposite).length_eq
    rw [List.length_append] at h2
    omega
  rw [availableBeforeSelfTrade, (h.sides taker.opposite).size_eq,
    availableFromRank_spec (L taker.opposite) [] 0 (h.sides _) (h.full _) hlen, UInt32.zero_add,
    PriorityBook.available, hs.resting]
  simp only [hcrosses]

end Book

end MatchingEngine
