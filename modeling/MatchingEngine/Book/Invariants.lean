import MatchingEngine.Book.Refinement
import MatchingEngine.Spec.Timed

/-!
# The structural invariant

`Book.Structured b L` says in full what `invariant_violation` looks for: how the four data
structures of a book agree with each other, where `L` lists the levels of each side with the
slots of their orders. It holds in every reachable book (`invariants_hold`), and the check
finds nothing there.
-/

namespace MatchingEngine

open FixedPool IntrusiveList Run

namespace Book

variable {b : Book} {s : PriorityBook} {L : Side → Ladder} {vacant : List Index} {side : Side}
  {n : ℕ}

/-- The invariant of a book. -/
structure Structured (b : Book) (L : Side → Ladder) : Prop where
  /-- The live levels are those of `L`, worst to best, each with its first and last slot. -/
  levels : ∀ side, ((b.levels side).levels.take (b.levels side).count).reverse = (L side).levels
  /-- Every price is better than the prices behind it, so no price occurs twice. -/
  sorted : ∀ side, (L side).Pairwise fun l l' => side.best.better l.1 l'.1 = true
  uncrossed : ∀ bid ∈ L .buy, ∀ ask ∈ L .sell, bid.1 < ask.1
  full : ∀ side, ∀ l ∈ L side, l.2 ≠ []
  /-- Forward and backward links agree with the list of slots, in which no slot comes twice. -/
  lists : ∀ side, ∀ l ∈ L side, IsList b.pool.nxt b.pool.prv kNilIndex l.2
  orders : ∀ side, ∀ l ∈ L side, ∀ i ∈ l.2, ∃ o, b.pool.value? i = some o ∧ o.side = side ∧
    o.price = l.1 ∧ o.qty ≠ 0
  /-- The orders of a level stand in order of arrival. -/
  times : ∀ side, ∀ l ∈ L side, (l.2.map b.pool.restingAt).Pairwise fun o o' => o.seqNo < o'.seqNo
  /-- An id is found exactly if a linked order has it, with the valid handle of that order. -/
  ids : ∀ id h, b.idMap.find id = .ok (some h) ↔
    ∃ i ∈ allSlots L, HasId b.pool i id ∧ h = b.pool.handleAt i ∧ b.pool.validate h = true
  size : b.idMap.size = (allSlots L).length
  /-- A slot is allocated exactly if it is linked, and then once. -/
  slots : ∀ i, i ∈ allSlots L ↔ ∃ o, b.pool.value? i = some o
  nodup : (allSlots L).Nodup

/-! ## The invariant holds -/

/-- Within a level the orders stand in order of arrival. -/
theorem times_of_timed (h : b.Repr L vacant) (hs : b.Shows L s) (ht : s.Timed n) (side : Side) :
    ∀ l ∈ L side, (l.2.map b.pool.restingAt).Pairwise fun o o' => o.seqNo < o'.seqNo := by
  intro l hl
  have hordered := ht.ordered side
  rw [hs.resting] at hordered
  have hsub : l.2.Sublist (L side).slots :=
    List.sublist_flatten_of_mem (List.mem_map_of_mem (f := Prod.snd) hl)
  have hlevel := List.pairwise_map.mp (hordered.sublist (hsub.map b.pool.restingAt))
  have hchain := (h.sides side).chains l hl
  refine List.pairwise_map.mpr (hlevel.imp_of_mem fun hi hj hbefore => ?_)
  rcases hbefore with hlt | heq
  · -- all orders of a level have one price
    rw [RestingOrder.rank, RestingOrder.rank, hchain.price_restingAt hi,
      hchain.price_restingAt hj] at hlt
    exact absurd hlt (lt_irrefl _)
  · exact heq.2

/-- The handle of a linked slot is valid. -/
theorem Repr.validate (h : b.Repr L vacant) {i : Index} (hi : i ∈ allSlots L) :
    b.pool.validate (b.pool.handleAt i) = true :=
  validate_makeHandle (h.pool.lt_of_mem (List.mem_append_right _ hi)) h.pool.size_lt

/-- **A book that represents an abstract one is structured**, if the abstract one is in order. -/
theorem structured (h : b.Repr L vacant) (hs : b.Shows L s) (hok : s.Ok) (ht : s.Timed n) :
    b.Structured L where
  levels side := by rw [(h.sides side).levels.take_count, List.reverse_reverse]
  sorted side := (h.sides side).sorted.imp fun hlt => Best.better_iff.mpr hlt
  uncrossed bid hbid ask hask := by
    have hmem : ∀ side, ∀ l ∈ L side, ∃ o ∈ s.resting side, o.price = l.1 := by
      intro side l hl
      obtain ⟨i, hi⟩ := List.exists_mem_of_ne_nil _ (h.full side l hl)
      refine ⟨b.pool.restingAt i, ?_, ((h.sides side).chains l hl).price_restingAt hi⟩
      rw [hs.resting]
      exact List.mem_map_of_mem (List.mem_flatMap_of_mem hl hi)
    obtain ⟨o, ho, hp⟩ := hmem .buy bid hbid
    obtain ⟨o', ho', hp'⟩ := hmem .sell ask hask
    rw [← hp, ← hp']
    exact hok.uncrossed o ho o' ho'
  full := h.full
  lists side l hl := ((h.sides side).chains l hl).list
  orders side l hl := ((h.sides side).chains l hl).orders
  times := times_of_timed h hs ht
  ids id hdl := by
    constructor
    · intro hfind
      rcases find_cases h hs id with ⟨hnone, -⟩ | ⟨i, o, hi, ho, hid, hsome, -⟩
      · rw [hfind, Except.ok.injEq] at hnone
        cases hnone
      · rw [hfind, Except.ok.injEq, Option.some_inj] at hsome
        subst hsome
        have hid' := hasId_of_value? ho
        rw [hid] at hid'
        exact ⟨i, Repr.mem_allSlots hi, hid', rfl, h.validate (Repr.mem_allSlots hi)⟩
    · intro hmaps
      obtain ⟨i, hi, hid, rfl, -⟩ := hmaps
      exact h.index.find_of_mem hi hid
  size := h.index.size
  slots i := h.pool.mem_used_iff
  nodup := h.pool.nodup_used

/-! ## The check finds nothing -/

/-- The walk over one level finds no violation and counts its orders. -/
theorem checkLevel_spec (h : b.Repr L vacant) (inactive : Index → Order) {level : Level} :
    ∀ (ys : List Index) (fuel : ℕ) (before : Index) (lastSeq : SeqNo) (linked : ℕ),
      ys.length < fuel → Seg b.pool.nxt b.pool.prv before ys kNilIndex → kNilIndex ∉ ys →
      Live b.pool side level.price ys → (∀ i ∈ ys, i ∈ allSlots L) →
      (ys.map b.pool.restingAt).Pairwise (fun o o' => o.seqNo < o'.seqNo) →
      (before ≠ kNilIndex → ∀ i ∈ ys, lastSeq < (b.pool.restingAt i).seqNo) →
      level.tail = ys.getLastD before → linked + ys.length ≤ b.pool.slots.size →
      b.checkLevel inactive side level fuel (ys.headD kNilIndex) before lastSeq linked =
        .ok (.linked (linked + ys.length)) := by
  intro ys
  induction ys with
  | nil =>
    intro fuel before lastSeq linked hf _ _ _ _ _ _ htail _
    obtain ⟨fuel, rfl⟩ := Nat.exists_eq_add_one_of_ne_zero (by omega : fuel ≠ 0)
    rw [List.getLastD_nil] at htail
    rw [checkLevel, List.headD_nil, if_pos rfl, if_neg (not_not.mpr htail)]
    rfl
  | cons i ys ih =>
    intro fuel before lastSeq linked hf hseg hnil hlive hmem htimes hlast htail hlen
    obtain ⟨fuel, rfl⟩ := Nat.exists_eq_add_one_of_ne_zero (by omega : fuel ≠ 0)
    rw [List.length_cons] at hf hlen
    rw [List.mem_cons, not_or] at hnil
    obtain ⟨o, ho, hs, hp, hq⟩ := hlive i List.mem_cons_self
    obtain ⟨hprev, hnext, hseg⟩ := hseg
    rw [prv_of_value? ho] at hprev
    rw [nxt_of_value? ho] at hnext
    have hused := hmem i List.mem_cons_self
    have hcap : b.pool.capacity.toNat = b.pool.slots.size :=
      UInt32.toNat_ofNat_of_lt' h.pool.size_lt
    have hrange : ¬ i ≥ b.pool.capacity := by
      rw [ge_iff_le, UInt32.le_iff_toNat_le, hcap, not_le]
      exact lt_of_value? ho
    have hpeek : peek b.pool inactive i = .ok o := by
      rw [peek, value?_eq_some.mp ho]
      rfl
    have hseq : ¬ (before ≠ kNilIndex ∧ o.seqNo ≤ lastSeq) := by
      intro hbad
      have hlt := hlast hbad.1 i List.mem_cons_self
      rw [restingAt_of_value? ho] at hlt
      exact absurd hbad.2 (UInt64.not_le.mpr hlt)
    have hfind := h.index.find_of_mem hused (hasId_of_value? ho)
    have hindex : (b.pool.handleAt i).index = i := index_makeHandle i _
    have hcount : ¬ linked + 1 > b.pool.capacity.toNat := by
      rw [hcap]
      omega
    rw [List.map_cons, List.pairwise_cons] at htimes
    have hnot : ¬ ((b.pool.handleAt i).index ≠ i ∨
        b.pool.validate (b.pool.handleAt i) = false) := by
      rw [hindex, h.validate hused]
      simp
    have hrec := ih fuel i o.seqNo (linked + 1) (by omega) hseg hnil.2
      (hlive.mono fun j hj => List.mem_cons_of_mem _ hj)
      (fun j hj => hmem j (List.mem_cons_of_mem _ hj)) htimes.2
      (fun _ j hj => by
        have := htimes.1 _ (List.mem_map_of_mem hj)
        rwa [restingAt_of_value? ho] at this)
      (by rw [htail]; cases ys <;> rfl) (by omega)
    rw [checkLevel, List.headD_cons, if_neg (Ne.symm hnil.1), if_neg hrange, hpeek, ok_bind,
      if_neg (not_not.mpr hprev), if_neg (not_not.mpr hs), if_neg (not_not.mpr hp), if_neg hq,
      if_neg hseq, hfind, ok_bind]
    simp only [if_neg hnot, if_neg hcount, hnext, hrec, List.length_cons]
    congr 2
    omega

/-- The walk over the levels it has left finds no violation and counts their orders. -/
theorem checkSide_spec (h : b.Repr L vacant) (inactive : Index → Order) (side : Side)
    (htimes : ∀ l ∈ L side,
      (l.2.map b.pool.restingAt).Pairwise fun o o' => o.seqNo < o'.seqNo) :
    ∀ (B A : Ladder) (linked : ℕ), L side = A ++ B →
      linked + B.slots.length ≤ b.pool.slots.size →
      b.checkSide inactive side B.length linked = .ok (.linked (linked + B.slots.length)) := by
  intro B
  induction B with
  | nil => exact fun A linked _ _ => rfl
  | cons l B ih =>
    obtain ⟨price, xs⟩ := l
    intro A linked hL hlen
    have hside := h.sides side
    have hfull := h.full side
    rw [hL] at hside hfull htimes
    have hmem : ((price, xs) : Price × List Index) ∈ A ++ (price, xs) :: B := by simp
    have hchain : Chain b.pool side price xs := hside.chain
    have hrank : (b.levels side).size - (B.length + 1) = A.length := by
      rw [hside.size_eq, List.length_append, List.length_cons]
      omega
    rw [Ladder.slots_cons, List.length_append] at hlen
    -- the level before this one, if any, is better
    have hordered : A.length > 0 → ∃ l, (b.levels side).byRank (A.length - 1) = .ok l ∧
        side.best.better l.price price = true := by
      intro hpos
      rcases List.eq_nil_or_concat A with hA | ⟨A', l', hA⟩
      · rw [hA] at hpos
        exact absurd hpos (Nat.lt_irrefl 0)
      · obtain ⟨price', xs'⟩ := l'
        rw [List.concat_eq_append] at hA
        subst hA
        have hside' : SideRepr b.pool (b.pool.slots.size + 1) side (b.levels side)
            (A' ++ (price', xs') :: ((price, xs) :: B)) := by simpa using hside
        have hbetter := hside'.around.2 (.ofList price xs) (by simp)
        refine ⟨.ofList price' xs', ?_, Best.better_iff.mpr hbetter⟩
        rw [List.length_append, List.length_singleton, Nat.add_sub_cancel, hside'.byRank]
    have hne : ¬ (Level.ofList price xs).head = kNilIndex := by
      rw [Level.head_ofList, IsList.head_eq_nil_iff hchain.list.nil_notMem]
      exact hfull _ hmem
    have hlevel : b.checkLevel inactive side (.ofList price xs) (b.pool.slots.size + 2)
          (Level.ofList price xs).head kNilIndex 0 linked = .ok (.linked (linked + xs.length)) :=
      checkLevel_spec h inactive xs (b.pool.slots.size + 2) kNilIndex 0 linked (by omega)
      hchain.list.seg
      hchain.list.nil_notMem hchain.orders
      (fun i hi => Repr.mem_allSlots (hL ▸ List.mem_flatMap_of_mem hmem hi)) (htimes _ hmem)
      (fun hbad => absurd rfl hbad) rfl (by omega)
    have hrec := ih (A ++ [(price, xs)]) (linked + xs.length) (by simpa using hL) (by omega)
    have hsum : linked + (xs ++ Ladder.slots B).length
        = linked + xs.length + (Ladder.slots B).length := by
      rw [List.length_append]
      omega
    rw [List.length_cons, checkSide, Ladder.slots_cons, hsum]
    simp only [hrank, hside.byRank, ok_bind, Level.price_ofList]
    by_cases hpos : A.length > 0
    · obtain ⟨l, hl, hbetter⟩ := hordered hpos
      simp only [if_pos hpos, hl, ok_bind, pure_eq_ok, hbetter, Bool.not_true, Bool.false_eq_true,
        if_false, if_neg hne, hlevel, hrec]
    · simp only [if_neg hpos, ok_bind, pure_eq_ok, Bool.not_true, Bool.false_eq_true, if_false,
        if_neg hne, hlevel, hrec]

/-- The first test finds the book uncrossed. -/
theorem crossed_spec (h : b.Repr L vacant)
    (huncrossed : ∀ bid ∈ L .buy, ∀ ask ∈ L .sell, bid.1 < ask.1) : b.crossed = .ok false := by
  have hbest : ∀ side, L side ≠ [] → ∃ l ∈ L side, ∃ pos, (b.levels side).best = .ok pos ∧
      (b.levels side).read pos = .ok (.ofList l.1 l.2) := by
    intro side hne
    obtain ⟨l, B, hL⟩ := List.exists_cons_of_ne_nil hne
    obtain ⟨price, xs⟩ := l
    have hside := h.sides side
    rw [hL] at hside ⊢
    refine ⟨(price, xs), List.mem_cons_self, B.length, ?_, hside.read (A := [])⟩
    rw [← Ladder.length_levels]
    exact PriceLevels.Repr.best (l := .ofList price xs) hside.levels
  have hempty : ∀ side, (b.levels side).empty = true ↔ L side = [] := fun side => by
    rw [(h.sides side).levels.empty_iff]
    exact List.map_eq_nil_iff
  rw [crossed]
  by_cases he : b.bids.empty ∨ b.asks.empty
  · rw [if_pos he]
    rfl
  · rw [if_neg he]
    rw [not_or] at he
    obtain ⟨bid, hbid, pos, hpos, hread⟩ := hbest .buy fun hL => he.1 ((hempty .buy).mpr hL)
    obtain ⟨ask, hask, pos', hpos', hread'⟩ := hbest .sell fun hL => he.2 ((hempty .sell).mpr hL)
    have hpos₁ : b.bids.best = .ok pos := hpos
    have hread₁ : b.bids.read pos = .ok (.ofList bid.1 bid.2) := hread
    have hpos₂ : b.asks.best = .ok pos' := hpos'
    have hread₂ : b.asks.read pos' = .ok (.ofList ask.1 ask.2) := hread'
    rw [hpos₁, ok_bind, hread₁, ok_bind, hpos₂, ok_bind, hread₂, ok_bind, pure_eq_ok,
      Level.price_ofList, Level.price_ofList]
    exact congrArg _ (decide_eq_false (Int64.not_le.mpr (huncrossed bid hbid ask hask)))

/-- **The check** finds nothing, whatever the free slots hold. -/
theorem invariantViolation_spec (h : b.Repr L vacant) (hstruct : b.Structured L)
    (inactive : Index → Order) : b.invariantViolation inactive = .ok none := by
  have hlen := h.pool.length_add
  have hsize := h.pool.size_lt
  rw [allSlots, List.length_append] at hlen
  have hbuy := checkSide_spec h inactive .buy (hstruct.times .buy) (L .buy) [] 0 rfl (by omega)
  have hsell := checkSide_spec h inactive .sell (hstruct.times .sell) (L .sell) []
    (0 + (L .buy).slots.length) rfl (by omega)
  rw [← (h.sides .buy).size_eq] at hbuy
  rw [← (h.sides .sell).size_eq] at hsell
  have hmap : b.idMap.size = 0 + (L .buy).slots.length + (L .sell).slots.length := by
    rw [hstruct.size, allSlots, List.length_append]
    omega
  have hcap : b.pool.capacity.toNat = b.pool.slots.size :=
    UInt32.toNat_ofNat_of_lt' h.pool.size_lt
  have hvacant : vacant.length ≤ b.pool.slots.size := by omega
  have hfree : (UInt32.ofNat vacant.length).toNat = vacant.length :=
    UInt32.toNat_ofNat_of_lt' (lt_of_le_of_lt hvacant hsize)
  have huse : sizeSub b.pool.capacity.toNat (UInt32.ofNat vacant.length).toNat
      = 0 + (L .buy).slots.length + (L .sell).slots.length := by
    rw [hcap, hfree, sizeSub]
    omega
  have hbuy' : b.checkSide inactive .buy b.bids.size 0 =
      .ok (.linked (0 + (L .buy).slots.length)) :=
    hbuy
  have hsell' : b.checkSide inactive .sell b.asks.size (0 + (L .buy).slots.length) =
      .ok (.linked (0 + (L .buy).slots.length + (L .sell).slots.length)) := hsell
  rw [invariantViolation, crossed_spec h hstruct.uncrossed, ok_bind, hbuy',
    if_neg Bool.false_ne_true, ok_bind]
  dsimp only
  rw [hsell', ok_bind]
  dsimp only
  rw [if_neg (not_not.mpr hmap.symm), h.pool.freeSlots_eq, ok_bind, if_neg (not_not.mpr huse)]
  rfl

/-- The sequence number of a command is the number of commands before it. -/
theorem run_timed (capacity : Index) (cmds : List Command) (hlen : cmds.length < 2 ^ 64) :
    ∃ b, runM exec (new capacity) cmds =
        .ok (b, (run (PriorityBook.exec counter32) (.new capacity.toNat) cmds).2) ∧
      b.Represents (run (PriorityBook.exec counter32) (.new capacity.toNat) cmds).1 ∧
      (run (PriorityBook.exec counter32) (.new capacity.toNat) cmds).1.Ok ∧
      (run (PriorityBook.exec counter32) (.new capacity.toNat) cmds).1.Timed cmds.length ∧
      (run (PriorityBook.exec counter32) (.new capacity.toNat) cmds).1.nextSeq =
        UInt64.ofNat cmds.length := by
  refine runM_eq_run_of_forall (N := cmds.length)
    (R := fun n (b : Book) (s : PriorityBook) =>
      b.Represents s ∧ s.Ok ∧ s.Timed n ∧ s.nextSeq = UInt64.ofNat n) ?_ cmds le_rfl
    ⟨represents_new capacity, PriorityBook.ok_new _, PriorityBook.timed_new _ _, rfl⟩
  intro n b s c hn h
  obtain ⟨hrep, hok, ht, hseq⟩ := h
  obtain ⟨b', heq, hrep'⟩ := exec_spec hrep hok c
  have hnat : s.nextSeq.toNat = n := by
    rw [hseq]
    exact UInt64.toNat_ofNat_of_lt' (hn.trans hlen)
  refine ⟨b', heq, hrep', hok.exec counter32 c, ht.exec hnat counter32 c, ?_⟩
  rw [PriorityBook.nextSeq_exec, hseq]
  exact (UInt64.ofNat_add n 1).symm

/-- **Every reachable book is structured**, and its structural check passes, as long as the
sequence numbers have not wrapped around. -/
theorem invariants_hold (capacity : Index) (cmds : List Command) (hlen : cmds.length < 2 ^ 64)
    (inactive : Index → Order) :
    ∃ b replies L, runM exec (new capacity) cmds = .ok (b, replies) ∧
      b.invariantViolation inactive = .ok none ∧ b.Structured L := by
  obtain ⟨b, hrun, hrep, hok, ht, -⟩ := run_timed capacity cmds hlen
  obtain ⟨L, vacant, hrepr, hs⟩ := hrep
  have hstruct := structured hrepr hs hok ht
  exact ⟨b, _, L, hrun, invariantViolation_spec hrepr hstruct inactive, hstruct⟩

/-- After a match, a cancel and a modify the book is still in order. -/
theorem invariants_hold_after_mixed_commands :
    ∃ b replies L, runM exec (new 3)
        [limitCommand 1 .sell 100 5 1, limitCommand 2 .sell 101 5 2, limitCommand 3 .buy 100 7 3,
          cancelCommand 2, modifyCommand 3 99 4] = .ok (b, replies) ∧
      b.invariantViolation (fun _ => {}) = .ok none ∧ b.Structured L :=
  invariants_hold 3 _ (by decide) _

end Book

end MatchingEngine
