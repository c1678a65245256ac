import MatchingEngine.Book.BookTheorems
import MatchingEngine.Book.IdMapRuns

/-!
# The walks of the check

`invariant_violation` reads a book it has reason to distrust: levels, links and the fields of
orders may hold anything. What it has to go by are the free list, the generations and the id
map (`Grounded`). Every slot that a walk visits is looked up in the id map, and only slots in
use have a handle there that validates; so the walks end, and what they have seen is what is
there (`checkLevel_walks`, `check_walks`).
-/

namespace MatchingEngine

open FixedPool IntrusiveList

namespace Book

variable {b : Book} {vacant used : List Index} {l : Entries} {side : Side} {price : Price}
  {xs : List Index} {i : Index}

/-! ## What a walk comes to -/

/-- The walk ends without a fault, and if it finds no violation, `P` holds of its count. -/
def Finds (P : ℕ → Prop) (x : Checked CheckResult) : Prop :=
  ∃ r, x = .ok r ∧ ∀ n, r = .linked n → P n

/-- A check that finds a violation has nothing to show. -/
theorem finds_violation (P : ℕ → Prop) (message : String) :
    Finds P (.ok (.violation message)) := by
  refine ⟨_, rfl, fun n hn => ?_⟩
  cases hn

/-- A check that counts the linked orders has to show what it saw. -/
theorem finds_linked {P : ℕ → Prop} {n : ℕ} (hn : P n) : Finds P (.ok (.linked n)) := by
  refine ⟨_, rfl, fun m hm => ?_⟩
  cases hm
  exact hn

/-- What is seen may be told in other words. -/
theorem Finds.imp {P Q : ℕ → Prop} {x : Checked CheckResult} (hx : Finds P x)
    (hpq : ∀ n, P n → Q n) : Finds Q x := by
  obtain ⟨r, heq, hr⟩ := hx
  exact ⟨r, heq, fun n hn => hpq n (hr n hn)⟩

/-- A test of the walk, behind which it goes on. -/
theorem Finds.unless {P : ℕ → Prop} {c : Prop} [Decidable c] {message : String}
    {x : Checked CheckResult} (hx : ¬ c → Finds P x) :
    Finds P (if c then pure (.violation message) else x) := by
  by_cases hc : c
  · rw [if_pos hc]
    exact finds_violation P message
  · rw [if_neg hc]
    exact hx hc

/-! ## What is trusted -/

/-- The free list, the generations and the id map are in order: the slots `used` are in use, the
map holds the entries `l`, and a handle in it that validates is the one of a slot in use. -/
structure Grounded (b : Book) (vacant used : List Index) (l : Entries) : Prop where
  pool : b.pool.Repr vacant used
  find : ∀ id, b.idMap.find id = .ok (l.lookup id)
  nodup : l.keys.Nodup
  size : b.idMap.size = l.length
  live : ∀ id h, l.lookup id = some h → b.pool.validate h = true →
    h = b.pool.handleAt h.index ∧ h.index ∈ used
  levels : ∀ side, (b.levels side).count ≤ (b.levels side).levels.length

theorem Grounded.capacity (hg : b.Grounded vacant used l) :
    b.pool.capacity.toNat = b.pool.slots.size :=
  UInt32.toNat_ofNat_of_lt' hg.pool.size_lt

/-- The live levels of a side, best first. -/
def ranked (b : Book) (side : Side) : List Level :=
  ((b.levels side).levels.take (b.levels side).count).reverse

/-- The array of a side as a ladder, whatever is in it. -/
theorem Grounded.ranked (hg : b.Grounded vacant used l) (side : Side) :
    (b.levels side).Repr (b.levels side).levels.length (b.ranked side) where
  live := by
    refine ⟨(b.levels side).levels.drop (b.levels side).count, ?_⟩
    rw [Book.ranked, List.reverse_reverse, List.take_append_drop]
  count := by
    rw [Book.ranked, List.length_reverse, List.length_take]
    exact (min_eq_left (hg.levels side)).symm
  room := rfl

/-- Reading a slot is within the array, and shows the order if there is one. -/
theorem peek_eq {pool : FixedPool Order} (inactive : Index → Order)
    (hi : i.toNat < pool.slots.size) :
    ∃ o, peek pool inactive i = .ok o ∧ ∀ o', pool.value? i = some o' → o' = o := by
  have hslot : pool.slots[i.toNat]? = some pool.slots[i.toNat] := Array.getElem?_eq_getElem hi
  rw [peek, hslot, orFault_some, ok_bind]
  cases hs : pool.slots[i.toNat] with
  | value o =>
    refine ⟨o, rfl, fun o' ho' => ?_⟩
    rw [value?_eq_some, hslot, hs] at ho'
    cases ho'
    rfl
  | nextFree n =>
    refine ⟨inactive i, rfl, fun o' ho' => ?_⟩
    rw [value?_eq_some, hslot, hs] at ho'
    cases ho'

/-! ## One level -/

/-- The slots `xs` are linked behind `prev` and hold live orders of the level in order of
arrival, each of them in the id map with its handle. -/
structure Walked (b : Book) (l : Entries) (side : Side) (price : Price) (prev : Index)
    (lastSeq : SeqNo) (xs : List Index) : Prop where
  seg : Seg b.pool.nxt b.pool.prv prev xs kNilIndex
  nil_notMem : kNilIndex ∉ xs
  orders : Live b.pool side price xs
  times : (xs.map b.pool.restingAt).Pairwise fun o o' => o.seqNo < o'.seqNo
  later : prev ≠ kNilIndex → ∀ i ∈ xs, lastSeq < (b.pool.restingAt i).seqNo
  ids : ∀ i ∈ xs, l.lookup (b.pool.restingAt i).orderId = some (b.pool.handleAt i)

/-- A walk that is at its end. -/
theorem walked_nil (prev : Index) (lastSeq : SeqNo) : b.Walked l side price prev lastSeq [] where
  seg := trivial
  nil_notMem := List.not_mem_nil
  orders _ hi := absurd hi List.not_mem_nil
  times := List.Pairwise.nil
  later _ _ hi := absurd hi List.not_mem_nil
  ids _ hi := absurd hi List.not_mem_nil

/-- One step of a walk, in front of the rest of it. -/
theorem Walked.cons {o : Order} {prev : Index} {lastSeq : SeqNo} (hnil : i ≠ kNilIndex)
    (ho : b.pool.value? i = some o) (hprev : o.prevIdx = prev) (hside : o.side = side)
    (hprice : o.price = price) (hqty : o.qty ≠ 0)
    (hseq : ¬ (prev ≠ kNilIndex ∧ o.seqNo ≤ lastSeq))
    (hid : l.lookup o.orderId = some (b.pool.handleAt i)) (hnext : o.nextIdx = xs.headD kNilIndex)
    (hw : b.Walked l side price i o.seqNo xs) : b.Walked l side price prev lastSeq (i :: xs) where
  seg := by
    refine ⟨?_, ?_, hw.seg⟩
    · rw [prv_of_value? ho]
      exact hprev
    · rw [nxt_of_value? ho]
      exact hnext
  nil_notMem := by
    rw [List.mem_cons, not_or]
    exact ⟨hnil.symm, hw.nil_notMem⟩
  orders := by
    rw [Live, List.forall_mem_cons]
    exact ⟨⟨o, ho, hside, hprice, hqty⟩, hw.orders⟩
  times := by
    rw [List.map_cons, List.pairwise_cons, restingAt_of_value? ho]
    refine ⟨?_, hw.times⟩
    intro r hr
    obtain ⟨j, hj, rfl⟩ := List.mem_map.mp hr
    exact hw.later hnil j hj
  later hne := by
    have hlt : lastSeq < o.seqNo := by
      rw [← UInt64.not_le]
      intro hle
      exact hseq ⟨hne, hle⟩
    rw [List.forall_mem_cons]
    constructor
    · rw [restingAt_of_value? ho]
      exact hlt
    · intro j hj
      exact UInt64.lt_trans hlt (hw.later hnil j hj)
  ids := by
    rw [List.forall_mem_cons, restingAt_of_value? ho]
    exact ⟨hid, hw.ids⟩

/-- **The walk over a level** ends, reads no slot out of range, and sees what is there. -/
theorem checkLevel_walks (hg : b.Grounded vacant used l) (inactive : Index → Order) (side : Side)
    (level : Level) (fuel : ℕ) (idx prev : Index) (lastSeq : SeqNo) (linked : ℕ)
    (hfuel : b.pool.slots.size < fuel + linked) (hlinked : linked ≤ b.pool.slots.size) :
    Finds (fun n => n ≤ b.pool.slots.size ∧ ∃ xs, n = linked + xs.length ∧
        idx = xs.headD kNilIndex ∧ level.tail = xs.getLastD prev ∧
        b.Walked l side level.price prev lastSeq xs)
      (b.checkLevel inactive side level fuel idx prev lastSeq linked) := by
  induction fuel generalizing idx prev lastSeq linked with
  | zero => omega
  | succ fuel ih =>
    rw [checkLevel]
    by_cases hnil : idx = kNilIndex
    · rw [if_pos hnil]
      apply Finds.unless
      intro htail
      apply finds_linked
      exact ⟨hlinked, [], rfl, hnil, not_not.mp htail, walked_nil prev lastSeq⟩
    rw [if_neg hnil]
    apply Finds.unless
    intro hrange
    have hlt : idx.toNat < b.pool.slots.size := by
      rw [← hg.capacity]
      exact UInt32.lt_iff_toNat_lt.mp (UInt32.not_le.mp hrange)
    obtain ⟨o, hpeek, hvalue⟩ := peek_eq inactive hlt
    rw [hpeek, ok_bind]
    apply Finds.unless
    intro hprev
    apply Finds.unless
    intro hside
    apply Finds.unless
    intro hprice
    apply Finds.unless
    intro hqty
    apply Finds.unless
    intro hseq
    rw [hg.find, ok_bind]
    cases hl : l.lookup o.orderId with
    | none => exact finds_violation _ _
    | some mapped =>
      apply Finds.unless
      intro hmapped
      apply Finds.unless
      intro hcount
      rw [not_or, not_not, Bool.not_eq_false] at hmapped
      obtain ⟨hindex, hvalid⟩ := hmapped
      -- the id map has a live handle of the slot, so the slot holds an order
      obtain ⟨hhandle, hused⟩ := hg.live _ _ hl hvalid
      rw [hindex] at hhandle hused
      obtain ⟨o', ho'⟩ := hg.pool.occupied idx hused
      have ho := ho'
      rw [hvalue o' ho'] at ho
      rw [hg.capacity, gt_iff_lt, not_lt] at hcount
      have hrest := ih o.nextIdx idx o.seqNo (linked + 1) (by omega) hcount
      apply hrest.imp
      intro n hn
      obtain ⟨hle, xs, hlen, hhead, htail, hw⟩ := hn
      refine ⟨hle, idx :: xs, ?_, rfl, ?_, ?_⟩
      · rw [List.length_cons]
        omega
      · rw [htail, List.getLastD_cons]
      · rw [hhandle] at hl
        exact hw.cons hnil ho (not_not.mp hprev) (not_not.mp hside) (not_not.mp hprice) hqty hseq
          hl hhead

/-! ## One side -/

/-- Each level is better than the next one. -/
abbrev Descends (side : Side) (levels : List Level) : Prop :=
  levels.IsChain fun x y => side.best.better x.price y.price = true

/-- The level before this one, if any, has to be better. -/
theorem ordered_eq {p : PriceLevels} {room : ℕ} {A B : List Level} {level : Level}
    (hrepr : p.Repr room (A ++ level :: B)) :
    ∃ ordered : Bool,
      (∀ k : Bool → Checked CheckResult,
        (if A.length > 0 then
            p.byRank (A.length - 1) >>= fun x =>
              (pure (side.best.better x.price level.price) : Checked Bool) >>= k
          else (pure true : Checked Bool) >>= k) = k ordered) ∧
      (ordered = true → ∀ x ∈ A.getLast?, side.best.better x.price level.price = true) := by
  rcases List.eq_nil_or_concat A with rfl | ⟨A', x, rfl⟩
  · refine ⟨true, fun k => rfl, fun _ x hx => ?_⟩
    cases hx
  · rw [List.concat_eq_append] at hrepr ⊢
    have hprev : p.byRank ((A' ++ [x]).length - 1) = .ok x := by
      rw [List.length_append, List.length_singleton, Nat.add_sub_cancel]
      rw [List.append_assoc] at hrepr
      exact hrepr.byRank
    refine ⟨side.best.better x.price level.price, fun k => ?_, fun hb y hy => ?_⟩
    · rw [if_pos (by simp), hprev]
      rfl
    · rw [List.getLast?_append, List.getLast?_singleton] at hy
      cases hy
      exact hb

/-- **The walk over the levels** `B` that are left, behind the levels `A`. -/
theorem checkSide_walks (hg : b.Grounded vacant used l) (inactive : Index → Order) (side : Side)
    (B A : List Level) (hlevels : b.ranked side = A ++ B) (linked : ℕ)
    (hlinked : linked ≤ b.pool.slots.size) :
    Finds (fun n => n ≤ b.pool.slots.size ∧ ∃ L : Ladder, n = linked + L.slots.length ∧
        L.levels = B ∧ (∀ x ∈ L, x.2 ≠ [] ∧ b.Walked l side x.1 kNilIndex 0 x.2) ∧
        (Descends side A → Descends side (A ++ B)))
      (b.checkSide inactive side B.length linked) := by
  have hrepr := hg.ranked side
  induction B generalizing A linked with
  | nil =>
    apply finds_linked
    refine ⟨hlinked, [], rfl, rfl, ?_, ?_⟩
    · intro x hx
      exact absurd hx List.not_mem_nil
    · rw [List.append_nil]
      exact id
  | cons level B ih =>
    rw [hlevels] at hrepr
    have hrank : (b.levels side).size - (B.length + 1) = A.length := by
      have hcount := hrepr.count
      rw [List.length_append, List.length_cons] at hcount
      rw [PriceLevels.size]
      omega
    obtain ⟨ordered, hordered, hbetter⟩ := ordered_eq hrepr
    rw [List.length_cons, checkSide]
    dsimp only
    rw [hrank, hrepr.byRank, ok_bind, hordered]
    apply Finds.unless
    intro hnot
    apply Finds.unless
    intro hhead
    obtain ⟨r, hr, hwalk⟩ := checkLevel_walks hg inactive side level (b.pool.slots.size + 2)
      level.head kNilIndex 0 linked (by omega) hlinked
    rw [hr, ok_bind]
    cases r with
    | violation message => exact finds_violation _ _
    | linked n =>
      obtain ⟨hn, xs, hlen, hxs, htail, hw⟩ := hwalk n rfl
      have hlevels' : b.ranked side = (A ++ [level]) ++ B := by
        rw [hlevels, List.append_assoc]
        rfl
      apply (ih (A ++ [level]) hlevels' n hn).imp
      intro m hm
      obtain ⟨hle, L, hcount, hL, hwalked, hdesc⟩ := hm
      refine ⟨hle, (level.price, xs) :: L, ?_, ?_, ?_, ?_⟩
      · rw [Ladder.slots_cons, List.length_append]
        omega
      · rw [Ladder.levels_cons, hL, Level.ofList, ← hxs, ← htail]
      · rw [List.forall_mem_cons]
        refine ⟨⟨?_, hw⟩, hwalked⟩
        rintro rfl
        exact hhead hxs
      · intro hA
        rw [List.append_assoc] at hdesc
        apply hdesc
        rw [Descends, List.isChain_append]
        refine ⟨hA, List.isChain_singleton _, fun x hx y hy => ?_⟩
        cases hy
        rw [Bool.not_eq_true, Bool.not_eq_false'] at hnot
        exact hbetter hnot x hx

/-! ## The whole check -/

/-- The crossing test runs, and what it accepts is not crossed. -/
theorem crossed_eq (hg : b.Grounded vacant used l) :
    ∃ crossed, b.crossed = .ok crossed ∧ (crossed = false →
      ∀ x ∈ (b.ranked .buy).head?, ∀ y ∈ (b.ranked .sell).head?, x.price < y.price) := by
  have hbids : b.bids.Repr b.bids.levels.length (b.ranked .buy) := hg.ranked .buy
  have hasks : b.asks.Repr b.asks.levels.length (b.ranked .sell) := hg.ranked .sell
  rw [crossed]
  cases hbuy : b.ranked .buy with
  | nil =>
    rw [if_pos (Or.inl (hbids.empty_iff.mpr hbuy))]
    refine ⟨false, rfl, fun _ x hx => ?_⟩
    cases hx
  | cons bid B =>
    cases hsell : b.ranked .sell with
    | nil =>
      rw [if_pos (Or.inr (hasks.empty_iff.mpr hsell))]
      refine ⟨false, rfl, fun _ x hx y hy => ?_⟩
      cases hy
    | cons ask A =>
      have hnot : ¬ (b.bids.empty = true ∨ b.asks.empty = true) := by
        rw [hbids.empty_iff, hasks.empty_iff, hbuy, hsell]
        simp
      rw [hbuy] at hbids
      rw [hsell] at hasks
      have hbids' : b.bids.Repr b.bids.levels.length ([] ++ bid :: B) := hbids
      have hasks' : b.asks.Repr b.asks.levels.length ([] ++ ask :: A) := hasks
      have hbid : b.bids.read B.length = .ok bid := hbids'.read
      have hask : b.asks.read A.length = .ok ask := hasks'.read
      rw [if_neg hnot, hbids.best, ok_bind, hbid, ok_bind, hasks.best, ok_bind, hask, ok_bind]
      refine ⟨_, rfl, fun hno x hx y hy => ?_⟩
      cases hx
      cases hy
      rw [decide_eq_false_iff_not] at hno
      exact Int64.not_le.mp hno

/-- What the walks have seen: the ladders `L`, with as many orders as the map has entries and as
there are slots in use. -/
structure Seen (b : Book) (used : List Index) (l : Entries) (L : Side → Ladder) : Prop where
  levels : ∀ side, (L side).levels = b.ranked side
  full : ∀ side, (L side).Full
  walked : ∀ side, ∀ x ∈ L side, b.Walked l side x.1 kNilIndex 0 x.2
  descends : ∀ side, Descends side (b.ranked side)
  uncrossed : ∀ x ∈ (b.ranked .buy).head?, ∀ y ∈ (b.ranked .sell).head?, x.price < y.price
  size : (allSlots L).length = l.length
  inUse : (allSlots L).length = used.length

/-- The ladders of the two sides. -/
def ladders (bids asks : Ladder) : Side → Ladder
  | .buy => bids
  | .sell => asks

/-- A message ends the check. -/
theorem finds_message (P : Prop) (message : String) :
    ∃ r, (Except.ok (some message) : Checked (Option String)) = .ok r ∧ (r = none → P) := by
  refine ⟨_, rfl, fun hnone => ?_⟩
  cases hnone

/-- **The check** ends without a fault, and if it finds no violation, it has seen everything. -/
theorem check_walks (hg : b.Grounded vacant used l) (inactive : Index → Order) :
    ∃ r, b.invariantViolation inactive = .ok r ∧ (r = none → ∃ L, b.Seen used l L) := by
  obtain ⟨crossed, hcrossed, huncrossed⟩ := crossed_eq hg
  have hsize : ∀ side, (b.ranked side).length = (b.levels side).size := fun side =>
    (hg.ranked side).count.symm
  have hlen := hg.pool.length_add
  have hcap := hg.pool.size_lt
  rw [invariantViolation, hcrossed, ok_bind]
  split
  · exact finds_message _ _
  next hno =>
  obtain ⟨r, hbuy, hbids⟩ := checkSide_walks hg inactive .buy (b.ranked .buy) [] rfl 0
    (Nat.zero_le _)
  rw [hsize .buy] at hbuy
  have hbuy' : b.checkSide inactive .buy b.bids.size 0 = .ok r := hbuy
  rw [hbuy', ok_bind]
  cases r with
  | violation message => exact finds_message _ _
  | linked n =>
    obtain ⟨hn, L, hcount, hlevels, hwalked, hdesc⟩ := hbids n rfl
    obtain ⟨r', hsell, hasks⟩ := checkSide_walks hg inactive .sell (b.ranked .sell) [] rfl n hn
    rw [hsize .sell] at hsell
    have hsell' : b.checkSide inactive .sell b.asks.size n = .ok r' := hsell
    dsimp only
    rw [hsell', ok_bind]
    cases r' with
    | violation message => exact finds_message _ _
    | linked n' =>
      obtain ⟨hn', L', hcount', hlevels', hwalked', hdesc'⟩ := hasks n' rfl
      dsimp only
      split
      · exact finds_message _ _
      next hmap =>
      rw [hg.pool.freeSlots_eq, ok_bind]
      have hvacant : (UInt32.ofNat vacant.length).toNat = vacant.length :=
        UInt32.toNat_ofNat_of_lt' (by show vacant.length < 2 ^ 32; omega)
      have hinUse : sizeSub b.pool.capacity.toNat (UInt32.ofNat vacant.length).toNat
          = used.length := by
        rw [hg.capacity, hvacant, sizeSub]
        omega
      rw [hinUse]
      split
      · exact finds_message _ _
      next hused =>
      have hall : (allSlots (ladders L L')).length = n' := by
        rw [allSlots, List.length_append, ladders, ladders]
        omega
      rw [not_not] at hmap hused
      refine ⟨none, rfl, fun _ => ⟨ladders L L', ?_, ?_, ?_, ?_, ?_, ?_, ?_⟩⟩
      · intro side
        cases side with
        | buy => exact hlevels
        | sell => exact hlevels'
      · intro side x hx
        cases side with
        | buy => exact (hwalked x hx).1
        | sell => exact (hwalked' x hx).1
      · intro side x hx
        cases side with
        | buy => exact (hwalked x hx).2
        | sell => exact (hwalked' x hx).2
      · intro side
        cases side with
        | buy => exact hdesc List.isChain_nil
        | sell => exact hdesc' List.isChain_nil
      · exact huncrossed (Bool.not_eq_true _ ▸ hno)
      · rw [hall, hmap, hg.size]
      · rw [hall, hused]

end Book

end MatchingEngine
