import MatchingEngine.Book.CheckWalks
import MatchingEngine.Book.Invariants
import MatchingEngine.Book.Minted
import Mathlib.Data.List.Perm.Subperm

/-!
# The check on any book

What the walks of the check have seen is all there is: a slot occurs once among the linked
ones, and there are as many of these as slots in use (`Seen.perm`) and as entries of the id map
(`Seen.perm_entries`). So the check accepts structured books only, whatever was done to levels,
links and orders (`check_accepts_no_corrupt_book`).
-/

namespace MatchingEngine

open FixedPool IntrusiveList Run

namespace Book

variable {b : Book} {vacant used : List Index} {l : Entries} {side : Side} {i : Index}
  {id : OrderId} {h : Handle}

/-! ## What has been seen is all there is -/

namespace Seen

variable {L : Side → Ladder}

/-- The levels of a side go from best to worst. -/
theorem sorted (hs : b.Seen used l L) (side : Side) :
    (L side).Pairwise fun x y => side.best.rank x.1 < side.best.rank y.1 := by
  have hchain := hs.descends side
  rw [← hs.levels side, Descends, Ladder.levels, List.isChain_map] at hchain
  have hrank := hchain.imp fun x y hxy => Best.better_iff.mp hxy
  exact List.isChain_iff_pairwise.mp hrank

/-- An order that was seen is one of its side and level, of some quantity. -/
theorem orders (hs : b.Seen used l L) {side : Side} (hi : i ∈ (L side).slots) :
    ∃ x ∈ L side, i ∈ x.2 ∧
      ∃ o, b.pool.value? i = some o ∧ o.side = side ∧ o.price = x.1 ∧ o.qty ≠ 0 := by
  obtain ⟨x, hx, hix⟩ := List.mem_flatMap.mp hi
  exact ⟨x, hx, hix, (hs.walked side x hx).orders i hix⟩

/-- A slot is linked on one of the sides. -/
theorem mem_allSlots : i ∈ allSlots L ↔ ∃ side, i ∈ (L side).slots := by
  rw [allSlots, List.mem_append]
  constructor
  · intro hi
    rcases hi with hi | hi
    · exact ⟨.buy, hi⟩
    · exact ⟨.sell, hi⟩
  · intro hi
    obtain ⟨side, hi⟩ := hi
    cases side with
    | buy => exact Or.inl hi
    | sell => exact Or.inr hi

/-- No slot is linked twice on a side. -/
theorem nodup_slots (hs : b.Seen used l L) (side : Side) : (L side).slots.Nodup := by
  rw [Ladder.slots, List.nodup_flatMap]
  constructor
  · -- within a level the sequence numbers tell the slots apart
    intro x hx
    have htimes := List.pairwise_map.mp (hs.walked side x hx).times
    rw [List.nodup_iff_pairwise_ne]
    apply htimes.imp
    rintro i _ hlt rfl
    exact UInt64.lt_irrefl _ hlt
  · -- and the prices tell the levels apart
    apply (hs.sorted side).imp_of_mem
    intro x y hx hy hlt i hix hiy
    obtain ⟨o, ho, -, hprice, -⟩ := (hs.walked side x hx).orders i hix
    obtain ⟨o', ho', -, hprice', -⟩ := (hs.walked side y hy).orders i hiy
    rw [ho, Option.some_inj] at ho'
    rw [← hprice, ← hprice', ho'] at hlt
    exact lt_irrefl _ hlt

/-- No slot is linked twice. -/
theorem nodup (hs : b.Seen used l L) : (allSlots L).Nodup := by
  rw [allSlots, List.nodup_append]
  refine ⟨hs.nodup_slots .buy, hs.nodup_slots .sell, ?_⟩
  rintro i hi _ hi' rfl
  obtain ⟨x, -, -, o, ho, hside, -⟩ := hs.orders hi
  obtain ⟨y, -, -, o', ho', hside', -⟩ := hs.orders hi'
  rw [ho, Option.some_inj] at ho'
  rw [← ho', hside] at hside'
  cases hside'

/-- **The linked slots** are those in use: no slot is leaked. -/
theorem perm (hg : b.Grounded vacant used l) (hs : b.Seen used l L) : (allSlots L).Perm used := by
  have hsub : allSlots L ⊆ used := by
    intro i hi
    obtain ⟨side, hi⟩ := mem_allSlots.mp hi
    obtain ⟨x, -, -, o, ho, -⟩ := hs.orders hi
    exact hg.pool.mem_used_iff.mpr ⟨o, ho⟩
  exact (List.subperm_of_subset hs.nodup hsub).perm_of_length_le (le_of_eq hs.inUse.symm)

/-- The entry that the order in slot `i` must have. -/
def entryAt (p : FixedPool Order) (i : Index) : OrderId × Handle :=
  ((p.restingAt i).orderId, p.handleAt i)

/-- **The entries** are those of the linked orders: no entry dangles. -/
theorem perm_entries (hg : b.Grounded vacant used l) (hs : b.Seen used l L) :
    ((allSlots L).map (entryAt b.pool)).Perm l := by
  have hnd : ((allSlots L).map (entryAt b.pool)).Nodup := by
    apply hs.nodup.map
    intro i j heq
    have hindex := congrArg (fun e => e.2.index) heq
    simp only [entryAt, handleAt, index_makeHandle] at hindex
    exact hindex
  have hsub : (allSlots L).map (entryAt b.pool) ⊆ l := by
    intro e he
    obtain ⟨i, hi, rfl⟩ := List.mem_map.mp he
    obtain ⟨side, hi⟩ := mem_allSlots.mp hi
    obtain ⟨x, hx, hix, -⟩ := hs.orders hi
    exact (Entries.lookup_eq_some hg.nodup).mp ((hs.walked side x hx).ids i hix)
  apply (List.subperm_of_subset hnd hsub).perm_of_length_le
  rw [List.length_map]
  exact le_of_eq hs.size.symm

/-- The id map leads to the linked orders, and nowhere else. -/
theorem find_iff (hg : b.Grounded vacant used l) (hs : b.Seen used l L) :
    b.idMap.find id = .ok (some h) ↔
      ∃ i ∈ allSlots L, HasId b.pool i id ∧ h = b.pool.handleAt i := by
  rw [hg.find, Except.ok.injEq, Entries.lookup_eq_some hg.nodup, ← (hs.perm_entries hg).mem_iff,
    List.mem_map]
  apply exists_congr
  intro i
  apply and_congr_right
  intro hi
  obtain ⟨side, hi⟩ := mem_allSlots.mp hi
  obtain ⟨x, -, -, o, ho, -⟩ := hs.orders hi
  have hid : (b.pool.restingAt i).orderId = o.orderId := by
    rw [restingAt_of_value? ho]
    rfl
  rw [entryAt, Prod.mk.injEq, hid, HasId, ho, Option.map_some, Option.some_inj, @eq_comm _ h]

/-- The orders that are linked have different ids. -/
theorem id_inj (hg : b.Grounded vacant used l) (hs : b.Seen used l L) {j : Index}
    (hi : i ∈ allSlots L) (hj : j ∈ allSlots L) (hid : HasId b.pool i id)
    (hid' : HasId b.pool j id) : i = j := by
  have hfind := (hs.find_iff hg).mpr ⟨i, hi, hid, rfl⟩
  have hfind' := (hs.find_iff hg).mpr ⟨j, hj, hid', rfl⟩
  rw [hfind, Except.ok.injEq, Option.some_inj] at hfind'
  have hindex := congrArg Handle.index hfind'
  rwa [handleAt, handleAt, index_makeHandle, index_makeHandle] at hindex

/-- The first level of a side is its best one. -/
theorem best_first (hs : b.Seen used l L) {x y : Price × List Index} {B : Ladder}
    (hL : L side = x :: B) (hy : y ∈ L side) : side.best.rank x.1 ≤ side.best.rank y.1 := by
  have hsorted := hs.sorted side
  rw [hL] at hsorted hy
  rcases List.mem_cons.mp hy with rfl | hy
  · exact le_rfl
  · exact le_of_lt ((List.pairwise_cons.mp hsorted).1 y hy)

/-- Every bid is below every ask. -/
theorem uncrossed_levels (hs : b.Seen used l L) :
    ∀ bid ∈ L .buy, ∀ ask ∈ L .sell, bid.1 < ask.1 := by
  intro bid hbid ask hask
  obtain ⟨bid₀, B, hB⟩ := List.exists_cons_of_ne_nil (List.ne_nil_of_mem hbid)
  obtain ⟨ask₀, A, hA⟩ := List.exists_cons_of_ne_nil (List.ne_nil_of_mem hask)
  have hbest := hs.uncrossed
  rw [← hs.levels .buy, ← hs.levels .sell, hB, hA] at hbest
  have hlt : bid₀.1 < ask₀.1 := hbest _ rfl _ rfl
  have hle : -bid₀.1.toInt ≤ -bid.1.toInt := hs.best_first hB hbid
  have hle' : ask₀.1.toInt ≤ ask.1.toInt := hs.best_first hA hask
  rw [Int64.lt_iff_toInt_lt] at hlt ⊢
  omega

/-- **What the check has seen is a structured book.** -/
theorem structured (hg : b.Grounded vacant used l) (hs : b.Seen used l L) : b.Structured L where
  levels side := (hs.levels side).symm
  sorted side := (hs.sorted side).imp fun hlt => Best.better_iff.mpr hlt
  uncrossed := hs.uncrossed_levels
  full := hs.full
  lists side x hx := by
    have hw := hs.walked side x hx
    have hnd := (List.nodup_flatMap.mp (hs.nodup_slots side)).1 x hx
    exact ⟨hw.seg, hnd, hw.nil_notMem⟩
  orders side x hx := (hs.walked side x hx).orders
  times side x hx := (hs.walked side x hx).times
  ids id h := by
    rw [hs.find_iff hg]
    constructor
    · intro hmaps
      obtain ⟨i, hi, hid, rfl⟩ := hmaps
      have hused := (hs.perm hg).mem_iff.mp hi
      have hlt := hg.pool.lt_of_mem (List.mem_append_right _ hused)
      exact ⟨i, hi, hid, rfl, validate_makeHandle hlt hg.pool.size_lt⟩
    · intro hmaps
      obtain ⟨i, hi, hid, heq, -⟩ := hmaps
      exact ⟨i, hi, hid, heq⟩
  size := hg.size.trans hs.size.symm
  slots i := by
    rw [(hs.perm hg).mem_iff]
    exact hg.pool.mem_used_iff
  nodup := hs.nodup

end Seen

/-! ## Books to be checked -/

/-- What is known of a book that is to be checked. Its levels, links and orders may be anything,
but the free list and the generations are those that the calls of an honest caller left, who
freed no slot 2 ^ 32 times. Other calls, to the rule of `insert`, built the id map, and every
handle in it was returned by the pool. -/
structure Suspect (capacity maxEntries : Index) (calls : List (PoolCall Order))
    (replies : List (Option Handle)) (mapCalls : List MapCall) (b : Book) : Prop where
  honest : Obeys Honest FixedPool.call [] (.new Order capacity) calls
  few : ∀ i, frees i (.new Order capacity) calls < 2 ^ 32
  pool : ∃ p, runM FixedPool.call (.new Order capacity) calls = .ok (p, replies) ∧
    p.Alike b.pool
  legal : KeepsTo (Entries.Legal maxEntries) Entries.call [] mapCalls
  idMap : ∃ mapReplies,
    runM IdMap.call (.new splitmix64 maxEntries) mapCalls = .ok (b.idMap, mapReplies)
  minted : ∀ id h, b.idMap.find id = .ok (some h) → Minted (calls.zip replies) h
  /-- The array of each side has room for its levels. -/
  levels : ∀ side, (b.levels side).count ≤ (b.levels side).levels.length

variable {capacity maxEntries : Index} {calls : List (PoolCall Order)}
  {replies : List (Option Handle)} {mapCalls : List MapCall}

/-- What is known of the book is what the walks start from. -/
theorem Suspect.grounded (hb : b.Suspect capacity maxEntries calls replies mapCalls) :
    ∃ vacant, b.Grounded vacant (slotsOf (live (calls.zip replies)))
      (run Entries.call [] mapCalls).1 := by
  obtain ⟨p, hrun, halike⟩ := hb.pool
  obtain ⟨mapReplies, hmap⟩ := hb.idMap
  obtain ⟨p', replies', hrun', ht⟩ := tracks_run calls hb.honest hb.few
  rw [hrun, Except.ok.injEq, Prod.mk.injEq] at hrun'
  obtain ⟨rfl, rfl⟩ := hrun'
  obtain ⟨m, hmap', hs⟩ := IdMap.run_stores splitmix64 maxEntries mapCalls hb.legal
  rw [hmap, Except.ok.injEq, Prod.mk.injEq] at hmap'
  rw [← hmap'.1] at hs
  obtain ⟨vacant, hrepr⟩ := ht.serves.repr
  refine ⟨vacant, halike.repr hrepr, hs.find, hs.nodup, hs.size, ?_, hb.levels⟩
  intro id h hlookup hvalid
  have hfind : b.idMap.find id = .ok (some h) := by
    rw [hs.find, hlookup]
  rw [halike.validate] at hvalid
  obtain ⟨e, he, rfl⟩ := List.mem_map.mp (ht.mem_live (hb.minted id h hfind) hvalid)
  constructor
  · rw [handleAt, halike.generation]
    exact ht.serves.current e he
  · exact Serves.mem_slots he

/-- **The check accepts no corrupt book.** It ends without a fault on any book, and if it finds
no violation, the book is structured: the linked slots are those that are allocated, each once,
with the right links, and the id map leads from the ids of the orders there, which are all
different, to the handles of their slots, and nowhere else. -/
theorem check_accepts_no_corrupt_book (b : Book)
    (hb : b.Suspect capacity maxEntries calls replies mapCalls) (inactive : Index → Order) :
    ∃ r, b.invariantViolation inactive = .ok r ∧ (r = none → ∃ L, b.Structured L ∧
      (allSlots L).Perm (slotsOf (live (calls.zip replies))) ∧
      (∀ i ∈ allSlots L, ∀ j ∈ allSlots L, ∀ id,
        HasId b.pool i id → HasId b.pool j id → i = j) ∧
      ∀ id h, b.idMap.find id = .ok (some h) ↔
        ∃ i ∈ allSlots L, HasId b.pool i id ∧ h = b.pool.handleAt i) := by
  obtain ⟨vacant, hg⟩ := hb.grounded
  obtain ⟨r, hr, hseen⟩ := check_walks hg inactive
  refine ⟨r, hr, fun hnone => ?_⟩
  obtain ⟨L, hs⟩ := hseen hnone
  refine ⟨L, hs.structured hg, hs.perm hg, ?_, ?_⟩
  · intro i hi j hj id hid hid'
    exact hs.id_inj hg hi hj hid hid'
  · intro id h
    exact hs.find_iff hg

/-- Two bids at one price, one below them and an ask. The first slot was used before. -/
def reused : Book :=
  after 4 [limitCommand 1 .buy 5 7 1, cancelCommand 1, limitCommand 2 .buy 5 7 1,
    limitCommand 3 .buy 5 2 2, limitCommand 4 .buy 4 1 3, limitCommand 5 .sell 9 6 4]

/-- Calls that lead to the pool of the book, the links of the orders written last. -/
def reusedCalls : List (PoolCall Order) :=
  [.allocate { orderId := 1 }, .free (makeHandle 0 0), .allocate { orderId := 2 },
    .allocate { orderId := 3 }, .allocate { orderId := 4 }, .allocate { orderId := 5 },
    .write (makeHandle 0 1)
      { orderId := 2, price := 5, qty := 7, account := 1, seqNo := 2, nextIdx := 1 },
    .write (makeHandle 1 0)
      { orderId := 3, price := 5, qty := 2, account := 2, seqNo := 3, prevIdx := 0 },
    .write (makeHandle 2 0) { orderId := 4, price := 4, qty := 1, account := 3, seqNo := 4 },
    .write (makeHandle 3 0)
      { orderId := 5, side := .sell, price := 9, qty := 6, account := 4, seqNo := 5 }]

/-- What these calls return. -/
def reusedReplies : List (Option Handle) :=
  [some (makeHandle 0 0), none, some (makeHandle 0 1), some (makeHandle 1 0),
    some (makeHandle 2 0), some (makeHandle 3 0), none, none, none, none]

/-- The calls that the book makes on its id map. -/
def reusedMapCalls : List MapCall :=
  [.insert 1 (makeHandle 0 0), .erase 1, .insert 2 (makeHandle 0 1), .insert 3 (makeHandle 1 0),
    .insert 4 (makeHandle 2 0), .insert 5 (makeHandle 3 0)]

/-- The entries of the id map. -/
def reusedEntries : Entries :=
  [(2, makeHandle 0 1), (3, makeHandle 1 0), (4, makeHandle 2 0), (5, makeHandle 3 0)]

/-- The calls on the id map keep to its rule. -/
theorem legal_reused : KeepsTo (Entries.Legal 4) Entries.call [] reusedMapCalls := by
  have hlegal : ∀ (l : Entries) (id : OrderId) (h : Handle), l.lookup id = none →
      h.valid = true → l.length < 4 → Entries.Legal 4 l (.insert id h) :=
    fun _ _ _ habsent hvalid hroom => ⟨habsent, hvalid, hroom⟩
  refine ⟨hlegal _ _ _ ?_ ?_ ?_, trivial, hlegal _ _ _ ?_ ?_ ?_, hlegal _ _ _ ?_ ?_ ?_,
    hlegal _ _ _ ?_ ?_ ?_, hlegal _ _ _ ?_ ?_ ?_, trivial⟩ <;> decide

/-- The id map of the book finds its entries. -/
theorem find_reused (id : OrderId) :
    reused.idMap.find id = .ok (reusedEntries.lookup id) := by
  obtain ⟨m, hrun, hs⟩ := IdMap.run_stores splitmix64 4 reusedMapCalls legal_reused
  have hmap : runM IdMap.call (.new splitmix64 4) reusedMapCalls =
      .ok (reused.idMap, (run Entries.call [] reusedMapCalls).2) := rfl
  rw [hmap, Except.ok.injEq, Prod.mk.injEq] at hrun
  rw [hrun.1]
  exact hs.find id

/-- The book is one that can be checked. -/
theorem suspect_reused : reused.Suspect 4 4 reusedCalls reusedReplies reusedMapCalls where
  honest := by
    refine .cons rfl trivial (.cons rfl (Or.inr ⟨_, List.mem_cons_self⟩) (.cons rfl trivial
      (.cons rfl trivial (.cons rfl trivial (.cons rfl trivial (.cons rfl ?_ (.cons rfl ?_
      (.cons rfl ?_ (.cons rfl ?_ trivial)))))))))
    -- a write goes through a handle that is live then
    all_goals
      show _ ∈ (live _).map Prod.fst
      decide
  few i := by
    have hle := frees_le_length i (.new Order 4) reusedCalls
    have hlen : reusedCalls.length = 10 := rfl
    omega
  pool := ⟨reused.pool, by decide +kernel, .refl _⟩
  legal := legal_reused
  idMap := ⟨_, rfl⟩
  minted id h hfind := by
    rw [find_reused, Except.ok.injEq, Entries.lookup_eq_some (by decide)] at hfind
    have hcall : ∀ (k : ℕ) (o : Order) (h : Handle),
        (reusedCalls.zip reusedReplies)[k]? = some (.allocate o, some h) →
        Minted (reusedCalls.zip reusedReplies) h := fun k o h hk => ⟨o, List.mem_of_getElem? hk⟩
    simp only [reusedEntries, List.mem_cons, Prod.mk.injEq, List.not_mem_nil, or_false] at hfind
    rcases hfind with ⟨-, rfl⟩ | ⟨-, rfl⟩ | ⟨-, rfl⟩ | ⟨-, rfl⟩
    · exact hcall 2 _ _ rfl
    · exact hcall 3 _ _ rfl
    · exact hcall 4 _ _ rfl
    · exact hcall 5 _ _ rfl
  levels side := by
    cases side <;> decide +kernel

/-- The check finds nothing, so it has seen the four orders, each in one level. -/
theorem check_accepts_no_corrupt_book_reused :
    reused.invariantViolation (fun _ => {}) = .ok none ∧ ∃ L, reused.Structured L ∧
      (allSlots L).Perm [3, 2, 1, 0] ∧
      (∀ i ∈ allSlots L, ∀ j ∈ allSlots L, ∀ id,
        HasId reused.pool i id → HasId reused.pool j id → i = j) ∧
      ∀ id h, reused.idMap.find id = .ok (some h) ↔
        ∃ i ∈ allSlots L, HasId reused.pool i id ∧ h = reused.pool.handleAt i := by
  have hcheck : reused.invariantViolation (fun _ => {}) = .ok none := by decide +kernel
  obtain ⟨r, hr, hall⟩ := check_accepts_no_corrupt_book reused suspect_reused fun _ => {}
  rw [hcheck, Except.ok.injEq] at hr
  exact ⟨hcheck, hall hr.symm⟩

end Book

end MatchingEngine
