import MatchingEngine.Book.PoolTheorems
import MatchingEngine.Library.Run

/-!
# The order pool — runs

A run of calls on a pool: allocations, frees, and writes through the pointer that `get`
returns. What the caller holds after them is a list of live handles with the value last stored
through each (`live`). `FixedPool.Serves` says that the pool holds the same, and every call of a
careful caller keeps it (`Serves.call`), so a pool is an allocator (`pool_is_an_allocator`).
-/

namespace MatchingEngine

open Run

/-! ## Calls -/

/-- A call on the pool. -/
inductive PoolCall (T : Type) where
  | allocate (value : T)
  | free (h : Handle)
  /-- A write through the pointer that `get` returns. -/
  | write (h : Handle) (value : T)

namespace FixedPool

variable {T : Type}

/-- One call, with the handle it returned if it was an allocation. -/
def call (p : FixedPool T) : PoolCall T → Checked (FixedPool T × Option Handle)
  | .allocate value => do
    let (h, p) ← p.allocate value
    return (p, some h)
  | .free h => return (p.free h, none)
  | .write h value => do
    let _ ← orFault (← p.get h) .nullPointer
    return (← p.modify h.index fun _ => value, none)

/-! ## What the caller holds -/

/-- The live handles after one more call. -/
def record (l : List (Handle × T)) : PoolCall T × Option Handle → List (Handle × T)
  | (.allocate value, some h) => if h.valid then (h, value) :: l else l
  | (.allocate _, none) => l
  | (.free h, _) => l.filter fun e => e.1 != h
  | (.write h value, _) => l.map fun e => if e.1 = h then (h, value) else e

/-- The live handles, each with the value last stored through it. -/
def live (history : List (PoolCall T × Option Handle)) : List (Handle × T) :=
  history.foldl record []

/-- The rule of a careful caller: only live handles are freed or written through, and the
invalid handle may be freed. -/
def Careful (history : List (PoolCall T × Option Handle)) : PoolCall T → Prop
  | .allocate _ => True
  | .free h => h = {} ∨ h ∈ (live history).map Prod.fst
  | .write h _ => h ∈ (live history).map Prod.fst

instance (history : List (PoolCall T × Option Handle)) (c : PoolCall T) :
    Decidable (Careful history c) :=
  match c with
  | .allocate _ => .isTrue trivial
  | .free h => inferInstanceAs (Decidable (h = {} ∨ h ∈ (live history).map Prod.fst))
  | .write h _ => inferInstanceAs (Decidable (h ∈ (live history).map Prod.fst))

@[simp] theorem live_append (history : List (PoolCall T × Option Handle))
    (x : PoolCall T × Option Handle) : live (history ++ [x]) = record (live history) x := by
  rw [live, List.foldl_append]
  rfl

/-! ## The pool serves its caller -/

variable {p p' : FixedPool T} {l : List (Handle × T)} {h : Handle} {v : T} {i : Index}

/-- The slots of some handles. -/
def slotsOf (l : List (Handle × T)) : List Index := l.map fun e => e.1.index

/-- The pool holds what the caller thinks it holds. -/
structure Serves (capacity : Index) (p : FixedPool T) (l : List (Handle × T)) : Prop where
  repr : ∃ vacant, p.Repr vacant (slotsOf l)
  size : p.slots.size = capacity.toNat
  current : ∀ e ∈ l, e.1 = makeHandle e.1.index (p.generationAt e.1.index)
  stored : ∀ e ∈ l, p.value? e.1.index = some e.2

/-- A new pool serves a caller who holds nothing. -/
theorem serves_new (T : Type) (capacity : Index) : (new T capacity).Serves capacity [] where
  repr := ⟨_, repr_new capacity⟩
  size := by simp [new]
  current _ h := absurd h List.not_mem_nil
  stored _ h := absurd h List.not_mem_nil

namespace Serves

variable {capacity : Index}

theorem mem_slots {e : Handle × T} (he : e ∈ l) : e.1.index ∈ slotsOf l :=
  List.mem_map_of_mem (f := fun e : Handle × T => e.1.index) he

/-- Live handles have different slots. -/
theorem nodup (hs : p.Serves capacity l) : (slotsOf l).Nodup := by
  obtain ⟨vacant, hrepr⟩ := hs.repr
  exact hrepr.nodup_used

/-- Two live handles with one slot are one handle, with one value. -/
theorem eq_of_index (hs : p.Serves capacity l) {e e' : Handle × T} (he : e ∈ l) (he' : e' ∈ l)
    (heq : e.1.index = e'.1.index) : e = e' := by
  have hhandle : e.1 = e'.1 := by rw [hs.current e he, hs.current e' he', heq]
  have hvalue : some e.2 = some e'.2 := by rw [← hs.stored e he, ← hs.stored e' he', heq]
  exact Prod.ext hhandle (Option.some.inj hvalue)

/-- A live handle is valid. -/
theorem validate (hs : p.Serves capacity l) {e : Handle × T} (he : e ∈ l) :
    p.validate e.1 = true := by
  obtain ⟨vacant, hrepr⟩ := hs.repr
  rw [hs.current e he]
  exact validate_makeHandle (lt_of_value? (hs.stored e he)) hrepr.size_lt

/-- A live handle gets the value last stored through it. -/
theorem get (hs : p.Serves capacity l) {e : Handle × T} (he : e ∈ l) :
    p.get e.1 = .ok (some e.2) := by
  obtain ⟨vacant, hrepr⟩ := hs.repr
  rw [hs.current e he]
  exact hrepr.get_of_mem (hs.stored e he)

/-- **Allocate** returns a handle to a slot that no live handle names, unless the pool is full. -/
theorem allocate (hs : p.Serves capacity l) (v : T) :
    ∃ h p', p.allocate v = .ok (h, p') ∧
      p'.Serves capacity (if h.valid then (h, v) :: l else l) ∧
      (h.valid = false ↔ l.length = capacity.toNat) ∧
      (∀ i, p'.generationAt i = p.generationAt i) ∧
      (h.valid = true → h = makeHandle h.index (p.generationAt h.index)) := by
  obtain ⟨vacant, hrepr⟩ := hs.repr
  have hlen := hrepr.length_add
  rw [slotsOf, List.length_map, hs.size] at hlen
  cases vacant with
  | nil =>
    refine ⟨{}, p, hrepr.allocate_full, ?_, ?_, fun _ => rfl, fun hv => absurd hv (by decide)⟩
    · rw [if_neg (by decide)]
      exact hs
    · exact iff_of_true rfl (by rw [← hlen, List.length_nil, Nat.zero_add])
  | cons i vacant =>
    obtain ⟨p', heq, hrepr', hv, hother, hgen, hsize⟩ := hrepr.allocate (v := v)
    have hnil : i ≠ kNilIndex := hrepr.ne_nil_of_mem (by simp)
    have hvalid := valid_makeHandle (p.generationAt i) hnil
    have hfree : i ∉ slotsOf l := fun hm => hrepr.not_free_of_used hm List.mem_cons_self
    refine ⟨_, p', heq, ?_, ?_, hgen, fun _ => by rw [index_makeHandle]⟩
    · rw [if_pos hvalid]
      refine ⟨⟨vacant, ?_⟩, hsize.trans hs.size, fun e he => ?_, fun e he => ?_⟩
      · show p'.Repr vacant ((makeHandle i (p.generationAt i)).index :: slotsOf l)
        rw [index_makeHandle]
        exact hrepr'
      · rcases List.mem_cons.mp he with rfl | he
        · rw [index_makeHandle, hgen]
        · rw [hgen]
          exact hs.current e he
      · rcases List.mem_cons.mp he with rfl | he
        · rw [index_makeHandle, hv]
        · rw [hother _ fun e' => hfree (e' ▸ mem_slots he)]
          exact hs.stored e he
    · rw [hvalid]
      refine iff_of_false (by decide) ?_
      rw [List.length_cons] at hlen
      omega

/-- Dropping a live handle from the list. -/
theorem filter_eq {as bs : List (Handle × T)} {e : Handle × T}
    (hs : p.Serves capacity (as ++ e :: bs)) :
    ((as ++ e :: bs).filter fun e' => e'.1 != e.1) = as ++ bs := by
  have hnd := hs.nodup
  rw [slotsOf, List.map_append, List.map_cons, List.nodup_middle, List.nodup_cons,
    ← List.map_append] at hnd
  have hne : ∀ e' ∈ as ++ bs, (e'.1 != e.1) = true := by
    intro e' he'
    rw [bne_iff_ne]
    intro heq
    apply hnd.1
    rw [← heq]
    exact List.mem_map_of_mem (f := fun e : Handle × T => e.1.index) he'
  have has : as.filter (fun e' => e'.1 != e.1) = as :=
    List.filter_eq_self.mpr fun e' he' => hne e' (List.mem_append_left _ he')
  have hbs : bs.filter (fun e' => e'.1 != e.1) = bs :=
    List.filter_eq_self.mpr fun e' he' => hne e' (List.mem_append_right _ he')
  rw [List.filter_append, List.filter_cons, has, hbs]
  simp

/-- **Free** takes a live handle out of use and touches no other. -/
theorem free (hs : p.Serves capacity l) {e : Handle × T} (he : e ∈ l) :
    (p.free e.1).Serves capacity (l.filter fun e' => e'.1 != e.1) ∧
      (p.free e.1).generationAt e.1.index = p.generationAt e.1.index + 1 ∧
      ∀ j, j ≠ e.1.index → (p.free e.1).generationAt j = p.generationAt j := by
  obtain ⟨as, bs, rfl⟩ := List.append_of_mem he
  obtain ⟨vacant, hrepr⟩ := hs.repr
  have hslots : slotsOf (as ++ e :: bs) = slotsOf as ++ e.1.index :: slotsOf bs := List.map_append
  rw [hslots] at hrepr
  obtain ⟨p', heq, hrepr', hv, hgen, hself, hsize⟩ := hrepr.free
  rw [← hs.current e he] at heq
  have hnd := hs.nodup
  rw [hslots, List.nodup_middle, List.nodup_cons] at hnd
  have hne : ∀ e' ∈ as ++ bs, e'.1.index ≠ e.1.index := fun e' he' heq' => by
    apply hnd.1
    rw [← heq', slotsOf, slotsOf, ← List.map_append]
    exact List.mem_map_of_mem (f := fun e : Handle × T => e.1.index) he'
  have hold : ∀ e' ∈ as ++ bs, e' ∈ as ++ e :: bs := fun e' he' => by
    rcases List.mem_append.mp he' with h | h <;> simp [h]
  rw [heq, hs.filter_eq]
  refine ⟨⟨⟨e.1.index :: vacant, ?_⟩, hsize.trans hs.size, fun e' he' => ?_, fun e' he' => ?_⟩,
    hself, hgen⟩
  · rw [slotsOf, List.map_append]
    exact hrepr'
  · rw [hgen _ (hne e' he')]
    exact hs.current e' (hold e' he')
  · rw [hv _ (hne e' he')]
    exact hs.stored e' (hold e' he')

/-- **A write** through a live handle changes what is stored there and nothing else. -/
theorem write (hs : p.Serves capacity l) {e : Handle × T} (he : e ∈ l) (v : T) :
    ∃ p', p.modify e.1.index (fun _ => v) = .ok p' ∧
      p'.Serves capacity (l.map fun e' => if e'.1 = e.1 then (e.1, v) else e') ∧
      ∀ j, p'.generationAt j = p.generationAt j := by
  obtain ⟨vacant, hrepr⟩ := hs.repr
  have hfst : ∀ e' : Handle × T, (if e'.1 = e.1 then (e.1, v) else e').1 = e'.1 := by
    intro e'
    split
    · next h => exact h.symm
    · rfl
  have hslots : slotsOf (l.map fun e' => if e'.1 = e.1 then (e.1, v) else e') = slotsOf l := by
    rw [slotsOf, slotsOf, List.map_map]
    apply List.map_congr_left
    intro e' _
    show (if e'.1 = e.1 then (e.1, v) else e').1.index = _
    rw [hfst]
  refine ⟨_, modify_of_value? (hs.stored e he) _, ⟨⟨vacant, ?_⟩, ?_, fun e' he' => ?_,
    fun e' he' => ?_⟩, fun _ => rfl⟩
  · rw [hslots]
    exact hrepr.setValue (mem_slots he)
  · rw [size_setValue]
    exact hs.size
  · obtain ⟨e₀, he₀, rfl⟩ := List.mem_map.mp he'
    rw [hfst, generationAt_setValue]
    exact hs.current e₀ he₀
  · obtain ⟨e₀, he₀, rfl⟩ := List.mem_map.mp he'
    by_cases heq : e₀.1 = e.1
    · rw [if_pos heq]
      exact value?_setValue_self (lt_of_value? (hs.stored e he))
    · rw [if_neg heq, value?_setValue_of_ne]
      · exact hs.stored e₀ he₀
      · exact fun hidx => heq (congrArg Prod.fst (hs.eq_of_index he₀ he hidx))

/-- Every slot that is not in use counts as free. -/
theorem freeSlots (hs : p.Serves capacity l) :
    ∃ n, p.freeSlots = .ok n ∧ l.length + n.toNat = capacity.toNat := by
  obtain ⟨vacant, hrepr⟩ := hs.repr
  have hlen := hrepr.length_add
  rw [slotsOf, List.length_map, hs.size] at hlen
  refine ⟨_, hrepr.freeSlots_eq, ?_⟩
  have hcap := capacity.toNat_lt
  rw [UInt32.toNat_ofNat_of_lt' (by show vacant.length < 2 ^ 32; omega)]
  omega

/-- **Every careful call** succeeds and does to the pool what it does to the caller's list. -/
theorem call {history : List (PoolCall T × Option Handle)} (hs : p.Serves capacity (live history))
    (c : PoolCall T) (hc : Careful history c) :
    ∃ p' r, p.call c = .ok (p', r) ∧ p'.Serves capacity (live (history ++ [(c, r)])) := by
  cases c with
  | allocate v =>
    obtain ⟨h, p', heq, hs', -⟩ := hs.allocate v
    refine ⟨p', some h, ?_, ?_⟩
    · rw [FixedPool.call, heq]
      rfl
    · rw [live_append]
      exact hs'
  | free h =>
    refine ⟨p.free h, none, rfl, ?_⟩
    rw [live_append]
    rcases hc with rfl | hmem
    · -- the invalid handle validates nowhere and is nobody's
      have hinvalid : p.validate {} = false := rfl
      have hkeep : ((live history).filter fun e => e.1 != {}) = live history := by
        rw [List.filter_eq_self]
        intro e he
        rw [bne_iff_ne]
        intro heq
        have hv := hs.validate he
        rw [heq, hinvalid] at hv
        cases hv
      rw [FixedPool.free, hinvalid, if_neg Bool.false_ne_true]
      show p.Serves capacity ((live history).filter fun e => e.1 != {})
      rw [hkeep]
      exact hs
    · obtain ⟨e, he, rfl⟩ := List.mem_map.mp hmem
      exact (hs.free he).1
  | write h v =>
    obtain ⟨e, he, rfl⟩ := List.mem_map.mp hc
    obtain ⟨p', heq, hs', -⟩ := hs.write he v
    refine ⟨p', none, ?_, ?_⟩
    · rw [FixedPool.call, hs.get he, ok_bind]
      simp only [orFault_some, ok_bind, heq]
      rfl
    · rw [live_append]
      exact hs'

end Serves

/-- **A pool is an allocator**, as long as its caller is careful: live handles name different
slots, free slots and live handles add up to the capacity, an allocation fails exactly if all
slots are live, and what was stored through a live handle is still there. -/
theorem pool_is_an_allocator (capacity : Index) (calls : List (PoolCall T))
    (hcareful : Obeys Careful call [] (new T capacity) calls) :
    ∃ p replies l, runM call (new T capacity) calls = .ok (p, replies) ∧
      l = live (calls.zip replies) ∧
      (slotsOf l).Nodup ∧ (∀ e ∈ l, e.1.index.toNat < capacity.toNat) ∧
      (∃ n, p.freeSlots = .ok n ∧ l.length + n.toNat = capacity.toNat) ∧
      (∀ v, ∃ h p', p.allocate v = .ok (h, p') ∧
        (h = {} ↔ l.length = capacity.toNat) ∧ (h.valid = false ↔ h = {})) ∧
      (∀ (i : Index) (g : UInt32), i.toNat < capacity.toNat → makeHandle i g ≠ {}) ∧
      ∀ e ∈ l, e.1 ≠ {} ∧ p.get e.1 = .ok (some e.2) := by
  obtain ⟨p, replies, hrun, -, hs⟩ := runM_induction
    (P := fun history (p : FixedPool T) => p.Serves capacity (live history))
    (fun _ _ c hs hc => hs.call c hc) calls [] _ (serves_new T capacity) hcareful
  have hinvalid : ∀ h : Handle, h.valid = false ↔ h = {} := by
    intro h
    rw [Handle.valid, bne_eq_false_iff_eq]
    constructor
    · intro heq
      cases h
      simp only at heq
      rw [heq]
      rfl
    · rintro rfl
      rfl
  refine ⟨p, replies, _, hrun, rfl, hs.nodup, fun e he => ?_, hs.freeSlots, fun v => ?_,
    fun i g hi => ?_, fun e he => ⟨?_, hs.get he⟩⟩
  · rw [← hs.size]
    exact lt_of_value? (hs.stored e he)
  · obtain ⟨h, p', heq, -, hfull, -⟩ := hs.allocate v
    exact ⟨h, p', heq, (hinvalid h).symm.trans hfull, hinvalid h⟩
  · intro heq
    have hnil : i ≠ kNilIndex := by
      rintro rfl
      have := capacity.toNat_lt
      simp [kNilIndex] at hi
      omega
    have hvalid := valid_makeHandle g hnil
    rw [(hinvalid _).mpr heq] at hvalid
    cases hvalid
  · intro heq
    have hv := hs.validate he
    rw [heq] at hv
    cases hv

/-- A slot that is used twice, with a pool that is full in between. -/
theorem pool_is_an_allocator_reused :
    ∃ p replies l, runM call (new UInt32 1) [.allocate 5, .allocate 6, .free (makeHandle 0 0),
        .free {}, .allocate 7, .write (makeHandle 0 1) 8] = .ok (p, replies) ∧
      l = live (List.zip [.allocate 5, .allocate 6, .free (makeHandle 0 0),
        .free {}, .allocate 7, .write (makeHandle 0 1) 8] replies) ∧
      (slotsOf l).Nodup ∧ (∀ e ∈ l, e.1.index.toNat < (1 : Index).toNat) ∧
      (∃ n, p.freeSlots = .ok n ∧ l.length + n.toNat = (1 : Index).toNat) ∧
      (∀ v, ∃ h p', p.allocate v = .ok (h, p') ∧
        (h = {} ↔ l.length = (1 : Index).toNat) ∧ (h.valid = false ↔ h = {})) ∧
      (∀ (i : Index) (g : UInt32), i.toNat < (1 : Index).toNat → makeHandle i g ≠ {}) ∧
      ∀ e ∈ l, e.1 ≠ {} ∧ p.get e.1 = .ok (some e.2) := by
  refine pool_is_an_allocator 1 _ ?_
  exact .cons rfl trivial (.cons rfl trivial (.cons rfl (by decide) (.cons rfl (by decide)
    (.cons rfl trivial (.cons rfl (by decide) trivial)))))

end FixedPool

end MatchingEngine
