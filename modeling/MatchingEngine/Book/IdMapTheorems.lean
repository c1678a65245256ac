import MatchingEngine.Book.IdMap
import MatchingEngine.Library.LinearProbingOrder
import Mathlib.Data.Finset.Card
import Mathlib.Data.Nat.Bitwise

/-!
# The id map — a finite map

`IdMap.Ok` is the invariant of the table: a power of two many slots, at most half of them
used, counted by `size`, and a valid linear-probing table. Over it each operation has one
spec in terms of `Maps`, the finite map the table stores:

* `find_spec`: the answer is the handle stored under the id, and the probe ends;
* `insert_spec`: an absent id can be added while less than half of the slots are used;
* `erase_spec`: a present id leaves, and nothing else does.
-/

namespace MatchingEngine

open LinearProbing

/-! ## The size of the table -/

/-- The doubling ends at a power of two times the start, at the target or out of fuel. -/
theorem doubleUntil_eq (target : ℕ) : ∀ fuel slots,
    ∃ j, j ≤ fuel ∧ doubleUntil fuel target slots = slots * 2 ^ j ∧
      (target ≤ slots * 2 ^ j ∨ j = fuel) := by
  intro fuel
  induction fuel with
  | zero => intro slots; exact ⟨0, le_rfl, by simp [doubleUntil], Or.inr rfl⟩
  | succ fuel ih =>
    intro slots
    rw [doubleUntil]
    split
    · obtain ⟨j, hj, heq, hor⟩ := ih (slots * 2)
      have hpow : slots * 2 * 2 ^ j = slots * 2 ^ (j + 1) := by
        rw [Nat.pow_succ', Nat.mul_assoc]
      rw [hpow] at heq hor
      exact ⟨j + 1, by omega, heq, hor.imp_right fun h => by rw [h]⟩
    · refine ⟨0, by omega, by simp, Or.inl ?_⟩
      rw [Nat.pow_zero, Nat.mul_one]
      omega

/-- The table has a power of two many slots, at least twice as many as entries. -/
theorem tableSlots_eq (maxEntries : Index) :
    ∃ k, 1 ≤ k ∧ k ≤ 33 ∧ tableSlots maxEntries = 2 ^ k ∧
      2 * maxEntries.toNat ≤ tableSlots maxEntries := by
  obtain ⟨j, hj, heq, hor⟩ := doubleUntil_eq (2 * maxEntries.toNat) 32 2
  have hpow : 2 * 2 ^ j = 2 ^ (j + 1) := (Nat.pow_succ').symm
  refine ⟨j + 1, by omega, by omega, ?_, ?_⟩
  · rw [tableSlots, heq, hpow]
  · rw [tableSlots, heq]
    rcases hor with h | rfl
    · exact h
    · have := maxEntries.toNat_lt
      omega

namespace IdMap

variable {hash : OrderId → UInt64} {m : IdMap hash} {id : OrderId} {h : Handle} {i j p : ℕ}

/-! ## The table as a partial map on positions -/

/-- The entry at a position, and an empty one beyond the table. -/
def entry (m : IdMap hash) (i : ℕ) : Entry := m.table[i]?.getD {}

/-- What a position stores. -/
def view (m : IdMap hash) (i : ℕ) : Option (OrderId × Handle) :=
  if (m.entry i).handle.valid then some ((m.entry i).id, (m.entry i).handle) else none

/-- The map stores `h` under `id`. -/
def Maps (m : IdMap hash) (id : OrderId) (h : Handle) : Prop := Holds m.table.size m.view id h

/-- The positions in use. -/
def occupied (m : IdMap hash) : Finset ℕ :=
  (Finset.range m.table.size).filter fun i => m.view i ≠ none

/-- The number of slots is a power of two, and `mask` goes with it. -/
structure Shape (m : IdMap hash) : Prop where
  pow : ∃ k, 1 ≤ k ∧ k ≤ 33 ∧ m.table.size = 2 ^ k
  mask : m.mask + 1 = m.table.size

/-- A map in good order: a valid table, its size counted, at most half of it full. -/
structure Ok (m : IdMap hash) : Prop extends Shape m where
  valid : Valid m.table.size m.home m.view
  count : m.size = m.occupied.card
  le_half : 2 * m.size ≤ m.table.size

/-- An entry is read within the table. -/
theorem entryAt_of_lt (hi : i < m.table.size) : m.entryAt i = .ok (m.entry i) := by
  rw [entryAt, entry, Array.getElem?_eq_getElem hi]
  rfl

theorem view_eq_none : m.view i = none ↔ (m.entry i).handle.valid = false := by
  unfold view
  split <;> simp_all

theorem view_eq_some :
    m.view i = some (id, h) ↔
      (m.entry i).handle.valid = true ∧ (m.entry i).id = id ∧ (m.entry i).handle = h := by
  unfold view
  split <;> simp_all

@[simp] theorem size_setEntry (e : Entry) :
    (m.setEntry i e).table.size = m.table.size := by
  simp [setEntry]

theorem entry_setEntry_self (hi : i < m.table.size) (e : Entry) : (m.setEntry i e).entry i = e := by
  simp [entry, setEntry, Array.getElem?_setIfInBounds_self_of_lt hi]

theorem entry_setEntry_of_ne (hj : j ≠ i) (e : Entry) : (m.setEntry i e).entry j = m.entry j := by
  simp [entry, setEntry, Array.getElem?_setIfInBounds_ne (Ne.symm hj)]

/-- A write changes one slot of the view. -/
theorem view_setEntry (hi : i < m.table.size) (e : Entry) :
    (m.setEntry i e).view
      = Function.update m.view i (if e.handle.valid then some (e.id, e.handle) else none) := by
  funext j
  by_cases hj : j = i
  · rw [hj, Function.update_self, view, entry_setEntry_self hi]
  · rw [Function.update_of_ne hj, view, entry_setEntry_of_ne hj, view]

/-! ## Positions modulo the number of slots -/

namespace Shape

/-- A table has at least two slots. -/
theorem two_le_size (hm : m.Shape) : 2 ≤ m.table.size := by
  obtain ⟨k, hk, _, hs⟩ := hm.pow
  rw [hs]
  calc 2 = 2 ^ 1 := rfl
    _ ≤ 2 ^ k := Nat.pow_le_pow_right (by omega) hk

/-- The mask takes the remainder by the size of the table. -/
theorem and_mask (hm : m.Shape) (a : ℕ) : a &&& m.mask = a % m.table.size := by
  obtain ⟨k, _, _, hs⟩ := hm.pow
  have hmask : m.mask = 2 ^ k - 1 := by have := hm.mask; omega
  rw [hmask, Nat.and_two_pow_sub_one_eq_mod, hs]

/-- A search begins within the table. -/
theorem home_lt (hm : m.Shape) (id : OrderId) : m.home id < m.table.size := by
  rw [home, hm.and_mask]
  have := hm.two_le_size
  exact Nat.mod_lt _ (by omega)

/-- A search goes on to the next slot, and round. -/
theorem next_eq (hm : m.Shape) (hi : i < m.table.size) : m.next i = succ m.table.size i := by
  rw [next, hm.and_mask, succ]
  split
  · next h => rw [h, Nat.mod_self]
  · exact Nat.mod_eq_of_lt (by omega)

/-- Masked subtraction on `size_t` is cyclic distance. -/
theorem sizeSub_and_mask (hm : m.Shape) (hi : i < m.table.size) (hj : j < m.table.size) :
    sizeSub j i &&& m.mask = dist m.table.size i j := by
  obtain ⟨k, _, hk, hs⟩ := hm.pow
  have hdvd : 2 ^ k ∣ 2 ^ 64 := Nat.pow_dvd_pow 2 (by omega)
  have hlt := dist_lt hi hj
  rw [hm.and_mask, sizeSub, hs, Nat.mod_mod_of_dvd _ hdvd, ← hs]
  obtain ⟨c, hc⟩ := hdvd
  rw [← hs] at hc
  cases c with
  | zero => omega
  | succ c =>
    have hsplit : ∃ q, j + 2 ^ 64 - i = dist m.table.size i j + m.table.size * q := by
      rw [Nat.mul_succ] at hc
      unfold LinearProbing.dist
      split
      · exact ⟨c + 1, by rw [Nat.mul_succ]; omega⟩
      · exact ⟨c, by omega⟩
    obtain ⟨q, hq⟩ := hsplit
    rw [hq, Nat.add_mul_mod_self_left, Nat.mod_eq_of_lt hlt]

/-- The shape does not depend on what the slots contain. -/
theorem setEntry (hm : m.Shape) (e : Entry) : (m.setEntry i e).Shape where
  pow := by simpa using hm.pow
  mask := by simpa [IdMap.setEntry] using hm.mask

end Shape

/-- At most half of the slots are used, so some slot is empty. -/
theorem Ok.room (hm : m.Ok) : ∃ e, e < m.table.size ∧ m.view e = none := by
  by_contra hno
  push Not at hno
  have hall : m.occupied = Finset.range m.table.size :=
    Finset.filter_true_of_mem fun i hi => hno i (Finset.mem_range.mp hi)
  have h1 := hm.count
  have h2 := hm.le_half
  have h3 := hm.two_le_size
  rw [hall, Finset.card_range] at h1
  omega

/-! ## Probes -/

/-- The probe loop is a cyclic scan. -/
theorem probe_eq_scan (hm : m.Ok) (stop : Entry → Bool) : ∀ fuel i, i < m.table.size →
    m.probe stop fuel i = orFault (scan m.table.size (fun i => stop (m.entry i)) fuel i)
      .diverges := by
  intro fuel
  induction fuel with
  | zero => intro i _; rfl
  | succ fuel ih =>
    intro i hi
    rw [probe, entryAt_of_lt hi, ok_bind, scan]
    by_cases h : stop (m.entry i) = true
    · rw [if_pos h, if_pos h]
      rfl
    · rw [if_neg h, if_neg h, hm.next_eq hi]
      exact ih _ (succ_lt hi)

/-- A probe for an id ends at its entry, or at an empty slot if it has none. -/
theorem probe_isEmptyOr (hm : m.Ok) (id : OrderId) :
    ∃ p, m.probe (isEmptyOr id) m.table.size (m.home id) = .ok p ∧ p < m.table.size ∧
      (m.view p = none ∧ (∀ h, ¬ m.Maps id h) ∨ ∃ h, m.view p = some (id, h)) := by
  have hstop : ∀ i, i < m.table.size → (isEmptyOr id (m.entry i) = true ↔
      m.view i = none ∨ ∃ h, m.view i = some (id, h)) := by
    intro i _
    rw [view_eq_none, isEmptyOr]
    simp only [view_eq_some, Bool.or_eq_true, Bool.not_eq_true', beq_iff_eq]
    cases (m.entry i).handle.valid <;> simp
  obtain ⟨p, hp, hpn, hor⟩ := hm.valid.probe hm.room hstop
  refine ⟨p, ?_, hpn, hor⟩
  rw [probe_eq_scan hm _ _ _ (hm.home_lt id), hp]
  rfl

/-- **Find** returns the handle stored under the id. -/
theorem find_spec (hm : m.Ok) (id : OrderId) :
    ∃ r, m.find id = .ok r ∧ ∀ h, r = some h ↔ m.Maps id h := by
  obtain ⟨p, hp, hpn, hor⟩ := probe_isEmptyOr hm id
  rw [find, hp]
  simp only [ok_bind, entryAt_of_lt hpn]
  rcases hor with ⟨hnone, habsent⟩ | ⟨h, hsome⟩
  · rw [view_eq_none.mp hnone]
    exact ⟨none, rfl, fun h => by simpa using habsent h⟩
  · obtain ⟨hv, -, hh⟩ := view_eq_some.mp hsome
    rw [hv, hh]
    refine ⟨some h, rfl, fun h' => ?_⟩
    rw [Option.some_inj]
    constructor
    · rintro rfl
      exact ⟨p, hpn, hsome⟩
    · exact hm.valid.holds_unique ⟨p, hpn, hsome⟩

/-- An id that is mapped is found. -/
theorem find_eq_some (hm : m.Ok) (h' : m.Maps id h) : m.find id = .ok (some h) := by
  obtain ⟨r, hr, hspec⟩ := find_spec hm id
  rw [hr, (hspec h).mpr h']

/-- An id that is not mapped is not found. -/
theorem find_eq_none (hm : m.Ok) (h' : ∀ h, ¬ m.Maps id h) : m.find id = .ok none := by
  obtain ⟨r, hr, hspec⟩ := find_spec hm id
  cases r with
  | none => exact hr
  | some h => exact absurd ((hspec h).mp rfl) (h' h)

/-- An id maps to one handle. -/
theorem maps_unique (hm : m.Ok) {h' : Handle} (h₁ : m.Maps id h) (h₂ : m.Maps id h') : h = h' :=
  hm.valid.holds_unique h₁ h₂

/-- What `insert` does: the entry goes to the first empty slot `p` of its probe. -/
theorem insert_eq (hm : m.Ok) (id : OrderId) (hv : h.valid = true)
    (hsize : m.size < m.table.size / 2) :
    ∃ p, p < m.table.size ∧ m.view p = none ∧
      (∀ q, q < m.table.size →
        dist m.table.size (m.home id) q < dist m.table.size (m.home id) p → m.view q ≠ none) ∧
      m.insert id h = .ok { m.setEntry p ⟨id, h⟩ with size := m.size + 1 } := by
  obtain ⟨e, he, hte⟩ := hm.room
  obtain ⟨p, hp, hpn, hps, hfirst⟩ := scan_eq (fun i => !(m.entry i).handle.valid) he
    (by simpa using view_eq_none.mp hte) m.table.size (m.home id) (hm.home_lt id)
    (dist_lt (hm.home_lt id) he)
  refine ⟨p, hpn, view_eq_none.mpr (by simpa using hps), fun q hq hlt e => ?_, ?_⟩
  · have := hfirst q hq hlt
    rw [view_eq_none.mp e] at this
    cases this
  · rw [insert, require_of hv, require_of hsize]
    simp only [ok_bind, probe_eq_scan hm _ _ _ (hm.home_lt id), hp]
    rfl

/-- **Insert** adds an absent id. -/
theorem insert_spec (hm : m.Ok) (habsent : ∀ h, ¬ m.Maps id h) (hv : h.valid = true)
    (hsize : m.size < m.table.size / 2) :
    ∃ m', m.insert id h = .ok m' ∧ m'.Ok ∧ m'.size = m.size + 1 ∧
      m'.table.size = m.table.size ∧
      ∀ id' h', m'.Maps id' h' ↔ (id' = id ∧ h' = h) ∨ m.Maps id' h' := by
  obtain ⟨p, hpn, hempty, hpath, heq⟩ := insert_eq hm id hv hsize
  have hview : (m.setEntry p ⟨id, h⟩).view = Function.update m.view p (some (id, h)) := by
    rw [view_setEntry hpn, if_pos hv]
  have hocc : (m.setEntry p ⟨id, h⟩).occupied = Insert.insert p m.occupied := by
    ext q
    simp only [occupied, size_setEntry, hview, Finset.mem_filter, Finset.mem_range,
      Finset.mem_insert]
    by_cases hq : q = p
    · simp [hq, hpn]
    · simp [hq, Function.update_of_ne]
  have hnotmem : p ∉ m.occupied := by simp [occupied, hempty]
  refine ⟨_, heq, ⟨?_, ?_, ?_, ?_⟩, rfl, size_setEntry _, fun id' h' => ?_⟩
  · exact ⟨(hm.toShape.setEntry _).pow, (hm.toShape.setEntry _).mask⟩
  · show Valid (m.setEntry p ⟨id, h⟩).table.size m.home (m.setEntry p ⟨id, h⟩).view
    rw [size_setEntry, hview]
    exact hm.valid.insert habsent hpath h
  · show m.size + 1 = (m.setEntry p ⟨id, h⟩).occupied.card
    rw [hocc, Finset.card_insert_of_notMem hnotmem, hm.count]
  · show 2 * (m.size + 1) ≤ (m.setEntry p ⟨id, h⟩).table.size
    rw [size_setEntry]
    omega
  · show Holds (m.setEntry p ⟨id, h⟩).table.size (m.setEntry p ⟨id, h⟩).view id' h' ↔ _
    rw [size_setEntry, hview]
    exact holds_insert hpn hempty

/-! ## Deletion -/

/-- Filling a slot that is in use with another entry leaves the slots in use as they are. -/
theorem occupied_setEntry (hi : i < m.table.size) (hne : m.view i ≠ none) {e : Entry}
    (he : e.handle.valid = true) : (m.setEntry i e).occupied = m.occupied := by
  ext q
  simp only [occupied, size_setEntry, view_setEntry hi, if_pos he, Finset.mem_filter,
    Finset.mem_range]
  by_cases hq : q = i
  · rw [hq, Function.update_self]
    simp [hne]
  · rw [Function.update_of_ne hq]

/-- The second loop of `erase` ends with a hole at which the table can be cut. The run it
walks ends at the empty slot `e` at the latest. -/
theorem closeGap_spec {e : ℕ} : ∀ fuel (m : IdMap hash) (hole i : ℕ), m.Shape →
    Gap m.table.size m.home m.view hole i → e < m.table.size → m.view e = none →
    dist m.table.size i e < fuel →
    ∃ m' hole' i', m.closeGap fuel hole i = .ok (m', hole') ∧ m'.Shape ∧
      m'.table.size = m.table.size ∧ m'.size = m.size ∧ m'.occupied = m.occupied ∧
      Gap m'.table.size m'.home m'.view hole' i' ∧ m'.view i' = none ∧
      Closes m.table.size m.home m.view hole i m'.view hole' ∧
      ∀ id h, HoldsOff m'.table.size hole' m'.view id h
        ↔ HoldsOff m.table.size hole m.view id h := by
  intro fuel
  induction fuel with
  | zero => intro m hole i _ _ _ _ hd; omega
  | succ fuel ih =>
    intro m hole i hshape hgap he hempty hd
    rw [closeGap, entryAt_of_lt hgap.i_lt, ok_bind]
    cases hvi : m.view i with
    | none =>
      -- the end of the run
      rw [view_eq_none.mp hvi]
      exact ⟨m, hole, i, rfl, hshape, rfl, rfl, rfl, hgap, hvi, .done hvi, fun _ _ => Iff.rfl⟩
    | some kv =>
      obtain ⟨k, v⟩ := kv
      obtain ⟨hvalid, hid, hh⟩ := view_eq_some.mp hvi
      have hei : e ≠ i := by
        rintro rfl
        rw [hempty] at hvi
        cases hvi
      have hsucc := dist_succ_left hgap.i_lt he hei
      have hne := hgap.succ_ne (by rw [hvi]; exact Option.some_ne_none _) he hempty
      rw [hvalid, hshape.next_eq hgap.i_lt, hid, hshape.sizeSub_and_mask hgap.hole_lt hgap.i_lt,
        hshape.sizeSub_and_mask (hshape.home_lt k) hgap.i_lt]
      simp only [Bool.not_true, Bool.false_eq_true, if_false]
      split
      · next hle =>
        -- the entry moves into the hole and leaves a new one behind
        have hview : (m.setEntry hole (m.entry i)).view
            = Function.update m.view hole (some (k, v)) := by
          rw [view_setEntry hgap.hole_lt, if_pos hvalid, hid, hh]
        have hgap' := hgap.move hvi hle
        have heh : e ≠ hole := fun h => hgap.stale (h ▸ hempty)
        have hempty' : (m.setEntry hole (m.entry i)).view e = none := by
          rw [hview, Function.update_of_ne heh, hempty]
        rw [← hview] at hgap'
        obtain ⟨m', hole', i', heq, hs, hsz, hcnt, hocc, hg, hi', hcloses, hoff⟩ :=
          ih (m.setEntry hole (m.entry i)) i (succ m.table.size i) (hshape.setEntry _)
            (by rw [size_setEntry]; exact hgap') (by rw [size_setEntry]; exact he) hempty'
            (by rw [size_setEntry]; omega)
        rw [hview, size_setEntry] at hcloses
        refine ⟨m', hole', i', heq, hs, hsz.trans (size_setEntry _), hcnt, ?_, hg, hi',
          .move hvi hle hcloses, ?_⟩
        · rw [hocc, occupied_setEntry hgap.hole_lt hgap.stale hvalid]
        · intro id h
          rw [hoff, size_setEntry, hview]
          exact hgap.holdsOff_move hvi
      · next hle =>
        obtain ⟨m', hole', i', heq, hs, hsz, hcnt, hocc, hg, hi', hcloses, hoff⟩ :=
          ih m hole _ hshape (hgap.stay hvi hle hne) he hempty (by omega)
        exact ⟨m', hole', i', heq, hs, hsz, hcnt, hocc, hg, hi', .stay hvi hle hcloses, hoff⟩

/-- **Erase** of an absent id changes nothing. -/
theorem erase_absent (hm : m.Ok) (habsent : ∀ h, ¬ m.Maps id h) : m.erase id = .ok (false, m) := by
  obtain ⟨p, hp, hpn, hor⟩ := probe_isEmptyOr hm id
  rcases hor with ⟨hnone, -⟩ | ⟨h, hsome⟩
  · rw [erase, hp]
    simp only [ok_bind, entryAt_of_lt hpn, view_eq_none.mp hnone]
    rfl
  · exact absurd ⟨p, hpn, hsome⟩ (habsent h)

/-- What `erase` does to a present id: its loop runs from the slot `p` of the id up to the last
hole, which becomes empty. -/
theorem erase_eq (hm : m.Ok) (hmaps : m.Maps id h) :
    ∃ (p : ℕ) (m' : IdMap hash) (hole i : ℕ), p < m.table.size ∧
      (∃ h', m.view p = some (id, h')) ∧
      m.erase id = .ok (true,
        { m'.setEntry hole { m'.entry hole with handle := {} } with size := m'.size - 1 }) ∧
      m'.Shape ∧ m'.table.size = m.table.size ∧ m'.size = m.size ∧ m'.occupied = m.occupied ∧
      Gap m'.table.size m'.home m'.view hole i ∧ m'.view i = none ∧
      Gap m.table.size m.home m.view p (succ m.table.size p) ∧
      Closes m.table.size m.home m.view p (succ m.table.size p) m'.view hole ∧
      ∀ id h, HoldsOff m'.table.size hole m'.view id h ↔ HoldsOff m.table.size p m.view id h := by
  obtain ⟨p, hp, hpn, hor⟩ := probe_isEmptyOr hm id
  have hsome : ∃ h', m.view p = some (id, h') := by
    rcases hor with ⟨-, habsent⟩ | hsome
    · exact absurd hmaps (habsent h)
    · exact hsome
  obtain ⟨h₀, hsome⟩ := hsome
  have hvalid := (view_eq_some.mp hsome).1
  obtain ⟨e, he, hempty⟩ := hm.room
  have hstale : m.view p ≠ none := by rw [hsome]; exact Option.some_ne_none _
  have hgap := Gap.start hm.valid hm.two_le_size hpn hstale
  obtain ⟨m', hole, i, heq, hs, hsz, hcnt, hocc, hg, hi, hcloses, hoff⟩ :=
    closeGap_spec m.table.size m p _ hm.toShape hgap he hempty
      (dist_lt (succ_lt hpn) he)
  refine ⟨p, m', hole, i, hpn, ⟨h₀, hsome⟩, ?_, hs, hsz, hcnt, hocc, hg, hi, hgap, hcloses, hoff⟩
  rw [erase, hp]
  simp only [ok_bind, entryAt_of_lt hpn, hvalid, hm.next_eq hpn, heq, entryAt_of_lt hg.hole_lt]
  rfl

/-- The last hole becomes empty. -/
theorem view_clearEntry (hi : i < m.table.size) :
    (m.setEntry i { m.entry i with handle := {} }).view = Function.update m.view i none := by
  rw [view_setEntry hi]
  rfl

/-- **Erase** of a present id removes it and nothing else. -/
theorem erase_spec (hm : m.Ok) (hmaps : m.Maps id h) :
    ∃ m', m.erase id = .ok (true, m') ∧ m'.Ok ∧ m'.size + 1 = m.size ∧
      m'.table.size = m.table.size ∧
      ∀ id' h', m'.Maps id' h' ↔ id' ≠ id ∧ m.Maps id' h' := by
  obtain ⟨p, m', hole, i, hpn, ⟨h₀, hsome⟩, heq, hs, hsz, hcnt, hocc, hg, hi, -, -, hoff⟩ :=
    erase_eq hm hmaps
  have hview := view_clearEntry hg.hole_lt
  have hmem : hole ∈ m'.occupied := by
    simp only [occupied, Finset.mem_filter, Finset.mem_range]
    exact ⟨hg.hole_lt, hg.stale⟩
  have hocc' : (m'.setEntry hole { m'.entry hole with handle := {} }).occupied
      = m'.occupied.erase hole := by
    ext q
    simp only [occupied, size_setEntry, hview, Finset.mem_filter, Finset.mem_range,
      Finset.mem_erase]
    by_cases hq : q = hole
    · simp [hq]
    · simp [hq, Function.update_of_ne]
  have hcard : (m'.occupied.erase hole).card + 1 = m.size := by
    rw [Finset.card_erase_add_one hmem, hocc, hm.count]
  refine ⟨_, heq, ⟨?_, ?_, ?_, ?_⟩, ?_, ?_, fun id' h' => ?_⟩
  · exact ⟨(hs.setEntry _).pow, (hs.setEntry _).mask⟩
  · show Valid (m'.setEntry hole _).table.size m'.home (m'.setEntry hole _).view
    rw [size_setEntry, hview]
    exact hg.close hi
  · show m'.size - 1 = (m'.setEntry hole _).occupied.card
    rw [hocc']
    omega
  · show 2 * (m'.size - 1) ≤ (m'.setEntry hole _).table.size
    rw [size_setEntry, hsz]
    have := hm.le_half
    omega
  · show m'.size - 1 + 1 = m.size
    omega
  · show (m'.setEntry hole _).table.size = m.table.size
    rw [size_setEntry, hsz]
  · show Holds (m'.setEntry hole _).table.size (m'.setEntry hole _).view id' h' ↔ _
    rw [size_setEntry, hview, holds_close, hoff]
    exact hm.valid.holdsOff hpn hsome

/-! ## The empty map -/

/-- A new map is empty. -/
theorem ok_new (hash : OrderId → UInt64) (maxEntries : Index) :
    (new hash maxEntries).Ok ∧ ∀ id h, ¬ (new hash maxEntries).Maps id h := by
  have hview : ∀ i, (new hash maxEntries).view i = none := by
    intro i
    rw [view_eq_none, entry, new]
    simp only [Array.getElem?_replicate]
    split <;> rfl
  have hsize : (new hash maxEntries).table.size = tableSlots maxEntries := by simp [new]
  obtain ⟨k, hk, hk', hs, -⟩ := tableSlots_eq maxEntries
  have hpos : 0 < 2 ^ k := Nat.two_pow_pos k
  have hshape : (new hash maxEntries).Shape := by
    refine ⟨⟨k, hk, hk', by rw [hsize, hs]⟩, ?_⟩
    rw [hsize]
    show tableSlots maxEntries - 1 + 1 = _
    omega
  refine ⟨⟨hshape, ⟨hshape.home_lt, ?_, ?_⟩, ?_, ?_⟩, ?_⟩
  · intro p q _ _ _ _ _ hp
    rw [hview] at hp
    cases hp
  · intro p _ _ _ hp
    rw [hview] at hp
    cases hp
  · show 0 = (new hash maxEntries).occupied.card
    simp only [occupied, hview, ne_eq, not_true, Finset.filter_false, Finset.card_empty]
  · show 2 * 0 ≤ _
    omega
  · rintro id h ⟨p, _, hp⟩
    rw [hview] at hp
    cases hp

end IdMap

end MatchingEngine
