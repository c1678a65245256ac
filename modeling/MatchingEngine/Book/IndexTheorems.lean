import MatchingEngine.Book.IdMapTheorems
import MatchingEngine.Book.LevelTheorems

/-!
# The id map as an index of the pool

`Indexed p m used` says that the id map `m` stores exactly the orders in the slots `used` of
the pool `p`: each under its own id, with the current handle of its slot. It depends on the
ids and the generations only, so relinking and refilling orders leave it alone.
-/

namespace MatchingEngine

open FixedPool

variable {p p' : FixedPool Order} {m : IdMap splitmix64} {i : Index} {o : Order} {id : OrderId}
  {used used' vacant xs ys : List Index}

/-- The handle of slot `i`, as long as the slot is not freed. -/
def FixedPool.handleAt (p : FixedPool Order) (i : Index) : Handle :=
  makeHandle i (p.generationAt i)

/-- The order in slot `i` is stored under `id`. -/
def HasId (p : FixedPool Order) (i : Index) (id : OrderId) : Prop :=
  (p.value? i).map (·.orderId) = some id

theorem hasId_of_value? (h : p.value? i = some o) : HasId p i o.orderId := by
  rw [HasId, h, Option.map_some]

/-- The id map leads from the ids of the orders in use to the handles of their slots. -/
structure Indexed (p : FixedPool Order) (m : IdMap splitmix64) (used : List Index) : Prop where
  ok : m.Ok
  room : 2 * p.slots.size ≤ m.table.size
  size : m.size = used.length
  maps : ∀ id h, m.Maps id h ↔ ∃ i ∈ used, HasId p i id ∧ h = p.handleAt i

namespace Indexed

/-- Only ids and generations matter. -/
theorem congr (h : Indexed p m used) (hid : ∀ i ∈ used, ∀ id, HasId p' i id ↔ HasId p i id)
    (hgen : ∀ i ∈ used, p'.generationAt i = p.generationAt i)
    (hsize : p'.slots.size = p.slots.size) : Indexed p' m used where
  ok := h.ok
  room := hsize ▸ h.room
  size := h.size
  maps id hdl := by
    rw [h.maps]
    constructor
    · rintro ⟨i, hi, hi', rfl⟩
      exact ⟨i, hi, (hid i hi id).mpr hi', by rw [handleAt, handleAt, hgen i hi]⟩
    · rintro ⟨i, hi, hi', rfl⟩
      exact ⟨i, hi, (hid i hi id).mp hi', by rw [handleAt, handleAt, hgen i hi]⟩

/-- Links may change. -/
theorem relinks (h : Indexed p m used) (hr : Relinks p p') : Indexed p' m used := by
  refine h.congr (fun i _ id => ?_) (fun i _ => hr.generation i) hr.size
  have hdata : (p'.value? i).map (·.orderId) = (p.value? i).map (·.orderId) := by
    have := congrArg (Option.map Order.orderId) (hr.data i)
    rw [Option.map_map, Option.map_map] at this
    exact this
  rw [HasId, HasId, hdata]

/-- An order may change as long as it keeps its id. -/
theorem setValue (h : Indexed p m used) {o' : Order} (ho : p.value? i = some o)
    (hid : o'.orderId = o.orderId) : Indexed (p.setValue i o') m used := by
  refine h.congr (fun j _ id => ?_) (fun _ _ => rfl) size_setValue
  by_cases hj : j = i
  · rw [hj, HasId, HasId, value?_setValue_self (lt_of_value? ho), ho, Option.map_some,
      Option.map_some, hid]
  · rw [HasId, HasId, value?_setValue_of_ne hj]

/-- The order of the slots does not matter. -/
theorem of_perm (h : Indexed p m used) (hp : used'.Perm used) : Indexed p m used' where
  ok := h.ok
  room := h.room
  size := h.size.trans hp.length_eq.symm
  maps id hdl := by
    rw [h.maps]
    simp only [hp.mem_iff]

theorem maps_of_mem (h : Indexed p m used) (hi : i ∈ used) (hid : HasId p i id) :
    m.Maps id (p.handleAt i) := (h.maps _ _).mpr ⟨i, hi, hid, rfl⟩

/-- Different slots hold orders with different ids. -/
theorem id_inj (h : Indexed p m used) {j : Index} (hi : i ∈ used) (hj : j ∈ used)
    (hid : HasId p i id) (hid' : HasId p j id) : i = j := by
  have := IdMap.maps_unique h.ok (h.maps_of_mem hi hid) (h.maps_of_mem hj hid')
  rw [← index_makeHandle i (p.generationAt i), ← index_makeHandle j (p.generationAt j)]
  exact congrArg Handle.index this

/-- An order in use is found. -/
theorem find_of_mem (h : Indexed p m used) (hi : i ∈ used) (hid : HasId p i id) :
    m.find id = .ok (some (p.handleAt i)) := IdMap.find_eq_some h.ok (h.maps_of_mem hi hid)

/-- An id that no order has maps to nothing. -/
theorem absent (h : Indexed p m used) (habs : ∀ i ∈ used, ¬ HasId p i id) :
    ∀ hdl, ¬ m.Maps id hdl := by
  intro hdl hm
  obtain ⟨i, hi, hid, -⟩ := (h.maps _ _).mp hm
  exact habs i hi hid

/-- An id that no order has is not found. -/
theorem find_of_absent (h : Indexed p m used) (habs : ∀ i ∈ used, ¬ HasId p i id) :
    m.find id = .ok none := IdMap.find_eq_none h.ok (h.absent habs)

theorem contains_of_absent (h : Indexed p m used) (habs : ∀ i ∈ used, ¬ HasId p i id) :
    m.contains id = .ok false := by
  rw [IdMap.contains, h.find_of_absent habs]
  rfl

/-- Erasing the id of an order in use leaves an index of the other orders. -/
theorem erase (h : Indexed p m (xs ++ i :: ys)) (hnd : (xs ++ i :: ys).Nodup)
    (hid : HasId p i id) :
    ∃ m', m.erase id = .ok (true, m') ∧ Indexed p m' (xs ++ ys) := by
  have hi : i ∈ xs ++ i :: ys := by simp
  have hnot : i ∉ xs ++ ys := by
    rw [List.nodup_middle, List.nodup_cons] at hnd
    exact hnd.1
  obtain ⟨m', heq, hok, hsize, htable, hmaps⟩ := IdMap.erase_spec h.ok (h.maps_of_mem hi hid)
  refine ⟨m', heq, hok, htable ▸ h.room, ?_, fun id' hdl => ?_⟩
  · have := h.size
    simp at this ⊢
    omega
  · rw [hmaps, h.maps]
    constructor
    · rintro ⟨hne, j, hj, hj', rfl⟩
      have hji : j ≠ i := by
        rintro rfl
        exact hne (Option.some.inj (hj'.symm.trans hid))
      exact ⟨j, by simpa [hji] using hj, hj', rfl⟩
    · rintro ⟨j, hj, hj', rfl⟩
      have hmem : j ∈ xs ++ i :: ys := by
        rcases List.mem_append.mp hj with hj | hj <;> simp [hj]
      refine ⟨?_, j, hmem, hj', rfl⟩
      rintro rfl
      exact hnot (h.id_inj hi hmem hid hj' ▸ hj)

/-- Inserting the id of a slot that was just filled makes an index of that slot too. -/
theorem insert (h : Indexed p m used) (hp : p.Repr vacant (i :: used)) (hid : HasId p i id)
    (habs : ∀ i ∈ used, ¬ HasId p i id) :
    ∃ m', m.insert id (p.handleAt i) = .ok m' ∧ Indexed p m' (i :: used) := by
  have hlen := hp.length_add
  have hroom := h.room
  have hsize := h.size
  rw [List.length_cons] at hlen
  have hvalid : (p.handleAt i).valid = true :=
    valid_makeHandle _ (hp.ne_nil_of_mem (by simp))
  obtain ⟨m', heq, hok, hsize', htable, hmaps⟩ :=
    IdMap.insert_spec h.ok (h.absent habs) hvalid (by omega)
  refine ⟨m', heq, hok, htable ▸ h.room, ?_, fun id' hdl => ?_⟩
  · rw [hsize', hsize, List.length_cons]
  · rw [hmaps, h.maps]
    constructor
    · rintro (⟨rfl, rfl⟩ | ⟨j, hj, hj'⟩)
      · exact ⟨i, List.mem_cons_self, hid, rfl⟩
      · exact ⟨j, List.mem_cons_of_mem _ hj, hj'⟩
    · rintro ⟨j, hj, hj', rfl⟩
      rcases List.mem_cons.mp hj with rfl | hj
      · exact Or.inl ⟨Option.some.inj (hj'.symm.trans hid), rfl⟩
      · exact Or.inr ⟨j, hj, hj', rfl⟩

end Indexed

/-- A new id map is an index of no slot. -/
theorem indexed_new (capacity : Index) :
    Indexed (FixedPool.new Order capacity) (IdMap.new splitmix64 capacity) [] where
  ok := (IdMap.ok_new _ _).1
  room := by
    obtain ⟨k, _, _, _, h⟩ := tableSlots_eq capacity
    simpa [FixedPool.new, IdMap.new] using h
  size := rfl
  maps id h := by simpa using (IdMap.ok_new _ _).2 id h

end MatchingEngine
