import MatchingEngine.Book.Pool
import MatchingEngine.Library.IntrusiveList
import Mathlib.Data.List.Range
import Mathlib.Data.List.Perm.Basic

/-!
# The order pool — representation and specs

`FixedPool.Repr p vacant used` is the pool's invariant: the free list visits exactly the
slots `vacant`, the slots `used` hold a value, and together they are all slots, each once.
Each operation gets one spec over it; later modules see the pool only through `value?`
and `generationAt`.
-/

namespace MatchingEngine

open IntrusiveList

/-! ## Handles -/

/-- The value of a handle is made of its generation and its slot. -/
theorem value_makeHandle (i : Index) (g : UInt32) :
    (makeHandle i g).value.toNat = g.toNat * 2 ^ 32 + i.toNat := by
  have hi := i.toNat_lt
  have hg := g.toNat_lt
  have hs : (g.toUInt64 <<< 32).toNat = g.toNat <<< 32 := by
    rw [UInt64.toNat_shiftLeft]
    simp
    omega
  rw [makeHandle, UInt64.toNat_or, hs, UInt32.toNat_toUInt64, ← Nat.shiftLeft_add_eq_or_of_lt hi,
    Nat.shiftLeft_eq]

@[simp] theorem index_makeHandle (i : Index) (g : UInt32) : (makeHandle i g).index = i := by
  have hi := i.toNat_lt
  have hmask : (0xFFFFFFFF : UInt64).toNat = 2 ^ 32 - 1 := rfl
  apply UInt32.toNat_inj.mp
  rw [Handle.index, UInt64.toNat_toUInt32, UInt64.toNat_and, hmask, Nat.and_two_pow_sub_one_eq_mod,
    value_makeHandle]
  omega

@[simp] theorem generation_makeHandle (i : Index) (g : UInt32) :
    (makeHandle i g).generation = g := by
  have hi := i.toNat_lt
  have hg := g.toNat_lt
  have hshift : (32 : UInt64).toNat % 64 = 32 := rfl
  apply UInt32.toNat_inj.mp
  rw [Handle.generation, UInt64.toNat_toUInt32, UInt64.toNat_shiftRight, hshift,
    Nat.shiftRight_eq_div_pow, value_makeHandle]
  omega

/-- A minted handle is never the invalid one: no slot has the nil index. -/
theorem valid_makeHandle {i : Index} (g : UInt32) (h : i ≠ kNilIndex) :
    (makeHandle i g).valid = true := by
  rw [Handle.valid, bne_iff_ne]
  intro e
  apply h
  rw [← index_makeHandle i g, Handle.index, e]
  decide

/-! ## The indices of the slots -/

/-- The indices of `n` slots. -/
def indices (n : ℕ) : List Index := (List.range n).map UInt32.ofNat

theorem length_indices (n : ℕ) : (indices n).length = n := by simp [indices]

/-- The indices are the numbers below the size. -/
theorem mem_indices {n : ℕ} (hn : n < 2 ^ 32) (i : Index) : i ∈ indices n ↔ i.toNat < n := by
  rw [indices, List.mem_map]
  constructor
  · rintro ⟨k, hk, rfl⟩
    rw [List.mem_range] at hk
    rwa [UInt32.toNat_ofNat_of_lt' (lt_trans hk hn)]
  · intro h
    exact ⟨i.toNat, List.mem_range.mpr h, UInt32.ofNat_toNat⟩

theorem nodup_indices {n : ℕ} (hn : n < 2 ^ 32) : (indices n).Nodup := by
  refine List.Nodup.map_on (fun a ha b hb e => ?_) List.nodup_range
  rw [List.mem_range] at ha hb
  have h := congrArg UInt32.toNat e
  rwa [UInt32.toNat_ofNat_of_lt' (lt_trans ha hn), UInt32.toNat_ofNat_of_lt' (lt_trans hb hn)] at h

namespace FixedPool

variable {T : Type} {p : FixedPool T} {vacant used : List Index} {i j : Index} {v : T}

/-! ## The pool as a partial map -/

/-- The value in slot `i`, if its value member is active. -/
def value? (p : FixedPool T) (i : Index) : Option T :=
  match p.slots[i.toNat]? with
  | some (.value v) => some v
  | _ => none

/-- The link in slot `i`, if its link member is active. -/
def link? (p : FixedPool T) (i : Index) : Option Index :=
  match p.slots[i.toNat]? with
  | some (.nextFree n) => some n
  | _ => none

/-- The value of a slot, read from the array. -/
theorem value?_eq_some : p.value? i = some v ↔ p.slots[i.toNat]? = some (.value v) := by
  unfold value?
  split <;> simp_all

/-- The link of a slot, read from the array. -/
theorem link?_eq_some {n : Index} :
    p.link? i = some n ↔ p.slots[i.toNat]? = some (.nextFree n) := by
  unfold link?
  split <;> simp_all

theorem lt_of_value? (h : p.value? i = some v) : i.toNat < p.slots.size :=
  (Array.getElem?_eq_some_iff.mp (value?_eq_some.mp h)).1

/-- A slot with a value is read without a fault. -/
theorem unchecked_of_value? (h : p.value? i = some v) : p.unchecked i = .ok v := by
  rw [unchecked, value?_eq_some.mp h]
  rfl

/-- A free slot is followed without a fault. -/
theorem nextFreeAt_of_link? {n : Index} (h : p.link? i = some n) : p.nextFreeAt i = .ok n := by
  rw [nextFreeAt, link?_eq_some.mp h]
  rfl

/-- The handle of a slot in use. -/
theorem handleOf_of_value? (h : p.value? i = some v) :
    p.handleOf i = .ok (makeHandle i (p.generationAt i)) := by
  rw [handleOf, value?_eq_some.mp h]
  rfl

/-- A write through a slot in use. -/
theorem modify_of_value? (h : p.value? i = some v) (f : T → T) :
    p.modify i f = .ok (p.setValue i (f v)) := by
  rw [modify, unchecked_of_value? h]
  rfl

theorem slots_setValue : (p.setValue i v).slots = p.slots.setIfInBounds i.toNat (.value v) := rfl

@[simp] theorem size_setValue : (p.setValue i v).slots.size = p.slots.size := by
  simp [slots_setValue]

@[simp] theorem generationAt_setValue : (p.setValue i v).generationAt j = p.generationAt j := rfl

theorem value?_setValue_self (h : i.toNat < p.slots.size) :
    (p.setValue i v).value? i = some v := by
  rw [value?_eq_some, slots_setValue, Array.getElem?_setIfInBounds_self_of_lt h]

theorem value?_setValue_of_ne (h : j ≠ i) : (p.setValue i v).value? j = p.value? j := by
  have hne : i.toNat ≠ j.toNat := fun e => h (UInt32.toNat_inj.mp e.symm)
  rw [value?, value?, slots_setValue, Array.getElem?_setIfInBounds_ne hne]

theorem link?_setValue_of_ne (h : j ≠ i) : (p.setValue i v).link? j = p.link? j := by
  have hne : i.toNat ≠ j.toNat := fun e => h (UInt32.toNat_inj.mp e.symm)
  rw [link?, link?, slots_setValue, Array.getElem?_setIfInBounds_ne hne]

/-- The handle of a slot at its current generation is valid. -/
theorem validate_makeHandle (hi : i.toNat < p.slots.size) (hs : p.slots.size < 2 ^ 32) :
    p.validate (makeHandle i (p.generationAt i)) = true := by
  have hnil : i ≠ kNilIndex := by
    rintro rfl
    simp [kNilIndex] at hi
    omega
  simp [validate, valid_makeHandle _ hnil, hi]

/-! ## The invariant -/

/-- The free list is `vacant`, and the slots in use are `used`. -/
structure Repr (p : FixedPool T) (vacant used : List Index) : Prop where
  head : p.freeHead = vacant.headD kNilIndex
  thread : Thread p.link? kNilIndex vacant
  perm : (vacant ++ used).Perm (indices p.slots.size)
  occupied : ∀ i ∈ used, ∃ v, p.value? i = some v
  size_lt : p.slots.size < 2 ^ 32

namespace Repr

/-- The slots are free or in use, and each once. -/
theorem nodup (h : p.Repr vacant used) : (vacant ++ used).Nodup :=
  h.perm.nodup_iff.mpr (nodup_indices h.size_lt)

theorem nodup_used (h : p.Repr vacant used) : used.Nodup :=
  h.nodup.sublist (List.sublist_append_right ..)

/-- A slot in use is not free. -/
theorem not_free_of_used (h : p.Repr vacant used) (hi : i ∈ used) : i ∉ vacant := fun hf =>
  (List.nodup_append.mp h.nodup).2.2 i hf i hi rfl

theorem lt_of_mem (h : p.Repr vacant used) (hi : i ∈ vacant ++ used) : i.toNat < p.slots.size :=
  (mem_indices h.size_lt i).mp (h.perm.mem_iff.mp hi)

theorem ne_nil_of_mem (h : p.Repr vacant used) (hi : i ∈ vacant ++ used) : i ≠ kNilIndex := by
  rintro rfl
  have := h.lt_of_mem hi
  have := h.size_lt
  simp [kNilIndex] at *
  omega

/-- Free and used slots are all slots. -/
theorem length_add (h : p.Repr vacant used) : vacant.length + used.length = p.slots.size := by
  rw [← List.length_append, h.perm.length_eq, length_indices]

/-- A slot holds a value exactly if it is in use. -/
theorem mem_used_iff (h : p.Repr vacant used) : i ∈ used ↔ ∃ v, p.value? i = some v := by
  refine ⟨h.occupied i, ?_⟩
  rintro ⟨v, hv⟩
  have hall : i ∈ vacant ++ used :=
    h.perm.mem_iff.mpr ((mem_indices h.size_lt i).mpr (lt_of_value? hv))
  refine (List.mem_append.mp hall).resolve_left fun hf => ?_
  obtain ⟨as, bs, rfl⟩ := List.append_of_mem hf
  have hlink : ∃ n, p.link? i = some n := by
    have := h.thread
    clear h hall hf
    induction as with
    | nil => exact ⟨_, this.1⟩
    | cons a as ih => exact ih this.2
  obtain ⟨n, hn⟩ := hlink
  rw [link?_eq_some, value?_eq_some.mp hv] at *
  cases hn

/-- The order of the slots in use does not matter. -/
theorem of_perm {used' : List Index} (h : p.Repr vacant used) (hu : used'.Perm used) :
    p.Repr vacant used' :=
  ⟨h.head, h.thread, (hu.append_left vacant).trans h.perm,
    fun i hi => h.occupied i (hu.mem_iff.mp hi), h.size_lt⟩

/-- Writing a slot in use keeps the invariant. -/
theorem setValue (h : p.Repr vacant used) (hi : i ∈ used) : (p.setValue i v).Repr vacant used where
  head := h.head
  thread := h.thread.congr fun j hj =>
    link?_setValue_of_ne (ne_of_mem_of_not_mem hj (h.not_free_of_used hi))
  perm := by simpa using h.perm
  occupied j hj := by
    by_cases e : j = i
    · subst e
      exact ⟨v, value?_setValue_self (h.lt_of_mem (List.mem_append_right _ hj))⟩
    · rw [value?_setValue_of_ne e]
      exact h.occupied j hj
  size_lt := by simpa using h.size_lt

/-- `get` on the handle of a slot in use reads the slot. -/
theorem get_of_mem (h : p.Repr vacant used) (hv : p.value? i = some v) :
    p.get (makeHandle i (p.generationAt i)) = .ok (some v) := by
  rw [get, if_pos (validate_makeHandle (lt_of_value? hv) h.size_lt), index_makeHandle,
    unchecked_of_value? hv]
  rfl

/-! ## Allocate and free -/

/-- With no free slot, `allocate` returns the invalid handle and changes nothing. -/
theorem allocate_full (h : p.Repr [] used) : p.allocate v = .ok ({}, p) := by
  rw [allocate, if_pos (by simpa using h.head)]
  rfl

/-- **Allocate** takes the first free slot. -/
theorem allocate (h : p.Repr (i :: vacant) used) :
    ∃ p', p.allocate v = .ok (makeHandle i (p.generationAt i), p') ∧
      p'.Repr vacant (i :: used) ∧ p'.value? i = some v ∧
      (∀ j, j ≠ i → p'.value? j = p.value? j) ∧ (∀ j, p'.generationAt j = p.generationAt j) ∧
      p'.slots.size = p.slots.size := by
  have hmem : i ∈ (i :: vacant) ++ used := by simp
  have hlt := h.lt_of_mem hmem
  have hnil := h.ne_nil_of_mem hmem
  have hhead : p.freeHead = i := h.head
  have hlink := h.thread.1
  refine ⟨{ p.setValue i v with freeHead := vacant.headD kNilIndex }, ?_, ⟨rfl, ?_, ?_, ?_, ?_⟩,
    value?_setValue_self hlt, fun j hj => value?_setValue_of_ne hj, fun _ => rfl, size_setValue⟩
  · simp only [FixedPool.allocate, hhead, hnil, if_false, nextFreeAt_of_link? hlink, ok_bind]
    rfl
  · refine h.thread.2.congr fun j hj => link?_setValue_of_ne (ne_of_mem_of_not_mem hj ?_)
    exact fun hi => (List.nodup_cons.mp (by simpa using h.nodup)).1 (List.mem_append_left _ hi)
  · have : (vacant ++ i :: used).Perm (i :: vacant ++ used) := List.perm_middle
    simpa using this.trans h.perm
  · intro j hj
    by_cases e : j = i
    · subst e
      exact ⟨v, value?_setValue_self hlt⟩
    · obtain ⟨w, hw⟩ := h.occupied j ((List.mem_cons.mp hj).resolve_left e)
      exact ⟨w, (value?_setValue_of_ne e).trans hw⟩
  · simpa using h.size_lt

/-- **Free** puts the slot in front of the free list and takes its handles out of date. -/
theorem free {xs ys : List Index} (h : p.Repr vacant (xs ++ i :: ys)) :
    ∃ p', p.free (makeHandle i (p.generationAt i)) = p' ∧ p'.Repr (i :: vacant) (xs ++ ys) ∧
      (∀ j, j ≠ i → p'.value? j = p.value? j) ∧
      (∀ j, j ≠ i → p'.generationAt j = p.generationAt j) ∧
      p'.generationAt i = p.generationAt i + 1 ∧ p'.slots.size = p.slots.size := by
  have hused : i ∈ xs ++ i :: ys := by simp
  have hlt := h.lt_of_mem (List.mem_append_right _ hused)
  have hgen : i.toNat < p.generations.size := by rw [p.size_generations]; exact hlt
  have hne : ∀ j, j ≠ i → i.toNat ≠ j.toNat := fun j hj e => hj (UInt32.toNat_inj.mp e.symm)
  refine ⟨_, rfl, ?_⟩
  rw [FixedPool.free, if_pos (validate_makeHandle hlt h.size_lt)]
  simp only [index_makeHandle]
  have hval : ∀ j, j ≠ i → (p.slots.setIfInBounds i.toNat (Slot.nextFree p.freeHead))[j.toNat]?
      = p.slots[j.toNat]? := fun j hj => Array.getElem?_setIfInBounds_ne (hne j hj)
  refine ⟨⟨rfl, ⟨?_, ?_⟩, ?_, ?_, ?_⟩, ?_, ?_, ?_, ?_⟩
  · rw [link?_eq_some, Array.getElem?_setIfInBounds_self_of_lt hlt, h.head]
  · refine h.thread.congr fun j hj => ?_
    have hj : j ≠ i := ne_of_mem_of_not_mem hj (h.not_free_of_used hused)
    rw [link?, link?]
    simp only [hval j hj]
  · have : (i :: vacant ++ (xs ++ ys)).Perm (vacant ++ (xs ++ i :: ys)) := by
      rw [List.cons_append]
      refine (List.perm_middle (a := i)).symm.trans ?_
      exact List.Perm.append_left vacant List.perm_middle.symm
    simpa using this.trans h.perm
  · intro j hj
    have hji : j ≠ i := by
      rintro rfl
      have hnd := h.nodup_used
      rw [List.nodup_middle, List.nodup_cons] at hnd
      exact hnd.1 hj
    obtain ⟨w, hw⟩ := h.occupied j (by
      rcases List.mem_append.mp hj with h' | h' <;> simp [h'])
    refine ⟨w, ?_⟩
    rw [value?_eq_some] at hw ⊢
    rw [hval j hji, hw]
  · simpa using h.size_lt
  · intro j hj
    rw [value?, value?]
    simp only [hval j hj]
  · intro j hj
    simp only [generationAt, Array.getD_eq_getD_getElem?,
      Array.getElem?_setIfInBounds_ne (hne j hj)]
  · simp only [generationAt, Array.getD_eq_getD_getElem?]
    rw [Array.getElem?_setIfInBounds_self_of_lt hgen]
    rfl
  · simp

/-! ## The free-list count -/

/-- The walk of `free_slots` counts the rest of the free list. -/
theorem freeSlotsFrom_eq {is : List Index} (hsize : p.slots.size < 2 ^ 32) :
    ∀ (fuel : ℕ) (n : Index), Thread p.link? kNilIndex is → kNilIndex ∉ is →
      is.length < fuel → n.toNat + is.length ≤ p.slots.size →
      p.freeSlotsFrom fuel n (is.headD kNilIndex) = .ok (n + UInt32.ofNat is.length) := by
  induction is with
  | nil =>
    intro fuel n _ _ hf _
    obtain ⟨fuel, rfl⟩ := Nat.exists_eq_add_one_of_ne_zero (by omega : fuel ≠ 0)
    simp [freeSlotsFrom]
  | cons i is ih =>
    intro fuel n hth hnil hf hn
    obtain ⟨fuel, rfl⟩ := Nat.exists_eq_add_one_of_ne_zero (by omega : fuel ≠ 0)
    rw [List.mem_cons, not_or] at hnil
    rw [List.length_cons] at hf hn
    have hn1 : (n + 1).toNat = n.toNat + 1 := by
      rw [UInt32.toNat_add]
      exact Nat.mod_eq_of_lt (by simpa using by omega)
    have hstep := ih fuel (n + 1) hth.2 hnil.2 (by omega) (by omega)
    rw [freeSlotsFrom, List.headD_cons, if_neg (Ne.symm hnil.1), hn1, if_neg (by omega)]
    simp only [nextFreeAt_of_link? hth.1, ok_bind, hstep]
    rw [List.length_cons, UInt32.ofNat_add, UInt32.add_assoc, UInt32.add_comm 1]
    rfl

/-- The free list is counted to its end. -/
theorem freeSlots_eq (h : p.Repr vacant used) :
    p.freeSlots = .ok (UInt32.ofNat vacant.length) := by
  have hlen := h.length_add
  have hnil : kNilIndex ∉ vacant := fun hm =>
    h.ne_nil_of_mem (List.mem_append_left _ hm) rfl
  rw [freeSlots, h.head, freeSlotsFrom_eq h.size_lt _ _ h.thread hnil (by omega)
    (by rw [UInt32.toNat_zero]; omega), UInt32.zero_add]

end Repr

/-! ## Pools that are alike -/

/-- A slot has either a link or a value. -/
theorem value?_of_link?_eq_none (hi : i.toNat < p.slots.size) (hlink : p.link? i = none) :
    ∃ v, p.value? i = some v := by
  have hslot : p.slots[i.toNat]? = some p.slots[i.toNat] := Array.getElem?_eq_getElem hi
  cases hs : p.slots[i.toNat] with
  | value v =>
    rw [hs] at hslot
    exact ⟨v, value?_eq_some.mpr hslot⟩
  | nextFree n =>
    rw [hs] at hslot
    rw [link?_eq_some.mpr hslot] at hlink
    cases hlink

/-- A slot in use has no link in the free list. -/
theorem link?_of_value? (hv : p.value? i = some v) : p.link? i = none := by
  rw [link?, value?_eq_some.mp hv]

/-- The free lists and the generations are the same; what the slots in use hold may differ. -/
structure Alike (p p' : FixedPool T) : Prop where
  size : p'.slots.size = p.slots.size
  freeHead : p'.freeHead = p.freeHead
  link : ∀ i, p'.link? i = p.link? i
  generation : ∀ i, p'.generationAt i = p.generationAt i

namespace Alike

variable {p' : FixedPool T}

theorem refl (p : FixedPool T) : p.Alike p := ⟨rfl, rfl, fun _ => rfl, fun _ => rfl⟩

/-- The same handles are valid. -/
theorem validate (h : p.Alike p') (hdl : Handle) : p'.validate hdl = p.validate hdl := by
  rw [FixedPool.validate, FixedPool.validate, h.size, h.generation]

/-- The same slots are in use. -/
theorem repr (h : p.Alike p') (hr : p.Repr vacant used) : p'.Repr vacant used where
  head := h.freeHead.trans hr.head
  thread := hr.thread.congr fun i _ => h.link i
  perm := by
    rw [h.size]
    exact hr.perm
  occupied i hi := by
    obtain ⟨v, hv⟩ := hr.occupied i hi
    apply value?_of_link?_eq_none
    · rw [h.size]
      exact lt_of_value? hv
    · rw [h.link]
      exact link?_of_value? hv
  size_lt := by
    rw [h.size]
    exact hr.size_lt

end Alike

/-! ## The new pool -/

/-- In a new pool every slot is free, in order. -/
theorem repr_new (capacity : Index) : (new T capacity).Repr (indices capacity.toNat) [] := by
  have hsize : (new T capacity).slots.size = capacity.toNat := by simp [new]
  have hthread : ∀ m k, k + m = capacity.toNat →
      Thread (new T capacity).link? kNilIndex ((List.range' k m).map UInt32.ofNat) := by
    intro m
    induction m with
    | zero => exact fun _ _ => trivial
    | succ m ih =>
      intro k hk
      have hlt : k < capacity.toNat := by omega
      refine ⟨?_, ih (k + 1) (by omega)⟩
      rw [link?_eq_some, UInt32.toNat_ofNat_of_lt' (lt_trans hlt capacity.toNat_lt)]
      simp only [new, Array.getElem?_ofFn, hlt, dif_pos]
      cases m with
      | zero => rw [if_neg (by omega)]; rfl
      | succ m => rw [if_pos (by omega)]; rfl
  refine ⟨?_, ?_, ?_, fun i hi => absurd hi List.not_mem_nil,
    by rw [hsize]; exact capacity.toNat_lt⟩
  · by_cases h : capacity.toNat = 0
    · simp [new, indices, UInt32.lt_iff_toNat_lt, h]
    · have : 0 < capacity.toNat := by omega
      obtain ⟨n, hn⟩ := Nat.exists_eq_add_one_of_ne_zero h
      simp [new, indices, UInt32.lt_iff_toNat_lt, hn, List.range_succ_eq_map]
  · rw [indices, List.range_eq_range']
    exact hthread _ _ (by omega)
  · rw [List.append_nil, hsize]

end FixedPool

end MatchingEngine
