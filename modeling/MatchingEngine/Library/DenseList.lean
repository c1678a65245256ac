import Mathlib.Data.List.Nodup
import Mathlib.Logic.Function.Basic

/-!
# Dense lists

A list without gaps in which every element knows its position: next to the list stands an
index table, a partial function from elements to positions (`Indexes`). A new element goes to
the end. To remove an element, the last one is moved into its place (`swapRemove`), so that
the list stays without gaps. The order of the list means nothing.
-/

namespace DenseList

variable {α : Type*} {l xs : List α} {a b : α} {i : ℕ} {index : α → Option ℕ}

/-- `index` gives the position of every element of `l`, and of nothing else. -/
def Indexes (index : α → Option ℕ) (l : List α) : Prop := ∀ a i, index a = some i ↔ l[i]? = some a

/-- The last element of the list takes position `i`. -/
def swapRemove (l : List α) (i : ℕ) (last : α) : List α := (l.set i last).dropLast

/-- Of the list itself, only the last position is lost. -/
theorem swapRemove_concat (h : i ≤ xs.length) : swapRemove (xs ++ [b]) i b = xs.set i b := by
  unfold swapRemove
  rcases Nat.lt_or_eq_of_le h with hlt | heq
  · rw [List.set_append_left i b hlt, List.dropLast_concat]
  · have hend : xs.length ≤ i := Nat.le_of_eq heq.symm
    rw [List.set_append_right i b hend, List.set_eq_of_length_le hend, heq, Nat.sub_self,
      List.set_cons_zero, List.dropLast_concat]

namespace Indexes

/-- The empty list is indexed by nothing. -/
theorem empty : Indexes (fun _ : α => none) [] := fun a i => by simp

/-- The index tells who is in the list. -/
theorem mem_iff (h : Indexes index l) : a ∈ l ↔ (index a).isSome := by
  rw [List.mem_iff_getElem?, Option.isSome_iff_exists]
  exact exists_congr fun i => (h a i).symm

/-- An element that knows its position has no other. -/
theorem nodup (h : Indexes index l) : l.Nodup := by
  rw [List.nodup_iff_getElem?_ne_getElem?]
  intro i j hij hj he
  have hget : l[j]? = some l[j] := List.getElem?_eq_getElem hj
  have hi := (h l[j] i).mpr (he.trans hget)
  rw [(h l[j] j).mpr hget, Option.some_inj] at hi
  omega

/-- **Push.** -/
theorem push [DecidableEq α] (h : Indexes index l) (ha : a ∉ l) :
    Indexes (Function.update index a (some l.length)) (l ++ [a]) := by
  intro a' j
  rw [List.getElem?_append]
  by_cases e : a' = a
  · subst e
    have hout : l[j]? ≠ some a' := fun hj => ha (List.mem_of_getElem? hj)
    rw [Function.update_self, Option.some_inj]
    split
    · next hlt => exact iff_of_false (by omega) hout
    · next hge =>
      constructor
      · rintro rfl
        rw [Nat.sub_self]
        rfl
      · intro hj
        have hlt := (List.getElem?_eq_some_iff.mp hj).1
        rw [List.length_singleton] at hlt
        omega
  · rw [Function.update_of_ne e, h a' j]
    split
    · exact Iff.rfl
    · next hge =>
      have hout : l[j]? ≠ some a' := fun hj => hge (List.getElem?_eq_some_iff.mp hj).1
      have hlast : [a][j - l.length]? ≠ some a' := fun hj =>
        e (List.mem_singleton.mp (List.mem_of_getElem? hj))
      exact iff_of_false hout hlast

section Removal

variable {a' : α} {j : ℕ}

/-- A position in the front is one in the whole list. -/
theorem of_front (h : Indexes index (xs ++ [b])) (hj : xs[j]? = some a) :
    index a = some j ∧ j < xs.length := by
  have hlt := (List.getElem?_eq_some_iff.mp hj).1
  refine ⟨(h a j).mpr ?_, hlt⟩
  rw [List.getElem?_append_left hlt, hj]

theorem index_last (h : Indexes index (xs ++ [b])) : index b = some xs.length :=
  (h b _).mpr List.getElem?_concat_length

/-- The element that leaves is nowhere. -/
theorem set_ne_removed (h : Indexes index (xs ++ [b])) (ha : index a = some i) :
    (xs.set i b)[j]? ≠ some a := by
  intro hj
  rw [List.getElem?_set] at hj
  split at hj
  · split at hj
    · next hlt =>
      -- it would be the last one, which has its position behind the front
      have hlast := h.index_last
      rw [Option.some.inj hj, ha, Option.some_inj] at hlast
      omega
    · cases hj
  · next hij =>
    have hindex := (h.of_front hj).1
    rw [ha, Option.some_inj] at hindex
    exact hij hindex

/-- The element that moves is at position `i`. -/
theorem set_eq_moved (h : Indexes index (xs ++ [b])) (hi : i < xs.length) :
    (xs.set i b)[j]? = some b ↔ i = j := by
  rw [List.getElem?_set]
  split
  · next hij => exact iff_of_true rfl hij
  · next hij =>
    refine iff_of_false (fun hj => ?_) hij
    obtain ⟨hindex, hlt⟩ := h.of_front hj
    rw [h.index_last, Option.some_inj] at hindex
    omega

/-- All others stay where they are. -/
theorem set_eq_other (h : Indexes index (xs ++ [b])) (ha : index a = some i) (hea : a' ≠ a)
    (heb : a' ≠ b) : (xs.set i b)[j]? = some a' ↔ index a' = some j := by
  rw [List.getElem?_set]
  split
  · next hij =>
    refine iff_of_false (fun hj => ?_) fun hj => ?_
    · split at hj
      · exact heb (Option.some.inj hj).symm
      · cases hj
    · rw [h a' j, ← hij, (h a i).mp ha] at hj
      exact hea (Option.some.inj hj).symm
  · refine ⟨fun hj => (h.of_front hj).1, fun hj => ?_⟩
    rw [h a' j, List.getElem?_append] at hj
    split at hj
    · exact hj
    · exact absurd (List.mem_singleton.mp (List.mem_of_getElem? hj)) heb

end Removal

/-- **Removal.** The element that moves gets a new position, and the one that leaves loses
its own. -/
theorem swapRemove [DecidableEq α] (h : Indexes index (xs ++ [b])) (ha : index a = some i) :
    Indexes (Function.update (Function.update index b (some i)) a none)
      (swapRemove (xs ++ [b]) i b) := by
  have hget := (h a i).mp ha
  have hi : i ≤ xs.length := by
    have hlt := (List.getElem?_eq_some_iff.mp hget).1
    rw [List.length_append, List.length_singleton] at hlt
    omega
  rw [swapRemove_concat hi]
  intro a' j
  by_cases hea : a' = a
  · rw [hea, Function.update_self]
    exact iff_of_false (Option.some_ne_none j).symm (h.set_ne_removed ha)
  rw [Function.update_of_ne hea]
  by_cases heb : a' = b
  · have hlt : i < xs.length := by
      refine Nat.lt_of_le_of_ne hi fun e => hea ?_
      rw [e, List.getElem?_concat_length, Option.some_inj] at hget
      rw [heb, hget]
    rw [heb, Function.update_self, Option.some_inj]
    exact (h.set_eq_moved hlt).symm
  · rw [Function.update_of_ne heb]
    exact (h.set_eq_other ha hea heb).symm

/-- **Removal** takes out the one item and keeps the others. -/
theorem mem_swapRemove [DecidableEq α] (h : Indexes index (xs ++ [b])) (ha : index a = some i)
    {a' : α} : a' ∈ DenseList.swapRemove (xs ++ [b]) i b ↔ a' ≠ a ∧ a' ∈ xs ++ [b] := by
  rw [(h.swapRemove ha).mem_iff]
  by_cases hea : a' = a
  · rw [hea, Function.update_self]
    exact iff_of_false (by decide) fun hboth => hboth.1 rfl
  rw [Function.update_of_ne hea, and_iff_right hea, h.mem_iff]
  by_cases heb : a' = b
  · rw [heb, Function.update_self, h.index_last]
    exact iff_of_true rfl rfl
  · rw [Function.update_of_ne heb]

end Indexes

end DenseList
