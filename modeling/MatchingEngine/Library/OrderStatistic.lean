import Mathlib.Data.Nat.Basic
import Mathlib.Data.List.Basic
import Mathlib.Order.Lattice
import Mathlib.Tactic.Common

/-!
# Order statistics

`IsRank l k v`: the `k`-th smallest item of a list is `v`, said without sorting the list. It is the
smallest item with `k` items at or below it, so a higher rank has an item that is not lower
(`IsRank.mono`), and in a sorted list it is at position `k - 1` (`isRank_of_sorted`).
-/

namespace OrderStatistic

variable {α : Type*} [LinearOrder α] {l l' : List α} {i k k' : ℕ} {v v' w : α}

/-- How many items are not above `v`. -/
def upTo (l : List α) (v : α) : ℕ := l.countP fun a => decide (a ≤ v)

/-- The `k`-th smallest item is `v`. -/
structure IsRank (l : List α) (k : ℕ) (v : α) : Prop where
  mem : v ∈ l
  reached : k ≤ upTo l v
  first : ∀ w < v, upTo l w < k

namespace IsRank

/-- Higher ranks are not smaller. -/
theorem mono (h : IsRank l k v) (h' : IsRank l k' v') (hle : k ≤ k') : v ≤ v' := by
  by_contra hlt
  have hfirst := h.first v' (not_le.mp hlt)
  have hreached := h'.reached
  omega

/-- Ranks do not depend on the order of the list. -/
theorem perm (h : IsRank l k v) (hp : l.Perm l') : IsRank l' k v := by
  have hcount : ∀ w, upTo l' w = upTo l w := fun w => (hp.countP_eq _).symm
  refine ⟨hp.mem_iff.mp h.mem, ?_, fun w hw => ?_⟩
  · rw [hcount]
    exact h.reached
  · rw [hcount]
    exact h.first w hw

/-- The last rank is the largest item. -/
theorem le_of_length (h : IsRank l l.length v) : ∀ a ∈ l, a ≤ v := by
  intro a ha
  have hall := (List.countP_eq_length (p := fun a => decide (a ≤ v))).mp
    (le_antisymm List.countP_le_length h.reached)
  exact of_decide_eq_true (hall a ha)

end IsRank

section

variable {β : Type*} {R : β → β → Prop} {m : List β} {b : β}

/-- A list around one of its items. -/
theorem eq_around (hi : m[i]? = some b) : m = m.take i ++ b :: m.drop (i + 1) := by
  obtain ⟨hlt, rfl⟩ := List.getElem?_eq_some_iff.mp hi
  rw [List.getElem_cons_drop, List.take_append_drop]

/-- What is in front of an item of an ordered list, and what is behind it. -/
theorem around_of_pairwise (h : m.Pairwise R) (hi : m[i]? = some b) :
    (∀ a ∈ m.take i, R a b) ∧ ∀ a ∈ m.drop (i + 1), R b a := by
  rw [eq_around hi, List.pairwise_append, List.pairwise_cons] at h
  obtain ⟨-, ⟨hbehind, -⟩, hfront⟩ := h
  exact ⟨fun a ha => hfront a ha b List.mem_cons_self, hbehind⟩

end

/-- **In a sorted list** the items are at their ranks. -/
theorem isRank_of_sorted (h : l.Pairwise (· ≤ ·)) (hi : l[i]? = some v) : IsRank l (i + 1) v := by
  obtain ⟨hfront, hbehind⟩ := around_of_pairwise h hi
  have hlen : (l.take i).length = i := by
    have hlt := (List.getElem?_eq_some_iff.mp hi).1
    apply List.length_take_of_le
    omega
  have hcount : ∀ w, upTo l w = upTo (l.take i) w + upTo (v :: l.drop (i + 1)) w := by
    intro w
    unfold upTo
    rw [← List.countP_append, ← eq_around hi]
  refine ⟨List.mem_of_getElem? hi, ?_, fun w hw => ?_⟩
  · -- the items in front are not above it
    have hall : upTo (l.take i) v = (l.take i).length :=
      List.countP_eq_length.mpr fun a ha => decide_eq_true (hfront a ha)
    have hself : upTo (v :: l.drop (i + 1)) v = upTo (l.drop (i + 1)) v + 1 :=
      List.countP_cons_of_pos (decide_eq_true le_rfl)
    rw [hcount, hall, hself]
    omega
  · -- it and those behind it are above `w`
    have hnone : upTo (v :: l.drop (i + 1)) w = 0 := by
      apply List.countP_eq_zero.mpr
      intro a ha hle
      have hle' := of_decide_eq_true hle
      rcases List.mem_cons.mp ha with rfl | ha
      · exact absurd hle' (not_le.mpr hw)
      · exact absurd (le_trans (hbehind a ha) hle') (not_le.mpr hw)
    have hfew : upTo (l.take i) w ≤ (l.take i).length := List.countP_le_length
    rw [hcount, hnone]
    omega

end OrderStatistic
