import Mathlib.Data.List.Induction
import Mathlib.Data.List.Nodup
import Mathlib.Logic.Function.Basic

/-!
# Intrusive doubly linked lists

Nodes live in a store and are named by indices `ι`, one of which, `nil`, names no node.
The store is seen through its two link fields `nxt prv : ι → ι`.

`Seg nxt prv before xs after` says that the nodes `xs` are linked in this order, that the
first one points back to `before` and the last one on to `after`. A whole list is a
segment from `nil` to `nil`; `IsList` adds that it visits no node twice. The two
operations, `IsList.append` and `IsList.unlink`, are stated as the updates to the link
fields that pointer code makes.
-/

namespace IntrusiveList

variable {ι : Type*} {nxt prv nxt' prv' : ι → ι} {nil before after b' a' x : ι}
  {xs ys : List ι}

/-! ## Segments -/

/-- `xs` is linked in both directions, from `before` to `after`. -/
def Seg (nxt prv : ι → ι) : ι → List ι → ι → Prop
  | _, [], _ => True
  | before, x :: xs, after => prv x = before ∧ nxt x = xs.headD after ∧ Seg nxt prv x xs after

@[simp] theorem seg_nil : Seg nxt prv before [] after := trivial

@[simp] theorem seg_cons : Seg nxt prv before (x :: xs) after ↔
    prv x = before ∧ nxt x = xs.headD after ∧ Seg nxt prv x xs after := Iff.rfl

/-- A segment falls apart at any point into two segments that meet there. -/
theorem seg_append : Seg nxt prv before (xs ++ ys) after ↔
    Seg nxt prv before xs (ys.headD after) ∧ Seg nxt prv (xs.getLastD before) ys after := by
  induction xs generalizing before with
  | nil => simp
  | cons x xs ih =>
    rw [List.cons_append, seg_cons, seg_cons, ih, List.getLastD_cons]
    have hhead : (xs ++ ys).headD after = xs.headD (ys.headD after) := by cases xs <;> rfl
    rw [hhead]
    tauto

/-- A segment depends only on the links of its own nodes. -/
theorem Seg.congr (h : Seg nxt prv before xs after) (hn : ∀ y ∈ xs, nxt' y = nxt y)
    (hp : ∀ y ∈ xs, prv' y = prv y) : Seg nxt' prv' before xs after := by
  induction xs generalizing before with
  | nil => trivial
  | cons x xs ih =>
    obtain ⟨h1, h2, h3⟩ := h
    refine ⟨?_, ?_, ih h3 (fun y hy => hn y (List.mem_cons_of_mem _ hy))
      (fun y hy => hp y (List.mem_cons_of_mem _ hy))⟩
    · rw [hp x List.mem_cons_self, h1]
    · rw [hn x List.mem_cons_self, h2]

/-- **No node twice.** The backward links lead from a node to the start of its segment, so
a segment that starts at a node outside itself comes to no node a second time. -/
theorem Seg.nodup (h : Seg nxt prv before xs after) (hbefore : before ∉ xs) : xs.Nodup := by
  induction xs using List.reverseRecOn generalizing after with
  | nil => exact List.nodup_nil
  | append_singleton xs x ih =>
    rw [seg_append] at h
    have hxs : before ∉ xs := fun hm => hbefore (List.mem_append_left _ hm)
    have hnd := ih h.1 hxs
    rw [List.nodup_append]
    refine ⟨hnd, List.nodup_singleton x, fun y hy z hz => ?_⟩
    rw [List.mem_singleton.mp hz]
    rintro rfl
    -- the last node of `xs`, which is `y` or behind it, would be in front of `y` as well
    obtain ⟨as, bs, rfl⟩ := List.append_of_mem hy
    obtain ⟨ws, w, hw⟩ := List.eq_nil_or_concat' (y :: bs) |>.resolve_left (List.cons_ne_nil y bs)
    have hback : as.getLastD before = w := by
      rw [← (seg_append.mp h.1).2.1, h.2.1, hw, ← List.append_assoc, List.getLastD_concat]
    have hwbs : w ∈ y :: bs := by simp [hw]
    rcases List.eq_nil_or_concat' as with rfl | ⟨vs, v, rfl⟩
    · apply hxs
      rw [show before = w from hback]
      exact hwbs
    · rw [List.getLastD_concat] at hback
      subst hback
      exact (List.nodup_append.mp hnd).2.2 v (by simp) v hwbs rfl

section Updates

variable [DecidableEq ι]

/-- Writing the forward link of its last node redirects the end of a segment. -/
theorem Seg.redirect_after (h : Seg nxt prv before (xs ++ [x]) after) (hx : x ∉ xs) :
    Seg (Function.update nxt x a') prv before (xs ++ [x]) a' := by
  obtain ⟨h1, h2⟩ := seg_append.mp h
  have hsame : ∀ y ∈ xs, Function.update nxt x a' y = nxt y := fun y hy =>
    Function.update_of_ne (ne_of_mem_of_not_mem hy hx) _ _
  refine seg_append.mpr ⟨?_, h2.1, Function.update_self .., trivial⟩
  exact h1.congr hsame fun _ _ => rfl

/-- Writing the backward link of its first node redirects the start of a segment. -/
theorem Seg.redirect_before (h : Seg nxt prv before (x :: xs) after) (hx : x ∉ xs) :
    Seg nxt (Function.update prv x b') b' (x :: xs) after := by
  obtain ⟨_, h2, h3⟩ := h
  refine ⟨Function.update_self .., h2, h3.congr (fun _ _ => rfl) fun y hy => ?_⟩
  exact Function.update_of_ne (ne_of_mem_of_not_mem hy hx) _ _

end Updates

/-! ## Threads

A free list is linked one way only, through nodes that hold nothing but the link. Its
store is seen through a partial function, so that a node which holds something else has
no link. -/

/-- `xs` is linked forward through `link`, up to `nil`. -/
def Thread (link : ι → Option ι) (nil : ι) : List ι → Prop
  | [] => True
  | x :: xs => link x = some (xs.headD nil) ∧ Thread link nil xs

/-- A thread depends only on the links of its own nodes. -/
theorem Thread.congr {link link' : ι → Option ι} (h : Thread link nil xs)
    (hl : ∀ y ∈ xs, link' y = link y) : Thread link' nil xs := by
  induction xs with
  | nil => trivial
  | cons x xs ih =>
    refine ⟨?_, ih h.2 fun y hy => hl y (List.mem_cons_of_mem _ hy)⟩
    rw [hl x List.mem_cons_self, h.1]

/-! ## Whole lists -/

/-- `xs` is a whole list: linked from `nil` to `nil`, with no node twice. -/
structure IsList (nxt prv : ι → ι) (nil : ι) (xs : List ι) : Prop where
  seg : Seg nxt prv nil xs nil
  nodup : xs.Nodup
  nil_notMem : nil ∉ xs

namespace IsList

/-- A list without a cell, whatever the links are. -/
theorem empty : IsList nxt prv nil [] := ⟨trivial, List.nodup_nil, List.not_mem_nil⟩

/-- A list depends on the links of its own cells only. -/
theorem congr (h : IsList nxt prv nil xs) (hn : ∀ y ∈ xs, nxt' y = nxt y)
    (hp : ∀ y ∈ xs, prv' y = prv y) : IsList nxt' prv' nil xs :=
  ⟨h.seg.congr hn hp, h.nodup, h.nil_notMem⟩

/-- The head of a list is `nil` exactly when the list is empty. -/
theorem head_eq_nil_iff (h : nil ∉ xs) : xs.headD nil = nil ↔ xs = [] := by
  cases xs with
  | nil => simp
  | cons x xs =>
    simp only [List.headD_cons, reduceCtorEq, iff_false]
    rintro rfl
    exact h List.mem_cons_self

/-- The tail of a list is `nil` exactly when the list is empty. -/
theorem last_eq_nil_iff (h : nil ∉ xs) : xs.getLastD nil = nil ↔ xs = [] := by
  rcases List.eq_nil_or_concat xs with rfl | ⟨ys, y, rfl⟩
  · simp
  · rw [List.concat_eq_append] at h ⊢
    simp only [List.getLastD_concat, List.append_eq_nil_iff, List.cons_ne_self, and_false,
      iff_false]
    rintro rfl
    exact h (by simp)

variable [DecidableEq ι]

/-- **Append.** Give `x` the links of a last node and let the old last node, if there is
one, point to it. -/
theorem append (h : IsList nxt prv nil xs) (hx : x ∉ xs) (hnil : x ≠ nil) :
    IsList
      (if xs.getLastD nil = nil then Function.update nxt x nil
        else Function.update (Function.update nxt x nil) (xs.getLastD nil) x)
      (Function.update prv x (xs.getLastD nil)) nil (xs ++ [x]) := by
  have hsame : ∀ (f : ι → ι) (v : ι), ∀ y ∈ xs, Function.update f x v y = f y := fun f v y hy =>
    Function.update_of_ne (ne_of_mem_of_not_mem hy hx) _ _
  refine ⟨?_, ?_, ?_⟩
  · rcases List.eq_nil_or_concat xs with rfl | ⟨ys, y, rfl⟩
    · simp
    · rw [List.concat_eq_append] at h hx hsame ⊢
      have hy : y ≠ nil := fun e => h.nil_notMem (by simp [e])
      have hyx : x ≠ y := fun e => hx (by simp [e])
      have hys : y ∉ ys := by
        have := h.nodup
        rw [List.nodup_append] at this
        exact fun hm => this.2.2 y hm y (by simp) rfl
      rw [List.getLastD_concat, if_neg hy]
      refine seg_append.mpr ⟨?_, ?_, ?_, trivial⟩
      · exact (h.seg.congr (hsame _ _) (hsame _ _)).redirect_after hys
      · rw [List.getLastD_concat, Function.update_self]
      · rw [Function.update_of_ne hyx, Function.update_self]; rfl
  · rw [List.nodup_append]
    refine ⟨h.nodup, List.nodup_singleton x, fun y hy z hz => ?_⟩
    rw [List.mem_singleton.mp hz]
    exact ne_of_mem_of_not_mem hy hx
  · rw [List.mem_append, List.mem_singleton]
    rintro (hm | rfl)
    · exact h.nil_notMem hm
    · exact hnil rfl

/-- **Unlink.** Let the neighbours of `x`, where there are any, point to each other. -/
theorem unlink (h : IsList nxt prv nil (xs ++ x :: ys)) :
    IsList
      (if prv x = nil then nxt else Function.update nxt (prv x) (nxt x))
      (if nxt x = nil then prv else Function.update prv (nxt x) (prv x)) nil (xs ++ ys) := by
  obtain ⟨hseg, hnd, hnil⟩ := h
  obtain ⟨hl, hp, hn, hr⟩ := seg_append.mp hseg
  have hsub : (xs ++ ys).Sublist (xs ++ x :: ys) :=
    (List.sublist_cons_self x ys).append_left xs
  have hdisj : ∀ y ∈ xs, y ∉ ys := fun y hy hy' =>
    (List.nodup_append.mp (hnd.sublist hsub)).2.2 y hy y hy' rfl
  have hnilx : nil ∉ xs := fun hm => hnil (by simp [hm])
  have hnily : nil ∉ ys := fun hm => hnil (by simp [hm])
  refine ⟨seg_append.mpr ⟨?_, ?_⟩, hnd.sublist hsub, fun hm => hnil (hsub.subset hm)⟩
  · -- the left part now ends at the head of the right part
    rw [hp, hn]
    have hback : ∀ y ∈ xs, (if ys.headD nil = nil then prv
        else Function.update prv (ys.headD nil) (xs.getLastD nil)) y = prv y := fun y hy => by
      cases ys with
      | nil => simp
      | cons z ys =>
        have hz : y ≠ z := ne_of_mem_of_not_mem hy fun hm => hdisj z hm List.mem_cons_self
        split
        · rfl
        · exact Function.update_of_ne hz _ _
    rcases List.eq_nil_or_concat xs with rfl | ⟨zs, z, rfl⟩
    · trivial
    · rw [List.concat_eq_append] at *
      have hz : (zs ++ [z]).getLastD nil ≠ nil := fun e => by
        simpa using (last_eq_nil_iff hnilx).mp e
      rw [if_neg hz, List.getLastD_concat] at *
      have hzs : z ∉ zs := fun hm =>
        (List.nodup_append.mp (hnd.sublist (List.sublist_append_left ..))).2.2 z hm z (by simp) rfl
      exact (hl.redirect_after hzs).congr (fun _ _ => rfl) hback
  · -- and the right part starts behind the end of the left part
    rw [hp, hn]
    cases ys with
    | nil => trivial
    | cons z ys =>
      have hz : (z :: ys).headD nil ≠ nil := fun e => by
        simpa using (head_eq_nil_iff hnily).mp e
      rw [if_neg hz]
      have hzs : z ∉ ys := (List.nodup_cons.mp (hnd.sublist
        ((List.sublist_cons_self x _).trans (List.sublist_append_right ..)))).1
      refine (hr.redirect_before hzs).congr (fun y hy => ?_) fun _ _ => rfl
      split
      · rfl
      · refine Function.update_of_ne (fun e => ?_) _ _
        rcases List.eq_nil_or_concat xs with rfl | ⟨ws, w, rfl⟩
        · exact hnily (by rw [e] at hy; simpa using hy)
        · rw [List.concat_eq_append, List.getLastD_concat] at e
          exact hdisj w (by simp) (e ▸ hy)

end IsList

end IntrusiveList
