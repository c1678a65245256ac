import Mathlib.Data.List.Sort

/-!
# Lists in priority order

Lists of items `α` that are sorted by a `key`, smallest first. Items of one key stay in
order of arrival.

* `enqueue` puts an item behind everything of its own key. It is Mathlib's `orderedInsert`
  for the strict order of the keys.
* `split` finds the place of a key in a list whose keys are all different.
* `filter_le` says that the items up to a key are a prefix.
* `pair_sublist` and `mem_front_of_ahead` are about two items, `x` ahead of `y`, which is to
  say that `[x, y]` is a sublist.
-/

namespace PriorityList

variable {α κ : Type*} [LinearOrder κ] {key : α → κ} {x : α} {as bs l l' : List α} {k : κ}

/-- Put `x` in front of the first item with a greater key. -/
def enqueue (key : α → κ) (x : α) (l : List α) : List α :=
  l.orderedInsert (fun a b => key a < key b) x

/-- The item is in the list, and nothing else is new. -/
theorem enqueue_perm (x : α) (l : List α) : (enqueue key x l).Perm (x :: l) :=
  List.perm_orderedInsert _ x l

/-- An item goes in front of those behind it in the order. -/
theorem enqueue_cons_of_lt {a : α} (h : key x < key a) : enqueue key x (a :: l) = x :: a :: l :=
  if_pos h

/-- An item goes behind those in front of it in the order, and behind those of its own key. -/
theorem enqueue_cons_of_le {a : α} (h : key a ≤ key x) :
    enqueue key x (a :: l) = a :: enqueue key x l := if_neg (not_lt.mpr h)

/-- Items of at most the same key are passed. -/
theorem enqueue_append (h : ∀ a ∈ as, key a ≤ key x) :
    enqueue key x (as ++ bs) = as ++ enqueue key x bs := by
  induction as with
  | nil => rfl
  | cons a as ih =>
    rw [List.forall_mem_cons] at h
    rw [List.cons_append, enqueue_cons_of_le h.1, ih h.2, List.cons_append]

/-- Items of a greater key are not. -/
theorem enqueue_of_lt (h : ∀ b ∈ bs, key x < key b) : enqueue key x bs = x :: bs := by
  cases bs with
  | nil => rfl
  | cons b bs => exact enqueue_cons_of_lt (h b List.mem_cons_self)

/-- In a sorted list, the place of `x` is between the items of at most its key and the items
of a greater key. -/
theorem enqueue_split (h : l.Pairwise fun a b => key a ≤ key b) (x : α) :
    ∃ as bs, l = as ++ bs ∧ enqueue key x l = as ++ x :: bs ∧ (∀ a ∈ as, key a ≤ key x) ∧
      ∀ b ∈ bs, key x < key b := by
  induction l with
  | nil => exact ⟨[], [], rfl, rfl, by simp, by simp⟩
  | cons a l ih =>
    obtain ⟨ha, hl⟩ := List.pairwise_cons.mp h
    by_cases hx : key x < key a
    · refine ⟨[], a :: l, rfl, enqueue_cons_of_lt hx, by simp, ?_⟩
      exact List.forall_mem_cons.mpr ⟨hx, fun b hb => hx.trans_le (ha b hb)⟩
    · obtain ⟨as, bs, rfl, heq, has, hbs⟩ := ih hl
      refine ⟨a :: as, bs, rfl, ?_, List.forall_mem_cons.mpr ⟨not_lt.mp hx, has⟩, hbs⟩
      rw [enqueue_cons_of_le (not_lt.mp hx), heq, List.cons_append]

/-- Only the order of the keys matters. -/
theorem enqueue_map {β μ : Type*} [LinearOrder μ] {rank : β → μ} {f : α → β}
    (hkey : ∀ a b, rank (f a) < rank (f b) ↔ key a < key b) :
    enqueue rank (f x) (l.map f) = (enqueue key x l).map f := by
  unfold enqueue
  exact (List.map_orderedInsert _ _ f l x (fun a _ => (hkey a x).symm)
    fun a _ => (hkey x a).symm).symm

/-- A relation that holds along a sorted list still does with `x` in its place. -/
theorem pairwise_enqueue {R : α → α → Prop} (h : l.Pairwise fun a b => key a ≤ key b)
    (hR : l.Pairwise R) (hbefore : ∀ a ∈ l, key a ≤ key x → R a x)
    (hafter : ∀ b ∈ l, key x < key b → R x b) : (enqueue key x l).Pairwise R := by
  obtain ⟨as, bs, rfl, heq, has, hbs⟩ := enqueue_split h x
  obtain ⟨h1, h2, h3⟩ := List.pairwise_append.mp hR
  rw [heq, List.pairwise_append, List.pairwise_cons]
  refine ⟨h1, ⟨fun b hb => hafter b (List.mem_append_right _ hb) (hbs b hb), h2⟩, ?_⟩
  intro a ha b hb
  rcases List.mem_cons.mp hb with rfl | hb
  · exact hbefore a (List.mem_append_left _ ha) (has a ha)
  · exact h3 a ha b hb

/-- The place of a key among different keys: at its item, or between two items. -/
theorem split (h : l.Pairwise fun a b => key a < key b) (k : κ) :
    ∃ as bs, (∀ a ∈ as, key a < k) ∧ (∀ b ∈ bs, k < key b) ∧
      (l = as ++ bs ∨ ∃ c, key c = k ∧ l = as ++ c :: bs) := by
  induction l with
  | nil => exact ⟨[], [], by simp, by simp, Or.inl rfl⟩
  | cons a l ih =>
    obtain ⟨ha, hl⟩ := List.pairwise_cons.mp h
    rcases lt_trichotomy (key a) k with hlt | heq | hgt
    · obtain ⟨as, bs, has, hbs, hor⟩ := ih hl
      refine ⟨a :: as, bs, List.forall_mem_cons.mpr ⟨hlt, has⟩, hbs, ?_⟩
      rcases hor with rfl | ⟨c, hc, rfl⟩
      · exact Or.inl rfl
      · exact Or.inr ⟨c, hc, rfl⟩
    · refine ⟨[], l, by simp, fun b hb => ?_, Or.inr ⟨a, heq, rfl⟩⟩
      rw [← heq]
      exact ha b hb
    · refine ⟨[], a :: l, by simp, ?_, Or.inl rfl⟩
      exact List.forall_mem_cons.mpr ⟨hgt, fun b hb => hgt.trans (ha b hb)⟩

/-- In a sorted list the items up to a key come first. -/
theorem filter_le (h : l.Pairwise fun a b => key a ≤ key b) (k : κ) :
    l.filter (fun a => key a ≤ k) = l.takeWhile fun a => key a ≤ k := by
  induction l with
  | nil => rfl
  | cons a l ih =>
    obtain ⟨ha, hl⟩ := List.pairwise_cons.mp h
    by_cases hk : key a ≤ k
    · rw [List.filter_cons_of_pos (by simpa using hk),
        List.takeWhile_cons_of_pos (by simpa using hk), ih hl]
    · rw [List.takeWhile_cons_of_neg (by simpa using hk), List.filter_eq_nil_iff]
      intro b hb
      rw [decide_eq_true_iff, not_le]
      rcases List.mem_cons.mp hb with rfl | hb
      · exact not_le.mp hk
      · exact (not_le.mp hk).trans_le (ha b hb)

/-- In a list of different keys, the first item that satisfies a test is the only one that
does. -/
theorem find?_of_unique {p : α → Bool} (hx : x ∈ l) (hp : p x = true)
    (hunique : ∀ y ∈ l, p y = true → y = x) : l.find? p = some x := by
  cases hfind : l.find? p with
  | none => exact absurd hp (List.find?_eq_none.mp hfind x hx)
  | some y => rw [hunique y (List.mem_of_find?_eq_some hfind) (List.find?_some hfind)]

/-- An item comes behind as many items as have a smaller key. -/
theorem countP_lt (h : (as ++ x :: bs).Pairwise fun a b => key a < key b) :
    (as ++ x :: bs).countP (fun a => key a < key x) = as.length := by
  obtain ⟨-, hx, has⟩ := List.pairwise_append.mp h
  have hahead : as.countP (fun a => key a < key x) = as.length :=
    List.countP_eq_length.mpr fun a ha => decide_eq_true (has a ha x List.mem_cons_self)
  have hbehind : (x :: bs).countP (fun a => key a < key x) = 0 := by
    rw [List.countP_eq_zero]
    intro b hb
    rw [decide_eq_true_iff, not_lt]
    rcases List.mem_cons.mp hb with rfl | hb
    · exact le_rfl
    · exact (List.rel_of_pairwise_cons hx hb).le
  rw [List.countP_append, hahead, hbehind, Nat.add_zero]

/-! ## Places -/

/-- Two items keep their order in every part of a list that has both. -/
theorem pair_sublist {x y : α} (hsub : l'.Sublist l) (hnd : l.Nodup)
    (hxy : [x, y].Sublist l) (hx : x ∈ l') (hy : y ∈ l') : [x, y].Sublist l' := by
  induction hsub with
  | slnil => exact absurd hx List.not_mem_nil
  | cons a hsub ih =>
    obtain ⟨ha, hnd⟩ := List.nodup_cons.mp hnd
    cases hxy with
    | cons _ hxy => exact ih hnd hxy hx hy
    | cons_cons _ _ => exact absurd (hsub.subset hx) ha
  | @cons_cons part whole a hsub ih =>
    obtain ⟨ha, hnd⟩ := List.nodup_cons.mp hnd
    have hbehind : ∀ z, z ∈ whole → z ∈ a :: part → z ∈ part := fun z hz hz' =>
      (List.mem_cons.mp hz').resolve_left fun heq => ha (heq ▸ hz)
    cases hxy with
    | cons _ hxy =>
      have hx' := hbehind x (hxy.subset List.mem_cons_self) hx
      have hy' := hbehind y (hxy.subset (List.mem_cons_of_mem _ List.mem_cons_self)) hy
      exact (ih hnd hxy hx' hy').cons a
    | cons_cons _ hlast =>
      have hy' := hbehind y (List.singleton_sublist.mp hlast) hy
      exact (List.singleton_sublist.mpr hy').cons_cons x

/-- What is ahead of an item in the front part of a list is in the front part. -/
theorem mem_front_of_ahead {x y : α} (hnd : (as ++ bs).Nodup) (hxy : [x, y].Sublist (as ++ bs))
    (hy : y ∈ as) : x ∈ as := by
  induction as with
  | nil => exact absurd hy List.not_mem_nil
  | cons a as ih =>
    rw [List.cons_append, List.nodup_cons] at hnd
    rw [List.cons_append] at hxy
    cases hxy with
    | cons _ hxy =>
      have hy' : y ∈ as ++ bs := hxy.subset (List.mem_cons_of_mem _ List.mem_cons_self)
      have hya : y ∈ as := (List.mem_cons.mp hy).resolve_left fun heq => hnd.1 (heq ▸ hy')
      exact List.mem_cons_of_mem _ (ih hnd.2 hxy hya)
    | cons_cons _ _ => exact List.mem_cons_self

/-! ## Sorting -/

/-- A list in strict priority order is what sorting makes of it in any order. -/
theorem mergeSort_eq (hp : l.Perm l') (hs : l'.Pairwise fun a b => key a < key b) :
    l.mergeSort (fun a b => decide (key a ≤ key b)) = l' := by
  have hsorted : (l.mergeSort fun a b => decide (key a ≤ key b)).Pairwise
      fun a b => decide (key a ≤ key b) = true :=
    List.pairwise_mergeSort (fun a b c => by simpa using le_trans)
      (fun a b => by simpa using le_total (key a) (key b)) l
  have hs' : l'.Pairwise fun a b => decide (key a ≤ key b) = true :=
    hs.imp fun h => decide_eq_true h.le
  -- items with one key are one item
  have hkeys : (l'.map key).Nodup := List.pairwise_map.mpr (hs.imp fun h => h.ne)
  have hperm := (List.mergeSort_perm l fun a b => decide (key a ≤ key b)).trans hp
  refine hperm.eq_of_pairwise (fun a b ha hb hab hba => ?_) hsorted hs'
  rw [decide_eq_true_iff] at hab hba
  exact List.inj_on_of_nodup_map hkeys (hperm.mem_iff.mp ha) hb (le_antisymm hab hba)

end PriorityList
