import Mathlib.Tactic.Common
import Mathlib.Algebra.BigOperators.Group.List.Basic
import Mathlib.Algebra.Ring.Nat
import Mathlib.Data.List.TakeWhile

/-!
# Greedy consumption of a queue

A queue of items, each with an `amount`, is consumed from the front by a demand `q`. An item
whose amount the demand covers leaves the queue; the last one touched may stay, reduced.

* `takes` and `leaves` say what a demand takes and what it leaves behind.
* `sweep` is the loop that does both, with two ways to stop early: at the first item out of
  reach, and at the first item that is `barred`.
* `sweep_eq` is the link: the loop takes greedily from the items in reach and in front of the
  first barred one, and from no other.
* `queue_eq_filterMap` says the same of each item, if items can be told apart.
-/

namespace Greedy

variable {α : Type*} (amount : α → ℕ) (reduce : α → ℕ → α)

/-- What the items hold together. -/
def total (l : List α) : ℕ := (l.map amount).sum

/-- The items a demand takes from, in order, each with the quantity taken. -/
def takes : ℕ → List α → List (α × ℕ)
  | _, [] => []
  | q, a :: as => if q = 0 then [] else (a, min q (amount a)) :: takes (q - amount a) as

/-- The queue that a demand leaves. -/
def leaves : ℕ → List α → List α
  | _, [] => []
  | q, a :: as =>
    if q = 0 then a :: as
    else if amount a ≤ q then leaves (q - amount a) as
    else reduce a q :: as

/-- What a sweep did: the items it took from, what is left of the queue and of the demand,
and whether a barred item stopped it. -/
structure Outcome (α : Type*) where
  taken : List (α × ℕ)
  queue : List α
  unmet : ℕ
  stopped : Bool

/-- The loop: take from the front until the demand is met, the queue is empty, or the next
item is out of reach or barred. -/
def sweep (reach barred : α → Bool) : ℕ → List α → Outcome α
  | q, [] => ⟨[], [], q, false⟩
  | q, a :: as =>
    if q = 0 ∨ reach a = false then ⟨[], a :: as, q, false⟩
    else if barred a then ⟨[], a :: as, q, true⟩
    else if amount a ≤ q then
      let r := sweep reach barred (q - amount a) as
      { r with taken := (a, amount a) :: r.taken }
    else ⟨[(a, q)], reduce a q :: as, 0, false⟩

/-- The items a sweep may take from. -/
def eligible (reach barred : α → Bool) (l : List α) : List α :=
  (l.takeWhile reach).takeWhile fun a => !barred a

variable {amount reduce} {reach barred : α → Bool} {q : ℕ} {a : α} {l l' : List α}

@[simp] theorem total_nil : total amount [] = 0 := rfl

@[simp] theorem total_cons : total amount (a :: l) = amount a + total amount l := by
  simp [total]

@[simp] theorem total_append : total amount (l ++ l') = total amount l + total amount l' := by
  simp [total]

/-! ## What is taken and what is left -/

@[simp] theorem takes_zero : takes amount 0 l = [] := by
  cases l with
  | nil => rfl
  | cons a l => rw [takes, if_pos rfl]

@[simp] theorem leaves_zero : leaves amount reduce 0 l = l := by
  cases l with
  | nil => rfl
  | cons a l => rw [leaves, if_pos rfl]

/-- A demand takes as much as it can. -/
theorem sum_takes : ((takes amount q l).map Prod.snd).sum = min q (total amount l) := by
  induction l generalizing q with
  | nil => simp [takes]
  | cons a l ih =>
    rw [takes, total_cons]
    by_cases hq : q = 0
    · simp [hq]
    · rw [if_neg hq, List.map_cons, List.sum_cons, ih]
      omega

/-- What is taken from an item is positive and at most what the item holds. -/
theorem takes_le (hpos : ∀ b ∈ l, 0 < amount b) :
    ∀ t ∈ takes amount q l, t.1 ∈ l ∧ 0 < t.2 ∧ t.2 ≤ amount t.1 := by
  induction l generalizing q with
  | nil => exact fun t ht => absurd ht List.not_mem_nil
  | cons b l ih =>
    obtain ⟨hb, hl⟩ := List.forall_mem_cons.mp hpos
    intro t ht
    rw [takes] at ht
    split at ht
    · exact absurd ht List.not_mem_nil
    · next hq =>
      rcases List.mem_cons.mp ht with rfl | ht
      · exact ⟨List.mem_cons_self, by dsimp only; omega, by dsimp only; omega⟩
      · obtain ⟨hmem, hrest⟩ := ih hl t ht
        exact ⟨List.mem_cons_of_mem _ hmem, hrest⟩

/-- What is left is a reduced first item, possibly, and a suffix of the queue. -/
theorem mem_leaves {b : α} (hb : b ∈ leaves amount reduce q l) :
    b ∈ l ∨ ∃ a ∈ l, ∃ n, 0 < n ∧ n < amount a ∧ b = reduce a n := by
  induction l generalizing q with
  | nil => exact absurd hb List.not_mem_nil
  | cons a l ih =>
    rw [leaves] at hb
    split_ifs at hb with hq ha
    · exact Or.inl hb
    · refine (ih hb).imp (List.mem_cons_of_mem _) ?_
      rintro ⟨c, hc, n, hn⟩
      exact ⟨c, List.mem_cons_of_mem _ hc, n, hn⟩
    · rcases List.mem_cons.mp hb with rfl | hb
      · exact Or.inr ⟨a, List.mem_cons_self, q, by omega, by omega, rfl⟩
      · exact Or.inl (List.mem_cons_of_mem _ hb)

/-- Whatever reducing an item does not change, a demand leaves a sublist of it. -/
theorem map_leaves_sublist {β : Type*} (f : α → β) (hf : ∀ a n, f (reduce a n) = f a) :
    ((leaves amount reduce q l).map f).Sublist (l.map f) := by
  induction l generalizing q with
  | nil => exact List.Sublist.refl _
  | cons a l ih =>
    rw [leaves]
    split_ifs
    · exact List.Sublist.refl _
    · rw [List.map_cons]
      exact ih.trans (List.sublist_cons_self _ _)
    · rw [List.map_cons, List.map_cons, hf]

/-! ## The sweep -/

/-- What is eligible is the front of the queue. -/
theorem eligible_isPrefix : eligible reach barred l <+: l :=
  (List.takeWhile_prefix _).trans (List.takeWhile_prefix _)

/-- Nothing in front of the items that follow stops a sweep. -/
theorem eligible_append_of_clear (h : ∀ b ∈ l, reach b = true ∧ barred b = false) :
    eligible reach barred (l ++ l') = l ++ eligible reach barred l' := by
  rw [eligible, List.takeWhile_append_of_pos fun b hb => (h b hb).1,
    List.takeWhile_append_of_pos fun b hb => by rw [(h b hb).2]; rfl]
  rfl

/-- A barred item within reach hides everything behind it. -/
theorem eligible_append_of_barred (hreach : ∀ b ∈ l, reach b = true)
    (hb : ∃ b ∈ l, barred b = true) :
    eligible reach barred (l ++ l') = l.takeWhile fun b => !barred b := by
  rw [eligible, List.takeWhile_append_of_pos hreach]
  obtain ⟨b, hb, hbb⟩ := hb
  obtain ⟨as, bs, rfl⟩ := List.append_of_mem hb
  clear hreach hb
  induction as with
  | nil => simp [hbb]
  | cons a as ih =>
    rw [List.cons_append, List.cons_append, List.takeWhile_cons, List.takeWhile_cons, ih]

theorem eligible_cons_of_not_reach (h : reach a = false) : eligible reach barred (a :: l) = [] := by
  rw [eligible, List.takeWhile_cons_of_neg (by simp [h]), List.takeWhile_nil]

/-- The queue is its eligible part and the rest. -/
theorem eligible_append_drop :
    eligible reach barred l ++ l.drop (eligible reach barred l).length = l :=
  List.prefix_iff_eq_append.mp eligible_isPrefix

/-- A met demand takes nothing. -/
theorem sweep_zero : sweep amount reduce reach barred 0 l = ⟨[], l, 0, false⟩ := by
  cases l with
  | nil => rfl
  | cons a l => rw [sweep, if_pos (Or.inl rfl)]

/-- An order out of reach ends the sweep. -/
theorem sweep_cons_out (hr : reach a = false) :
    sweep amount reduce reach barred q (a :: l) = ⟨[], a :: l, q, false⟩ := by
  rw [sweep, if_pos (Or.inr hr)]

/-- A barred order stops the sweep, which is told. -/
theorem sweep_cons_barred (hq : q ≠ 0) (hr : reach a = true) (hb : barred a = true) :
    sweep amount reduce reach barred q (a :: l) = ⟨[], a :: l, q, true⟩ := by
  rw [sweep, if_neg (by simp [hq, hr]), if_pos hb]

/-- An order that is wanted as a whole is taken as a whole, and the sweep goes on. -/
theorem sweep_cons_full (hq : q ≠ 0) (hr : reach a = true) (hb : barred a = false)
    (hle : amount a ≤ q) :
    sweep amount reduce reach barred q (a :: l) =
      { sweep amount reduce reach barred (q - amount a) l with
        taken :=
          [(a, amount a)] ++ (sweep amount reduce reach barred (q - amount a) l).taken } := by
  rw [sweep, if_neg (by simp [hq, hr]), if_neg (by simp [hb]), if_pos hle]
  rfl

/-- An order that is larger than what is wanted is reduced, and the sweep is done. -/
theorem sweep_cons_part (hq : q ≠ 0) (hr : reach a = true) (hb : barred a = false)
    (hlt : q < amount a) :
    sweep amount reduce reach barred q (a :: l) = ⟨[(a, q)], reduce a q :: l, 0, false⟩ := by
  rw [sweep, if_neg (by simp [hq, hr]), if_neg (by simp [hb]), if_neg (by omega)]

/-- A sweep that takes nothing was stopped by the first item, if by anything. -/
theorem sweep_cons_idle (h : (sweep amount reduce reach barred q (a :: l)).taken = []) :
    q = 0 ∨ reach a = false ∨ barred a = true := by
  rw [sweep] at h
  split_ifs at h with hout hb hle
  · exact hout.imp_right Or.inl
  · exact Or.inr (Or.inr hb)

/-- A sweep with a first item in reach takes something or is stopped. -/
theorem sweep_cons_meets (hq : q ≠ 0) (hr : reach a = true) :
    (sweep amount reduce reach barred q (a :: l)).taken ≠ [] ∨
      (sweep amount reduce reach barred q (a :: l)).stopped = true := by
  by_cases htaken : (sweep amount reduce reach barred q (a :: l)).taken = []
  · have hidle := sweep_cons_idle htaken
    rw [hr, or_iff_right hq, or_iff_right (by decide)] at hidle
    rw [sweep_cons_barred hq hr hidle]
    exact Or.inr rfl
  · exact Or.inl htaken

/-- **The sweep is greedy**: it takes from the eligible items only, as much as it can, and is
stopped by a barred item exactly if that is the next one in reach with demand left. -/
theorem sweep_eq :
    sweep amount reduce reach barred q l =
      { taken := takes amount q (eligible reach barred l)
        queue := leaves amount reduce q (eligible reach barred l)
          ++ l.drop (eligible reach barred l).length
        unmet := q - total amount (eligible reach barred l)
        stopped := decide (total amount (eligible reach barred l) < q ∧
          (eligible reach barred l).length < (l.takeWhile reach).length) } := by
  induction l generalizing q with
  | nil => simp [sweep, eligible, takes, leaves]
  | cons a l ih =>
    by_cases hq : q = 0
    · rw [hq, sweep_zero]
      simp [eligible_append_drop]
    · rw [sweep]
      by_cases hr : reach a = true
      · by_cases hb : barred a = true
        · have hel : eligible reach barred (a :: l) = [] := by simp [eligible, hr, hb]
          simp [hel, hq, hr, hb, takes, leaves]
          omega
        · have hel : eligible reach barred (a :: l) = a :: eligible reach barred l := by
            simp [eligible, hr, hb]
          rw [hel, if_neg (by simp [hq, hr]), if_neg hb, takes, leaves, if_neg hq, if_neg hq]
          by_cases hle : amount a ≤ q
          · simp only [hle, if_true, ih, total_cons, List.takeWhile_cons_of_pos hr,
              List.length_cons, List.drop_succ_cons, Outcome.mk.injEq, true_and]
            refine ⟨by rw [Nat.min_eq_right hle], by omega, ?_⟩
            rw [decide_eq_decide]
            omega
          · -- the demand ends inside this item
            have h0 : q - amount a = 0 := by omega
            simp only [hle, if_false, h0, takes_zero, total_cons, List.length_cons,
              List.drop_succ_cons, List.cons_append, eligible_append_drop, Outcome.mk.injEq,
              true_and]
            refine ⟨by rw [Nat.min_eq_left (by omega)], by omega, ?_⟩
            rw [eq_comm, decide_eq_false_iff_not]
            omega
      · have hel : eligible reach barred (a :: l) = [] := by simp [eligible, hr]
        simp [hel, hq, hr, takes, leaves]

/-- A sweep that consumes a whole queue goes on with the next one. -/
theorem sweep_append_of_empty (h : (sweep amount reduce reach barred q l).queue = []) :
    sweep amount reduce reach barred q (l ++ l') =
      { sweep amount reduce reach barred
          (sweep amount reduce reach barred q l).unmet l' with
        taken := (sweep amount reduce reach barred q l).taken ++
          (sweep amount reduce reach barred
            (sweep amount reduce reach barred q l).unmet l').taken } := by
  induction l generalizing q with
  | nil => rfl
  | cons a l ih =>
    rw [List.cons_append, sweep, sweep] at *
    split_ifs at * with h1 h2 h3
    rw [ih h]
    rfl

/-- A sweep that leaves something of a queue within reach does not get to the next one. -/
theorem sweep_append_of_ne (hreach : ∀ b ∈ l, reach b = true)
    (h : (sweep amount reduce reach barred q l).queue ≠ []) :
    sweep amount reduce reach barred q (l ++ l') =
      { sweep amount reduce reach barred q l with
        queue := (sweep amount reduce reach barred q l).queue ++ l' } := by
  induction l generalizing q with
  | nil => exact absurd rfl h
  | cons a l ih =>
    obtain ⟨-, hl⟩ := List.forall_mem_cons.mp hreach
    rw [List.cons_append, sweep, sweep] at *
    split_ifs at * with h1 h2 h3
    · rfl
    · rfl
    · rw [ih hl h]
    · rfl

/-- Whatever reducing an item does not change, a sweep leaves a sublist of it. -/
theorem map_queue_sublist {β : Type*} (f : α → β) (hf : ∀ a n, f (reduce a n) = f a) :
    ((sweep amount reduce reach barred q l).queue.map f).Sublist (l.map f) := by
  have hsplit : l.map f = (eligible reach barred l).map f
      ++ (l.drop (eligible reach barred l).length).map f := by
    rw [← List.map_append, eligible_append_drop]
  rw [sweep_eq, List.map_append, hsplit]
  exact List.Sublist.append (map_leaves_sublist f hf) (List.Sublist.refl _)

/-- A sweep that ends with demand left and was not stopped has seen everything in reach. -/
theorem queue_of_unmet (hu : 0 < (sweep amount reduce reach barred q l).unmet)
    (hs : (sweep amount reduce reach barred q l).stopped = false) :
    (sweep amount reduce reach barred q l).queue = l.dropWhile reach := by
  induction l generalizing q with
  | nil => rfl
  | cons a l ih =>
    rw [sweep] at *
    split_ifs at * with h1 h2 h3
    · have hr : reach a = false := h1.resolve_left fun h => by
        rw [h] at hu
        exact absurd hu (Nat.lt_irrefl 0)
      rw [List.dropWhile_cons_of_neg (by simp [hr])]
    · have hr : reach a = true := by
        rw [not_or, Bool.not_eq_false] at h1
        exact h1.2
      rw [List.dropWhile_cons_of_pos hr]
      exact ih hu hs
    · exact absurd hu (Nat.lt_irrefl 0)

/-- **The shape of a sweep**: it takes the items in front as a whole, and may take a part of
the next one, which meets the demand. -/
theorem sweep_shape : ∃ front back, l = front ++ back ∧
    ((sweep amount reduce reach barred q l).taken = front.map (fun a => (a, amount a)) ∧
        (sweep amount reduce reach barred q l).queue = back ∨
      ∃ a behind n, back = a :: behind ∧ (sweep amount reduce reach barred q l).unmet = 0 ∧
        (sweep amount reduce reach barred q l).taken =
          front.map (fun a => (a, amount a)) ++ [(a, n)] ∧
        (sweep amount reduce reach barred q l).queue = reduce a n :: behind) := by
  induction l generalizing q with
  | nil => exact ⟨[], [], rfl, Or.inl ⟨rfl, rfl⟩⟩
  | cons a l ih =>
    rw [sweep]
    split_ifs with h1 h2 h3
    · exact ⟨[], a :: l, rfl, Or.inl ⟨rfl, rfl⟩⟩
    · exact ⟨[], a :: l, rfl, Or.inl ⟨rfl, rfl⟩⟩
    · -- the item is taken as a whole, and the sweep goes on
      obtain ⟨front, back, hl, hcase⟩ := @ih (q - amount a)
      refine ⟨a :: front, back, by rw [hl, List.cons_append], hcase.imp ?_ ?_⟩
      · intro hwhole
        exact ⟨congrArg _ hwhole.1, hwhole.2⟩
      · intro hpart
        obtain ⟨a', behind, n, hback, hmet, htaken, hqueue⟩ := hpart
        exact ⟨a', behind, n, hback, hmet, congrArg _ htaken, hqueue⟩
    · exact ⟨[], a :: l, rfl, Or.inr ⟨a, l, q, rfl, rfl, rfl, rfl⟩⟩

/-- Every item a sweep takes from leaves the queue, but for one at most, which ends it. -/
theorem length_sweep :
    (sweep amount reduce reach barred q l).taken.length +
        (sweep amount reduce reach barred q l).queue.length ≤ l.length + 1 ∧
      (0 < (sweep amount reduce reach barred q l).unmet →
        (sweep amount reduce reach barred q l).taken.length +
          (sweep amount reduce reach barred q l).queue.length = l.length) := by
  obtain ⟨front, back, hl, hcase⟩ := @sweep_shape _ amount reduce reach barred q l
  have hlen : l.length = front.length + back.length := by
    rw [hl, List.length_append]
  rcases hcase with hwhole | hpart
  · have htaken : (sweep amount reduce reach barred q l).taken.length = front.length := by
      rw [hwhole.1, List.length_map]
    rw [hwhole.2]
    omega
  · obtain ⟨a, behind, n, hback, hmet, htaken, hqueue⟩ := hpart
    have htaken' : (sweep amount reduce reach barred q l).taken.length = front.length + 1 := by
      rw [htaken, List.length_append, List.length_map, List.length_singleton]
    have hqueue' : (sweep amount reduce reach barred q l).queue.length = back.length := by
      rw [hqueue, hback, List.length_cons, List.length_cons]
    omega

/-- The outcome of a sweep, with every item replaced. -/
def Outcome.map {β : Type*} (f : α → β) (r : Outcome α) : Outcome β :=
  ⟨r.taken.map fun t => (f t.1, t.2), r.queue.map f, r.unmet, r.stopped⟩

/-- **Sweeping is natural**: it sees of the items their amounts, whether they are in reach and
whether they are barred, and nothing else. -/
theorem sweep_map {β : Type*} {f : α → β} {measure : β → ℕ} {cut : β → ℕ → β}
    {near shut : β → Bool} (hamount : ∀ a, measure (f a) = amount a)
    (hreduce : ∀ a n, cut (f a) n = f (reduce a n)) (hreach : ∀ a, near (f a) = reach a)
    (hbarred : ∀ a, shut (f a) = barred a) :
    sweep measure cut near shut q (l.map f) = (sweep amount reduce reach barred q l).map f := by
  induction l generalizing q with
  | nil => rfl
  | cons a l ih =>
    rw [List.map_cons, sweep, sweep, hreach, hbarred, hamount]
    split_ifs
    · rfl
    · rfl
    · rw [ih]
      rfl
    · rw [hreduce]
      rfl

/-- A sweep that a barred item stopped leaves that item. -/
theorem ne_nil_of_stopped (h : (sweep amount reduce reach barred q l).stopped = true) :
    (sweep amount reduce reach barred q l).queue ≠ [] := by
  induction l generalizing q with
  | nil => cases h
  | cons a l ih =>
    rw [sweep] at *
    split_ifs at * with h1 h2 h3
    · exact List.cons_ne_nil _ _
    · exact ih h

/-! ## The next item -/

/-- A demand that is not met takes from every item. -/
theorem length_takes (h : total amount l < q) : (takes amount q l).length = l.length := by
  induction l generalizing q with
  | nil => rfl
  | cons a l ih =>
    rw [total_cons] at h
    rw [takes, if_neg (by omega), List.length_cons, List.length_cons, ih (by omega)]

/-- An item within reach behind the eligible ones is barred. -/
theorem barred_of_lt : (eligible reach barred l).length < (l.takeWhile reach).length ↔
    ∃ a, (l.takeWhile reach)[(eligible reach barred l).length]? = some a ∧ barred a = true := by
  unfold eligible
  generalize l.takeWhile reach = m
  induction m with
  | nil => simp
  | cons a m ih =>
    cases hb : barred a with
    | true => simp [hb]
    | false => simpa [hb] using ih

/-- A sweep is stopped exactly if demand is left over and the next item in reach is barred. -/
theorem stopped_iff :
    (sweep amount reduce reach barred q l).stopped = true ↔
      ((sweep amount reduce reach barred q l).taken.map Prod.snd).sum < q ∧
        ∃ a, (l.takeWhile reach)[(sweep amount reduce reach barred q l).taken.length]? = some a ∧
          barred a = true := by
  rw [sweep_eq]
  simp only [decide_eq_true_eq, sum_takes]
  constructor
  · intro h
    obtain ⟨hlt, hnext⟩ := h
    refine ⟨by omega, ?_⟩
    rw [length_takes hlt]
    exact barred_of_lt.mp hnext
  · intro h
    obtain ⟨hsum, hnext⟩ := h
    have hlt : total amount (eligible reach barred l) < q := by omega
    rw [length_takes hlt] at hnext
    exact ⟨hlt, barred_of_lt.mpr hnext⟩

/-! ## Item by item -/

section Keys

variable {κ : Type*} [DecidableEq κ] {key : α → κ} {taken : List (α × ℕ)} {n : ℕ} {k : κ}

/-- What was taken from the items of one key. -/
def takenFrom (key : α → κ) (taken : List (α × ℕ)) (k : κ) : ℕ :=
  ((taken.filter fun t => key t.1 = k).map Prod.snd).sum

theorem takenFrom_nil : takenFrom key [] k = 0 := rfl

theorem takenFrom_cons_self :
    takenFrom key ((a, n) :: taken) (key a) = n + takenFrom key taken (key a) := by
  rw [takenFrom, List.filter_cons_of_pos (by simp), List.map_cons, List.sum_cons]
  rfl

theorem takenFrom_cons_of_ne (h : key a ≠ k) :
    takenFrom key ((a, n) :: taken) k = takenFrom key taken k := by
  rw [takenFrom, List.filter_cons_of_neg (by simpa using h)]
  rfl

/-- A key that nothing was taken of. -/
theorem takenFrom_of_absent (h : ∀ t ∈ taken, key t.1 ≠ k) : takenFrom key taken k = 0 := by
  rw [takenFrom, List.filter_eq_nil_iff.mpr fun t ht => by simpa using h t ht]
  rfl

/-- A sweep takes from items of the queue only. -/
theorem mem_of_mem_taken (hpos : ∀ b ∈ l, 0 < amount b) :
    ∀ t ∈ (sweep amount reduce reach barred q l).taken, t.1 ∈ l ∧ t.2 ≤ amount t.1 := by
  intro t ht
  rw [sweep_eq] at ht
  have h := takes_le (fun b hb => hpos b (eligible_isPrefix.subset hb)) t ht
  exact ⟨eligible_isPrefix.subset h.1, h.2.2⟩

/-- A sweep takes from items that are within reach and not barred. -/
theorem clear_of_taken (hpos : ∀ b ∈ l, 0 < amount b) :
    ∀ t ∈ (sweep amount reduce reach barred q l).taken, reach t.1 = true ∧ barred t.1 = false := by
  intro t ht
  rw [sweep_eq] at ht
  have hmem := (takes_le (fun b hb => hpos b (eligible_isPrefix.subset hb)) t ht).1
  have hreach := (List.takeWhile_prefix _).subset hmem
  have hclear := List.mem_takeWhile_imp hmem
  rw [Bool.not_eq_true'] at hclear
  exact ⟨List.mem_takeWhile_imp hreach, hclear⟩

/-- Every take is of something, if every order holds something. -/
theorem taken_pos (hpos : ∀ b ∈ l, 0 < amount b) :
    ∀ t ∈ (sweep amount reduce reach barred q l).taken, 0 < t.2 := by
  intro t ht
  rw [sweep_eq] at ht
  exact (takes_le (fun b hb => hpos b (eligible_isPrefix.subset hb)) t ht).2.1

/-- No item gives more than it holds. -/
theorem takenFrom_le (hkeys : (l.map key).Nodup) (hpos : ∀ b ∈ l, 0 < amount b) {b : α}
    (hb : b ∈ l) :
    takenFrom key (sweep amount reduce reach barred q l).taken (key b) ≤ amount b := by
  induction l generalizing q with
  | nil => exact absurd hb List.not_mem_nil
  | cons a l ih =>
    obtain ⟨-, hl⟩ := List.forall_mem_cons.mp hpos
    rw [List.map_cons, List.nodup_cons] at hkeys
    have hfront : takenFrom key [] (key b) ≤ amount b := Nat.zero_le _
    by_cases he : key a = key b
    · -- the item in front is the only one with its key
      have hba : b = a := by
        apply (List.mem_cons.mp hb).resolve_right
        intro hmem
        exact hkeys.1 (he ▸ List.mem_map_of_mem hmem)
      subst hba
      have hrest : takenFrom key (sweep amount reduce reach barred (q - amount b) l).taken (key b)
          = 0 := by
        apply takenFrom_of_absent
        intro t ht hkey
        exact hkeys.1 (hkey ▸ List.mem_map_of_mem (mem_of_mem_taken hl t ht).1)
      rw [sweep]
      split_ifs with h1 h2 h3
      · exact hfront
      · exact hfront
      · rw [takenFrom_cons_self, hrest]
        exact Nat.le_refl _
      · rw [takenFrom_cons_self, takenFrom_nil, Nat.add_zero]
        exact Nat.le_of_lt (Nat.not_le.mp h3)
    · have hb : b ∈ l := (List.mem_cons.mp hb).resolve_left fun hba => he (by rw [hba])
      rw [sweep]
      split_ifs with h1 h2 h3
      · exact hfront
      · exact hfront
      · rw [takenFrom_cons_of_ne he]
        exact ih hkeys.2 hl hb
      · rw [takenFrom_cons_of_ne he]
        exact hfront

/-- **The queue, item by item**: what was taken from an item is gone from it, and an item
that was taken as a whole is gone. -/
theorem queue_eq_filterMap (hkeys : (l.map key).Nodup) (hpos : ∀ b ∈ l, 0 < amount b)
    (hzero : ∀ b, reduce b 0 = b) :
    (sweep amount reduce reach barred q l).queue = l.filterMap fun b =>
      if takenFrom key (sweep amount reduce reach barred q l).taken (key b) = amount b then none
      else
        some (reduce b (takenFrom key (sweep amount reduce reach barred q l).taken (key b))) := by
  -- an item nothing was taken from stays as it is
  have hkeep : ∀ (m : List α) (taken : List (α × ℕ)), (∀ b ∈ m, 0 < amount b) →
      (∀ b ∈ m, takenFrom key taken (key b) = 0) →
      m = m.filterMap fun b => if takenFrom key taken (key b) = amount b then none
        else some (reduce b (takenFrom key taken (key b))) := by
    intro m taken hm hnone
    have hid : m.filterMap some = m := List.filterMap_some
    conv_lhs => rw [← hid]
    refine List.filterMap_congr fun b hb => ?_
    rw [hnone b hb, if_neg (Nat.ne_of_lt (hm b hb)), hzero]
  induction l generalizing q with
  | nil => rfl
  | cons a l ih =>
    obtain ⟨ha, hl⟩ := List.forall_mem_cons.mp hpos
    rw [List.map_cons, List.nodup_cons] at hkeys
    obtain ⟨hnot, hkeys⟩ := hkeys
    have hne : ∀ b ∈ l, key a ≠ key b := fun b hb e => hnot (e ▸ List.mem_map_of_mem hb)
    rw [sweep]
    split_ifs with h1 h2 h3
    · exact hkeep _ _ hpos fun b _ => takenFrom_nil
    · exact hkeep _ _ hpos fun b _ => takenFrom_nil
    · -- the item is taken as a whole
      have hzero' : takenFrom key (sweep amount reduce reach barred (q - amount a) l).taken (key a)
          = 0 := takenFrom_of_absent fun t ht => (hne t.1 (mem_of_mem_taken hl t ht).1).symm
      rw [List.filterMap_cons_none (by rw [takenFrom_cons_self, hzero', if_pos (Nat.add_zero _)]),
        ih hkeys hl]
      refine List.filterMap_congr fun b hb => ?_
      rw [takenFrom_cons_of_ne (hne b hb)]
    · -- the demand ends inside the item
      have hself : takenFrom key [(a, q)] (key a) = q := by
        rw [takenFrom_cons_self, takenFrom_nil, Nat.add_zero]
      have hlt : q ≠ amount a := by omega
      simp only [List.filterMap_cons, hself, hlt, if_false]
      congr 1
      exact hkeep l _ hl fun b hb => by rw [takenFrom_cons_of_ne (hne b hb), takenFrom_nil]

end Keys

/-- No more is missing than was wanted. -/
theorem unmet_le : (sweep amount reduce reach barred q l).unmet ≤ q := by
  rw [sweep_eq]
  exact Nat.sub_le _ _

/-- If a sweep leaves something of a queue within reach and was not stopped, its demand is
met. -/
theorem unmet_of_ne (hreach : ∀ b ∈ l, reach b = true)
    (h : (sweep amount reduce reach barred q l).queue ≠ [])
    (hs : (sweep amount reduce reach barred q l).stopped = false) :
    (sweep amount reduce reach barred q l).unmet = 0 := by
  induction l generalizing q with
  | nil => exact absurd rfl h
  | cons a l ih =>
    obtain ⟨ha, hl⟩ := List.forall_mem_cons.mp hreach
    rw [sweep] at *
    split_ifs at * with h1 h2 h3
    · simpa [ha] using h1
    · exact ih hl h hs
    · rfl

end Greedy
