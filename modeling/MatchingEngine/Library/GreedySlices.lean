import MatchingEngine.Library.Greedy

/-!
# A demand in slices

If an item that was reduced is as good as one that held less from the start (`Divides`), a demand
of two parts does what the parts do one after the other (`sweep_add`): the same queue is left,
and each item gives the same.
-/

namespace Greedy

variable {α κ : Type*} [DecidableEq κ] {amount : α → ℕ} {reduce : α → ℕ → α}
  {reach barred : α → Bool} {key : α → κ} {a : α} {l : List α} {q₁ q₂ : ℕ}

/-- Reducing an item leaves a smaller item of the same kind. -/
structure Divides (amount : α → ℕ) (reduce : α → ℕ → α) (reach barred : α → Bool) (key : α → κ) :
    Prop where
  amount_reduce : ∀ a n, n ≤ amount a → amount (reduce a n) = amount a - n
  reduce_reduce : ∀ a n m, reduce (reduce a n) m = reduce a (n + m)
  reach_reduce : ∀ a n, reach (reduce a n) = reach a
  barred_reduce : ∀ a n, barred (reduce a n) = barred a
  key_reduce : ∀ a n, key (reduce a n) = key a

/-- One sweep did what two did one after the other. -/
structure Joins (key : α → κ) (r r₁ r₂ : Outcome α) : Prop where
  queue : r.queue = r₂.queue
  unmet : r.unmet = r₁.unmet + r₂.unmet
  stopped : r.stopped = r₂.stopped
  taken : ∀ k, takenFrom key r.taken k = takenFrom key r₁.taken k + takenFrom key r₂.taken k

/-- What was taken of a key, one take more. -/
theorem takenFrom_cons (t : α × ℕ) (taken : List (α × ℕ)) (k : κ) :
    takenFrom key (t :: taken) k = (if key t.1 = k then t.2 else 0) + takenFrom key taken k := by
  by_cases h : key t.1 = k
  · rw [if_pos h, ← h]
    exact takenFrom_cons_self
  · rw [if_neg h, Nat.zero_add]
    exact takenFrom_cons_of_ne h

/-- **A demand of two parts** does what the parts do one after the other. -/
theorem sweep_add (h : Divides amount reduce reach barred key) (hq₂ : q₂ ≠ 0) :
    ∀ (l : List α) (q₁ : ℕ), Joins key (sweep amount reduce reach barred (q₁ + q₂) l)
      (sweep amount reduce reach barred q₁ l)
      (sweep amount reduce reach barred q₂ (sweep amount reduce reach barred q₁ l).queue) := by
  intro l
  induction l with
  | nil => exact fun q₁ => ⟨rfl, rfl, rfl, fun _ => rfl⟩
  | cons a l ih =>
    intro q₁
    by_cases hq₁ : q₁ = 0
    · rw [hq₁, sweep_zero, Nat.zero_add]
      exact ⟨rfl, (Nat.zero_add _).symm, rfl, fun _ => (Nat.zero_add _).symm⟩
    have hq : q₁ + q₂ ≠ 0 := by omega
    by_cases hr : reach a = true
    · by_cases hb : barred a = true
      · rw [sweep_cons_barred hq₁ hr hb, sweep_cons_barred hq hr hb, sweep_cons_barred hq₂ hr hb]
        exact ⟨rfl, rfl, rfl, fun _ => rfl⟩
      rw [Bool.not_eq_true] at hb
      by_cases hle : amount a ≤ q₁
      · -- the first part takes all of the item
        have hjoin := ih (q₁ - amount a)
        rw [show q₁ - amount a + q₂ = q₁ + q₂ - amount a by omega] at hjoin
        rw [sweep_cons_full hq₁ hr hb hle, sweep_cons_full hq hr hb (by omega)]
        refine ⟨hjoin.queue, hjoin.unmet, hjoin.stopped, fun k => ?_⟩
        dsimp only
        rw [List.singleton_append, List.singleton_append, takenFrom_cons, takenFrom_cons,
          hjoin.taken k, Nat.add_assoc]
      · -- the first part ends inside the item, and the second goes on with the rest of it
        have hrest : amount (reduce a q₁) = amount a - q₁ := h.amount_reduce a q₁ (by omega)
        have hr' : reach (reduce a q₁) = true := (h.reach_reduce a q₁).trans hr
        have hb' : barred (reduce a q₁) = false := (h.barred_reduce a q₁).trans hb
        rw [sweep_cons_part hq₁ hr hb (by omega)]
        dsimp only
        by_cases hall : amount a ≤ q₁ + q₂
        · rw [sweep_cons_full hq hr hb hall, sweep_cons_full hq₂ hr' hb' (by omega), hrest,
            show q₂ - (amount a - q₁) = q₁ + q₂ - amount a by omega]
          refine ⟨rfl, (Nat.zero_add _).symm, rfl, fun k => ?_⟩
          dsimp only
          rw [List.singleton_append, List.singleton_append, takenFrom_cons, takenFrom_cons,
            takenFrom_cons, takenFrom_nil, h.key_reduce]
          split <;> omega
        · rw [sweep_cons_part hq hr hb (by omega), sweep_cons_part hq₂ hr' hb' (by omega),
            h.reduce_reduce]
          refine ⟨rfl, rfl, rfl, fun k => ?_⟩
          dsimp only
          rw [takenFrom_cons, takenFrom_cons, takenFrom_cons, takenFrom_nil, h.key_reduce]
          split <;> omega
    · rw [Bool.not_eq_true] at hr
      rw [sweep_cons_out hr, sweep_cons_out hr, sweep_cons_out hr]
      exact ⟨rfl, rfl, rfl, fun _ => rfl⟩

end Greedy
