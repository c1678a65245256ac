import Mathlib.Algebra.BigOperators.Intervals
import Mathlib.Algebra.Order.BigOperators.Group.Finset
import Mathlib.Tactic.Ring

/-!
# Harmonic sums in integers

`harmonic w n` is the sum of `w / r`, rounded down, over the ranks `r` from 1 to `n`. The
ranks from one power of two to the next add no more than `w`, so the sum grows with the
logarithm of `n` (`harmonic_le`).
-/

namespace HarmonicSum

variable {w m n k : ℕ}

/-- The sum of the quotients of `w` by the numbers from 1 to `n`, each rounded down. -/
def harmonic (w n : ℕ) : ℕ := ∑ r ∈ Finset.range n, w / (r + 1)

@[simp] theorem harmonic_zero : harmonic w 0 = 0 := rfl

theorem harmonic_succ (w n : ℕ) : harmonic w (n + 1) = harmonic w n + w / (n + 1) :=
  Finset.sum_range_succ ..

theorem harmonic_mono (w : ℕ) : Monotone (harmonic w) := by
  apply monotone_nat_of_le_succ
  intro n
  rw [harmonic_succ]
  exact Nat.le_add_right ..

/-- Twice as many ranks weigh at most `w` more. -/
theorem harmonic_double (w n : ℕ) : harmonic w (2 * n) ≤ harmonic w n + w := by
  have hback : ∑ r ∈ Finset.range n, w / (n + r + 1) ≤ n * (w / n) := by
    calc ∑ r ∈ Finset.range n, w / (n + r + 1) ≤ ∑ _r ∈ Finset.range n, w / n := by
          apply Finset.sum_le_sum
          intro r hr
          rw [Finset.mem_range] at hr
          exact Nat.div_le_div_left (by omega) (by omega)
      _ = n * (w / n) := by rw [Finset.sum_const, Finset.card_range, Nat.nsmul_eq_mul]
  have hsplit : harmonic w (2 * n) = harmonic w n + ∑ r ∈ Finset.range n, w / (n + r + 1) := by
    rw [two_mul]
    exact Finset.sum_range_add _ n n
  have hmul : n * (w / n) ≤ w := Nat.mul_div_le w n
  omega

/-- **The sum grows with the logarithm.** -/
theorem harmonic_le (w : ℕ) (h : n ≤ 2 ^ k) : harmonic w n ≤ (k + 1) * w := by
  apply le_trans (harmonic_mono w h)
  clear h
  induction k with
  | zero =>
    show harmonic w (0 + 1) ≤ (0 + 1) * w
    rw [harmonic_succ, harmonic_zero, Nat.div_one]
    omega
  | succ k ih =>
    have hdouble := harmonic_double w (2 ^ k)
    rw [pow_succ, mul_comm]
    have hw : (k + 1 + 1) * w = (k + 1) * w + w := by ring
    omega

end HarmonicSum
