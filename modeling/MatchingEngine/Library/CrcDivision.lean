import MatchingEngine.Library.Crc
import Mathlib.Algebra.Polynomial.Div
import Mathlib.Algebra.Polynomial.Monic
import Mathlib.Algebra.Field.ZMod
import Mathlib.Tactic.LinearCombination

/-!
# Cyclic redundancy checks — division of polynomials

A register of width `w` stands for a polynomial over the field of two elements, of degree
below `w`: in a reflected check bit `i` is the coefficient of `X ^ (w - 1 - i)`
(`reflected`). A message stands for the polynomial with its bits as coefficients, the first
bit highest (`message`). Feeding in a message is then a long division by the generator
`X ^ w + reflected w P`, and what the register holds is the remainder (`reflected_foldl`).
-/

namespace Crc

open Polynomial

variable {P w r : ℕ} {bits : List Bool}

/-- A bit as a coefficient. -/
def coefficient (b : Bool) : ZMod 2 := if b then 1 else 0

/-- The polynomial of a register, whose lowest bit is the highest coefficient. -/
noncomputable def reflected (w r : ℕ) : (ZMod 2)[X] :=
  ∑ i ∈ Finset.range w, monomial i (coefficient (r.testBit (w - 1 - i)))

/-- The generator of the check. -/
noncomputable def generator (P w : ℕ) : (ZMod 2)[X] := X ^ w + reflected w P

/-- The polynomial of a message, whose first bit is the highest coefficient. -/
noncomputable def message (bits : List Bool) : (ZMod 2)[X] :=
  bits.foldl (fun p b => X * p + C (coefficient b)) 0

theorem coefficient_xor (b b' : Bool) :
    coefficient (b ^^ b') = coefficient b + coefficient b' := by
  cases b <;> cases b' <;> decide

/-- The coefficients are the bits from the other end. -/
theorem coeff_reflected (w r k : ℕ) :
    (reflected w r).coeff k = if k < w then coefficient (r.testBit (w - 1 - k)) else 0 := by
  rw [reflected, finsetSum_coeff]
  simp only [coeff_monomial, Finset.sum_ite_eq', Finset.mem_range]

/-- A register is a remainder: its degree is below the width. -/
theorem degree_reflected (w r : ℕ) : (reflected w r).degree < w := by
  rw [degree_lt_iff_coeff_zero]
  intro k hk
  rw [coeff_reflected, if_neg (by omega)]

/-- The generator is monic, so there is a division by it. -/
theorem monic_generator (P w : ℕ) : (generator P w).Monic :=
  monic_X_pow_add (degree_reflected w P)

theorem degree_generator (P w : ℕ) : (generator P w).degree = w := by
  rw [generator, add_comm, degree_add_eq_right_of_degree_lt]
  · exact degree_X_pow w
  · rw [degree_X_pow]
    exact degree_reflected w P

/-- **A shift** multiplies by `X` and takes the generator away if the degree got too high. -/
theorem reflected_shift (hw : 0 < w) (hr : r < 2 ^ w) :
    reflected w (shift P r) =
      X * reflected w r + C (coefficient (r.testBit 0)) * generator P w := by
  have htwo : ∀ x : ZMod 2, x + x = 0 := by decide
  have hbit : ∀ j, (shift P r).testBit j = ((r.testBit 0 && P.testBit j) ^^ r.testBit (j + 1)) := by
    intro j
    rw [shift, Nat.testBit_zero]
    split
    · next h => rw [Nat.testBit_xor, Nat.testBit_div_two]; simp [h]
    · next h => rw [Nat.testBit_div_two]; simp [h]
  have hand : ∀ b b' : Bool, coefficient (b && b') = coefficient b * coefficient b' := by decide
  ext k
  rw [coeff_add, coeff_C_mul, generator, coeff_add, coeff_X_pow, coeff_reflected, coeff_reflected]
  cases k with
  | zero =>
    have htop : r.testBit (w - 1 - 0 + 1) = false := by
      rw [show w - 1 - 0 + 1 = w by omega]
      exact Nat.testBit_lt_two_pow hr
    rw [coeff_X_mul_zero, if_pos hw, if_neg (by omega), if_pos hw, hbit, coefficient_xor, hand,
      htop]
    simp [coefficient]
  | succ k =>
    rw [coeff_X_mul, coeff_reflected]
    by_cases hk : k + 1 < w
    · rw [if_pos hk, if_pos (by omega), if_neg (by omega), if_pos hk, hbit, coefficient_xor, hand,
        show w - 1 - (k + 1) + 1 = w - 1 - k by omega, zero_add, add_comm]
    · rw [if_neg hk]
      by_cases hkw : k + 1 = w
      · rw [if_pos (by omega), if_pos hkw, if_neg hk, show w - 1 - k = 0 by omega]
        rw [add_zero, mul_one, htwo]
      · rw [if_neg (by omega), if_neg hkw, if_neg hk]
        simp

/-- The sum of two registers stands for the sum of their polynomials. -/
theorem reflected_xor (w r r' : ℕ) :
    reflected w (r ^^^ r') = reflected w r + reflected w r' := by
  ext k
  rw [coeff_add, coeff_reflected, coeff_reflected, coeff_reflected]
  split
  · rw [Nat.testBit_xor, coefficient_xor]
  · exact (add_zero 0).symm

/-- A single bit stands in the top coefficient. -/
theorem reflected_bit (hw : 0 < w) (b : Bool) :
    reflected w b.toNat = C (coefficient b) * X ^ (w - 1) := by
  ext k
  rw [coeff_reflected, coeff_C_mul, coeff_X_pow]
  have hbit : ∀ j, b.toNat.testBit j = (b && decide (j = 0)) := by
    intro j
    cases b with
    | false => exact Nat.zero_testBit j
    | true =>
      show Nat.testBit (2 ^ 0) j = _
      rw [Nat.testBit_two_pow, Bool.true_and]
      exact decide_eq_decide.mpr eq_comm
  rw [hbit]
  by_cases hk : k = w - 1
  · rw [if_pos (by omega), if_pos hk, show w - 1 - k = 0 by omega, mul_one]
    simp
  · rw [if_neg hk, mul_zero]
    split
    · rw [decide_eq_false (show ¬ w - 1 - k = 0 by omega), Bool.and_false]
      rfl
    · rfl

/-- One bit more multiplies the message by the variable and adds the bit. -/
theorem message_append (bits : List Bool) (b : Bool) :
    message (bits ++ [b]) = X * message bits + C (coefficient b) := by
  rw [message, List.foldl_append]
  rfl

/-- A register keeps its width over a list of bits. -/
theorem foldl_feed_lt (hP : Poly P w) (hw : 0 < w) (hr : r < 2 ^ w) (bits : List Bool) :
    bits.foldl (feed P) r < 2 ^ w := by
  induction bits generalizing r with
  | nil => exact hr
  | cons b bits ih => exact ih (feed_lt hP.lt hw hr b)

/-- The register differs from the message by a multiple of the generator. -/
theorem exists_quotient (hP : Poly P w) (hw : 0 < w) (hr : r < 2 ^ w) (bits : List Bool) :
    ∃ q, reflected w (bits.foldl (feed P) r) + generator P w * q =
      X ^ bits.length * reflected w r + X ^ w * message bits := by
  induction bits using List.reverseRecOn with
  | nil =>
    refine ⟨0, ?_⟩
    rw [message]
    simp
  | append_singleton bits b ih =>
    obtain ⟨q, hq⟩ := ih
    have hs : bits.foldl (feed P) r < 2 ^ w := foldl_feed_lt hP hw hr bits
    have hb : b.toNat < 2 ^ w := lt_of_le_of_lt b.toNat_le (Nat.one_lt_two_pow hw.ne')
    have hpow : (X : (ZMod 2)[X]) ^ w = X ^ (w - 1) * X := by
      rw [← pow_succ, Nat.sub_add_cancel hw]
    have hstep := reflected_shift (P := P) hw (Nat.xor_lt_two_pow hs hb)
    rw [reflected_xor, reflected_bit hw] at hstep
    refine ⟨X * q - C (coefficient ((bits.foldl (feed P) r ^^^ b.toNat).testBit 0)), ?_⟩
    rw [List.foldl_append, List.foldl_cons, List.foldl_nil, feed, hstep, message_append,
      List.length_append, List.length_singleton, pow_succ]
    linear_combination X * hq - C (coefficient b) * hpow

/-- **A check is a remainder**: the message, with the initial register added to its first
`w` bits and `w` zeros behind it, modulo the generator. -/
theorem reflected_foldl (hP : Poly P w) (hw : 0 < w) (hr : r < 2 ^ w) (bits : List Bool) :
    reflected w (bits.foldl (feed P) r) =
      (X ^ bits.length * reflected w r + X ^ w * message bits) %ₘ generator P w := by
  obtain ⟨q, hq⟩ := exists_quotient hP hw hr bits
  refine ((div_modByMonic_unique q _ (monic_generator P w) ⟨hq, ?_⟩).2).symm
  rw [degree_generator]
  exact degree_reflected w _

end Crc
