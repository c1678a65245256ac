import Mathlib.Data.Nat.Bitwise
import Mathlib.Logic.Function.Iterate

/-!
# Cyclic redundancy checks

A reflected check of width `w` over natural numbers: bit `i` of a number is the bit that is
fed in at time `i`. One step shifts the register down by one place and adds the polynomial
`P` if a one fell out (`shift`). A step is linear for the exclusive or, and only zero is sent
to zero, as long as the top bit of `P` is set. So feeding in a message of `n` bits is `n`
shifts of the exclusive or of register and message (`register`), and an error goes unnoticed
exactly if shifting the error alone ends in zero (`check_damaged`), which a burst of at most `w`
bits never does (`burst_ne_zero`).
-/

namespace Crc

/-- `P` is the polynomial of a check of width `w`. -/
structure Poly (P w : ℕ) : Prop where
  lt : P < 2 ^ w
  top : 2 ^ w ≤ 2 * P

/-- One round of the register: shift it by a bit, and add the polynomial if a one falls out. -/
def shift (P x : ℕ) : ℕ := if x % 2 = 1 then P ^^^ (x / 2) else x / 2

/-- The register after `n` bits `m` were fed into `r`. -/
def register (P r m n : ℕ) : ℕ := (shift P)^[n] (r ^^^ m)

variable {P w n k r m m' c c' x y a : ℕ}

/-! ## One shift -/

@[simp] theorem shift_zero (P : ℕ) : shift P 0 = 0 := rfl

@[simp] theorem shift_two_mul (P x : ℕ) : shift P (2 * x) = x := by
  rw [shift, if_neg (by omega), Nat.mul_div_cancel_left x (by omega)]

/-- The low bit of a sum is the sum of the low bits. -/
theorem mod_two_xor (x y : ℕ) : (x ^^^ y) % 2 = (x % 2 + y % 2) % 2 := by
  have h : (x ^^^ y) % 2 = (x % 2) ^^^ (y % 2) := Nat.xor_mod_two_pow (n := 1)
  rw [h]
  rcases Nat.mod_two_eq_zero_or_one x with hx | hx <;>
    rcases Nat.mod_two_eq_zero_or_one y with hy | hy <;> rw [hx, hy] <;> rfl

theorem div_two_xor (x y : ℕ) : (x ^^^ y) / 2 = (x / 2) ^^^ (y / 2) :=
  Nat.xor_div_two_pow (n := 1)

/-- A shift is linear. -/
theorem shift_xor (P x y : ℕ) : shift P (x ^^^ y) = shift P x ^^^ shift P y := by
  unfold shift
  rw [mod_two_xor, div_two_xor]
  rcases Nat.mod_two_eq_zero_or_one x with hx | hx <;>
    rcases Nat.mod_two_eq_zero_or_one y with hy | hy <;> rw [hx, hy]
  · rfl
  · show P ^^^ (x / 2 ^^^ y / 2) = x / 2 ^^^ (P ^^^ y / 2)
    rw [Nat.xor_left_comm]
  · show P ^^^ (x / 2 ^^^ y / 2) = (P ^^^ x / 2) ^^^ y / 2
    rw [Nat.xor_assoc]
  · -- the polynomial is added twice
    show x / 2 ^^^ y / 2 = (P ^^^ x / 2) ^^^ (P ^^^ y / 2)
    rw [Nat.xor_comm P (x / 2), Nat.xor_assoc, ← Nat.xor_assoc P P, Nat.xor_self, Nat.zero_xor]

/-- A round takes a bit off a register that is one too long. -/
theorem shift_lt (hP : P < 2 ^ k) (hx : x < 2 ^ (k + 1)) : shift P x < 2 ^ k := by
  have hhalf : x / 2 < 2 ^ k := by
    rw [pow_succ] at hx
    omega
  unfold shift
  split
  · exact Nat.xor_lt_two_pow hP hhalf
  · exact hhalf

/-- Only zero is sent to zero. -/
theorem shift_ne_zero (hP : Poly P w) (hx : x < 2 ^ w) (h : x ≠ 0) : shift P x ≠ 0 := by
  have htop := hP.top
  unfold shift
  split
  · intro hzero
    have heq : P = x / 2 := Nat.xor_eq_zero_iff.mp hzero
    omega
  · omega

/-! ## Many shifts -/

@[simp] theorem shifts_zero (P n : ℕ) : (shift P)^[n] 0 = 0 :=
  Function.iterate_fixed (shift_zero P) n

/-- **Rounds are linear.** -/
theorem shifts_xor (P n x y : ℕ) :
    (shift P)^[n] (x ^^^ y) = (shift P)^[n] x ^^^ (shift P)^[n] y := by
  induction n generalizing x y with
  | zero => rfl
  | succ n ih => rw [Function.iterate_succ_apply, shift_xor, ih]; rfl

/-- What is beyond the first `n` bits is moved down by `n` shifts. -/
theorem shifts_two_pow_mul (P n x : ℕ) : (shift P)^[n] (2 ^ n * x) = x := by
  induction n with
  | zero => rw [pow_zero, Nat.one_mul]; rfl
  | succ n ih => rw [pow_succ', Nat.mul_assoc, Function.iterate_succ_apply, shift_two_mul, ih]

/-- As many rounds as a register has bits too many bring it back to its width. -/
theorem shifts_lt (hP : P < 2 ^ w) (hx : x < 2 ^ (w + n)) : (shift P)^[n] x < 2 ^ w := by
  induction n generalizing x with
  | zero => exact hx
  | succ n ih =>
    have hle : 2 ^ w ≤ 2 ^ (w + n) := Nat.pow_le_pow_right (by omega) (by omega)
    exact ih (shift_lt (hP.trans_le hle) hx)

/-- Rounds lose nothing: a register that is not zero does not become so. -/
theorem shifts_ne_zero (hP : Poly P w) (hx : x < 2 ^ w) (h : x ≠ 0) : (shift P)^[n] x ≠ 0 := by
  induction n generalizing x with
  | zero => exact h
  | succ n ih =>
    have hlt : x < 2 ^ (w + 1) := hx.trans (Nat.pow_lt_pow_right (by omega) (by omega))
    exact ih (shift_lt hP.lt hlt) (shift_ne_zero hP hx h)

/-- Blocks and what follows them are combined bit by bit. -/
theorem add_xor_add (hx : x < 2 ^ n) (hy : y < 2 ^ n) (x' y' : ℕ) :
    (x ^^^ y) + 2 ^ n * (x' ^^^ y') = (x + 2 ^ n * x') ^^^ (y + 2 ^ n * y') := by
  have hxy : x ^^^ y < 2 ^ n := Nat.xor_lt_two_pow hx hy
  apply Nat.eq_of_testBit_eq
  intro i
  rw [Nat.testBit_xor, Nat.add_comm, Nat.add_comm x, Nat.add_comm y,
    Nat.testBit_two_pow_mul_add _ hxy, Nat.testBit_two_pow_mul_add _ hx,
    Nat.testBit_two_pow_mul_add _ hy]
  split
  · rw [Nat.testBit_xor]
  · rw [Nat.testBit_xor]

/-- A block and what follows it do not overlap. -/
theorem add_two_pow_mul (hm : m < 2 ^ n) (x : ℕ) : m + 2 ^ n * x = m ^^^ 2 ^ n * x := by
  have h := add_xor_add hm (Nat.two_pow_pos n) 0 x
  rwa [Nat.xor_zero, Nat.zero_xor, Nat.mul_zero, Nat.zero_add, Nat.add_zero] at h

/-- Feeding in a block, and then what follows. -/
theorem register_add (P r : ℕ) (hm : m < 2 ^ n) (x k : ℕ) :
    register P r (m + 2 ^ n * x) (n + k) = register P (register P r m n) x k := by
  unfold register
  rw [add_two_pow_mul hm, ← Nat.xor_assoc, Nat.add_comm, Function.iterate_add_apply, shifts_xor,
    shifts_two_pow_mul]

/-- A register keeps its width over a whole message. -/
theorem register_lt (hP : P < 2 ^ w) (hr : r < 2 ^ w) (hm : m < 2 ^ n) :
    register P r m n < 2 ^ w := by
  refine shifts_lt hP (Nat.xor_lt_two_pow (hr.trans_le ?_) (hm.trans_le ?_))
  · exact Nat.pow_le_pow_right (by omega) (by omega)
  · exact Nat.pow_le_pow_right (by omega) (by omega)

/-! ## One bit at a time -/

/-- Feed one bit in. -/
def feed (P r : ℕ) (b : Bool) : ℕ := shift P (r ^^^ b.toNat)

/-- The lowest `n` bits of `m`, in the order in which they are fed in. -/
def bitsOf (n m : ℕ) : List Bool := (List.range n).map m.testBit

/-- A register keeps its width over one bit. -/
theorem feed_lt (hP : P < 2 ^ w) (hw : 0 < w) (hr : r < 2 ^ w) (b : Bool) : feed P r b < 2 ^ w := by
  have hb : b.toNat < 2 ^ w := lt_of_le_of_lt b.toNat_le (Nat.one_lt_two_pow hw.ne')
  have hlt : r ^^^ b.toNat < 2 ^ (w + 1) :=
    (Nat.xor_lt_two_pow hr hb).trans (Nat.pow_lt_pow_right (by omega) (by omega))
  exact shift_lt hP hlt

/-- The first bit of a message is its low one. -/
theorem bitsOf_succ (n m : ℕ) : bitsOf (n + 1) m = m.testBit 0 :: bitsOf n (m / 2) := by
  rw [bitsOf, List.range_succ_eq_map, List.map_cons, List.map_map, bitsOf]
  congr 1
  apply List.map_congr_left
  intro i _
  exact (Nat.testBit_div_two m i).symm

/-- Feeding in a block of bits is feeding them in one by one. -/
theorem register_eq_foldl (P r : ℕ) (hm : m < 2 ^ n) :
    register P r m n = (bitsOf n m).foldl (feed P) r := by
  induction n generalizing m r with
  | zero =>
    have hzero : m = 0 := by omega
    rw [hzero]
    exact Nat.xor_zero r
  | succ n ih =>
    have hhalf : m / 2 < 2 ^ n := by
      rw [pow_succ] at hm
      omega
    have hbit : (m.testBit 0).toNat = m % 2 := by
      rw [Nat.testBit_zero]
      rcases Nat.mod_two_eq_zero_or_one m with h | h <;> rw [h] <;> rfl
    have hsplit : m = (m.testBit 0).toNat + 2 ^ 1 * (m / 2) := by
      rw [hbit]
      omega
    have hfirst : (m.testBit 0).toNat < 2 ^ 1 := (m.testBit 0).toNat_lt
    have hstep := register_add P r hfirst (m / 2) n
    rw [← hsplit, Nat.add_comm] at hstep
    rw [hstep, bitsOf_succ, List.foldl_cons]
    exact ih (feed P r (m.testBit 0)) hhalf

/-! ## Errors -/

/-- **The check** of a message against a stored value `c`, as one number: it is right exactly
if feeding in `c` after the message clears the register. -/
theorem check_iff (hP : Poly P w) (hr : r < 2 ^ w) (hm : m < 2 ^ n) (hc : c < 2 ^ w) :
    register P r (m + 2 ^ n * c) (n + w) = 0 ↔ c = register P r m n := by
  have hlt : register P r m n ^^^ c < 2 ^ w := Nat.xor_lt_two_pow (register_lt hP.lt hr hm) hc
  rw [register_add P r hm]
  constructor
  · intro hzero
    by_contra hne
    have hxor : register P r m n ^^^ c ≠ 0 := fun h => hne (Nat.xor_eq_zero_iff.mp h).symm
    exact shifts_ne_zero hP hlt hxor hzero
  · intro heq
    rw [← heq, register, Nat.xor_self, shifts_zero]

/-- **Errors.** If the check was right before `m` and `c` became `m'` and `c'`, it is right
afterwards exactly if the error alone leaves nothing in the register. -/
theorem check_damaged (hP : Poly P w) (hr : r < 2 ^ w) (hm : m < 2 ^ n) (hm' : m' < 2 ^ n)
    (hc : c < 2 ^ w) (hc' : c' < 2 ^ w) (hright : c = register P r m n) :
    c' = register P r m' n ↔ (shift P)^[n + w] ((m ^^^ m') + 2 ^ n * (c ^^^ c')) = 0 := by
  have hzero : (shift P)^[n + w] (r ^^^ (m + 2 ^ n * c)) = 0 := (check_iff hP hr hm hc).mpr hright
  have herror : r ^^^ (m' + 2 ^ n * c') =
      (r ^^^ (m + 2 ^ n * c)) ^^^ ((m + 2 ^ n * c) ^^^ (m' + 2 ^ n * c')) := by
    rw [Nat.xor_assoc, ← Nat.xor_assoc (m + 2 ^ n * c), Nat.xor_self, Nat.zero_xor]
  rw [← check_iff hP hr hm' hc', register, herror, shifts_xor, hzero, Nat.zero_xor,
    add_xor_add hm hm']

/-- **Bursts.** An error of at most `w` bits leaves something in the register. -/
theorem burst_ne_zero (hP : Poly P w) (hx : x < 2 ^ w) (h : x ≠ 0) (ha : a ≤ n) :
    (shift P)^[n] (2 ^ a * x) ≠ 0 := by
  have hsplit : n = (n - a) + a := by omega
  rw [hsplit, Function.iterate_add_apply, shifts_two_pow_mul]
  exact shifts_ne_zero hP hx h

end Crc
