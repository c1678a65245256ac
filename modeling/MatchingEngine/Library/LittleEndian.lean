import Mathlib.Data.List.GetD
import Mathlib.Data.Nat.Digits.Defs

/-!
# Little-endian byte strings

The number that a byte string spells, least significant byte first. Its bits are those of the
bytes, in the order of the bytes (`testBit_value`), so an exclusive or of byte strings is one of
numbers (`value_xorBytes`).
-/

namespace LittleEndian

variable {bytes bytes' : List UInt8}

/-- The number that some bytes spell, the lowest one first. -/
def value (bytes : List UInt8) : ℕ := Nat.ofDigits 256 (bytes.map UInt8.toNat)

/-- Bit `i` of the string: the bits of a byte count from its least significant one. -/
def bit (bytes : List UInt8) (i : ℕ) : Bool := (bytes.getD (i / 8) 0).toNat.testBit (i % 8)

/-- The bytes that differ, bit by bit. -/
def xorBytes (bytes bytes' : List UInt8) : List UInt8 := List.zipWith (· ^^^ ·) bytes bytes'

@[simp] theorem value_nil : value [] = 0 := rfl

@[simp] theorem value_cons (b : UInt8) (bytes : List UInt8) :
    value (b :: bytes) = b.toNat + 256 * value bytes := Nat.ofDigits_cons

/-- The bytes behind others count for more. -/
theorem value_append (bytes bytes' : List UInt8) :
    value (bytes ++ bytes') = value bytes + 2 ^ (8 * bytes.length) * value bytes' := by
  rw [value, List.map_append, Nat.ofDigits_append, List.length_map, Nat.pow_mul]
  rfl

/-- Bytes spell numbers of their width. -/
theorem value_lt (bytes : List UInt8) : value bytes < 2 ^ (8 * bytes.length) := by
  have hlt : value bytes < 256 ^ (bytes.map UInt8.toNat).length := by
    refine Nat.ofDigits_lt_base_pow_length (by omega) fun n hn => ?_
    obtain ⟨b, -, rfl⟩ := List.mem_map.mp hn
    exact b.toNat_lt
  rw [List.length_map] at hlt
  rw [Nat.pow_mul]
  exact hlt

theorem testBit_cons (b : UInt8) (n i : ℕ) :
    (b.toNat + 256 * n).testBit i = if i < 8 then b.toNat.testBit i else n.testBit (i - 8) := by
  have hb : b.toNat < 2 ^ 8 := b.toNat_lt
  rw [Nat.add_comm]
  exact Nat.testBit_two_pow_mul_add n hb i

/-- The bits of the number are those of the bytes. -/
theorem testBit_value (bytes : List UInt8) (i : ℕ) : (value bytes).testBit i = bit bytes i := by
  induction bytes generalizing i with
  | nil => simp [bit]
  | cons b bytes ih =>
    rw [value_cons, testBit_cons]
    by_cases hi : i < 8
    · rw [if_pos hi, bit, Nat.div_eq_of_lt hi, Nat.mod_eq_of_lt hi]
      rfl
    · have hdiv : i / 8 = (i - 8) / 8 + 1 := by omega
      have hmod : i % 8 = (i - 8) % 8 := by omega
      rw [if_neg hi, ih, bit, bit, hdiv, hmod, List.getD_cons_succ]

/-- Strings of one length that spell the same number are the same. -/
theorem value_inj (hlen : bytes.length = bytes'.length) (h : value bytes = value bytes') :
    bytes = bytes' := by
  induction bytes generalizing bytes' with
  | nil => exact (List.length_eq_zero_iff.mp hlen.symm).symm
  | cons b bytes ih =>
    cases bytes' with
    | nil => cases hlen
    | cons b' bytes' =>
      have hb := b.toNat_lt
      have hb' := b'.toNat_lt
      rw [value_cons, value_cons] at h
      have hhead : b.toNat = b'.toNat := by omega
      have htail : value bytes = value bytes' := by omega
      rw [UInt8.toNat_inj.mp hhead, ih (Nat.succ.inj hlen) htail]

@[simp] theorem length_xorBytes (hlen : bytes.length = bytes'.length) :
    (xorBytes bytes bytes').length = bytes.length := by
  rw [xorBytes, List.length_zipWith, hlen, Nat.min_self]

/-- Bytes differ where their numbers do. -/
theorem value_xorBytes (hlen : bytes.length = bytes'.length) :
    value (xorBytes bytes bytes') = value bytes ^^^ value bytes' := by
  induction bytes generalizing bytes' with
  | nil =>
    rw [List.length_eq_zero_iff.mp hlen.symm]
    rfl
  | cons b bytes ih =>
    cases bytes' with
    | nil => cases hlen
    | cons b' bytes' =>
      have hrec := ih (Nat.succ.inj hlen)
      rw [xorBytes] at hrec
      rw [xorBytes, List.zipWith_cons_cons, value_cons, value_cons, value_cons, hrec]
      apply Nat.eq_of_testBit_eq
      intro i
      rw [Nat.testBit_xor, testBit_cons, testBit_cons, testBit_cons, UInt8.toNat_xor]
      split
      · rw [Nat.testBit_xor]
      · rw [Nat.testBit_xor]

theorem xorBytes_append {front front' : List UInt8} (hlen : front.length = front'.length) :
    xorBytes (front ++ bytes) (front' ++ bytes') = xorBytes front front' ++ xorBytes bytes bytes' :=
  List.zipWith_append hlen

/-! ## Bursts -/

/-- All ones of the string lie among `n` consecutive bits. -/
def Burst (n : ℕ) (bytes : List UInt8) : Prop := ∃ a, ∀ i, bit bytes i = true → a ≤ i ∧ i < a + n

/-- Some bit of the string is a one. -/
def Nonzero (bytes : List UInt8) : Prop := ∃ i, bit bytes i = true

/-- Bits beyond the string are zero, so a burst can be looked for among those of the string. -/
theorem burst_of_forall_lt {n : ℕ} (a : ℕ)
    (h : ∀ i < 8 * bytes.length, bit bytes i = true → a ≤ i ∧ i < a + n) : Burst n bytes := by
  refine ⟨a, fun i hi => h i ?_ hi⟩
  by_contra hlt
  rw [bit, List.getD_eq_default _ _ (by omega), UInt8.toNat_zero, Nat.zero_testBit] at hi
  cases hi

/-- A burst is a small number, moved up. -/
theorem value_of_burst {n : ℕ} (hburst : Burst n bytes) (hne : Nonzero bytes) :
    ∃ a x, value bytes = 2 ^ a * x ∧ x ≠ 0 ∧ x < 2 ^ n ∧ a ≤ 8 * bytes.length := by
  obtain ⟨a, ha⟩ := hburst
  obtain ⟨i, hi⟩ := hne
  obtain ⟨hai, -⟩ := ha i hi
  rw [← testBit_value] at hi
  have hlow : value bytes % 2 ^ a = 0 := by
    apply Nat.eq_of_testBit_eq
    intro j
    rw [Nat.testBit_mod_two_pow, Nat.zero_testBit, testBit_value]
    by_cases hj : bit bytes j = true
    · have hle := (ha j hj).1
      simp [Nat.not_lt.mpr hle]
    · simp [hj]
  have hhigh : value bytes / 2 ^ a < 2 ^ n := by
    refine Nat.lt_pow_two_of_testBit _ fun j hj => ?_
    rw [Nat.testBit_div_two_pow, testBit_value, ← Bool.not_eq_true]
    intro hbit
    have hlt := (ha _ hbit).2
    omega
  have hmul : value bytes = 2 ^ a * (value bytes / 2 ^ a) := by
    have h := Nat.div_add_mod (value bytes) (2 ^ a)
    rw [hlow, Nat.add_zero] at h
    exact h.symm
  refine ⟨a, value bytes / 2 ^ a, hmul, ?_, hhigh, ?_⟩
  · intro hzero
    rw [hmul, hzero, Nat.mul_zero, Nat.zero_testBit] at hi
    cases hi
  · -- the ones are inside the string
    by_contra hlt
    have hbound : value bytes < 2 ^ i :=
      (value_lt bytes).trans_le (Nat.pow_le_pow_right (by omega) (by omega))
    rw [Nat.testBit_lt_two_pow hbound] at hi
    cases hi

/-! ## Flipped bits -/

/-- Flip bit `k` of the byte at position `pos`. -/
def flipBit (bytes : List UInt8) (pos k : ℕ) : List UInt8 :=
  bytes.modify pos fun b => b ^^^ (1 <<< UInt8.ofNat k)

variable {pos k : ℕ}

@[simp] theorem length_flipBit (bytes : List UInt8) (pos k : ℕ) :
    (flipBit bytes pos k).length = bytes.length := List.length_modify ..

/-- A flip in the first part leaves the second as it is. -/
theorem flipBit_append_left (h : pos < bytes.length) (bytes' : List UInt8) :
    flipBit (bytes ++ bytes') pos k = flipBit bytes pos k ++ bytes' := by
  induction bytes generalizing pos with
  | nil => cases h
  | cons b bytes ih =>
    cases pos with
    | zero => rfl
    | succ pos =>
      have hrec := ih (Nat.lt_of_succ_lt_succ h)
      rw [flipBit] at hrec
      rw [List.cons_append, flipBit, flipBit, List.modify_succ_cons, List.modify_succ_cons, hrec]
      rfl

/-- A flip in the second part leaves the first as it is. -/
theorem flipBit_append_right (bytes bytes' : List UInt8) (pos k : ℕ) :
    flipBit (bytes ++ bytes') (bytes.length + pos) k = bytes ++ flipBit bytes' pos k := by
  induction bytes with
  | nil => rw [List.nil_append, List.length_nil, Nat.zero_add, List.nil_append]
  | cons b bytes ih =>
    have hpos : (b :: bytes).length + pos = bytes.length + pos + 1 := by
      rw [List.length_cons]
      omega
    rw [flipBit] at ih
    rw [hpos, List.cons_append, flipBit, List.modify_succ_cons, ih, List.cons_append]

theorem xorBytes_zero (bytes : List UInt8) :
    xorBytes bytes (List.replicate bytes.length 0) = bytes := by
  induction bytes with
  | nil => rfl
  | cons b bytes ih =>
    rw [xorBytes] at ih
    rw [List.length_cons, List.replicate_succ, xorBytes, List.zipWith_cons_cons, ih,
      UInt8.xor_zero]

/-- Flipping a bit is an exclusive or with a string of one bit. -/
theorem flipBit_eq_xorBytes (bytes : List UInt8) (pos k : ℕ) :
    flipBit bytes pos k = xorBytes bytes (flipBit (List.replicate bytes.length 0) pos k) := by
  induction bytes generalizing pos with
  | nil => cases pos <;> rfl
  | cons b bytes ih =>
    rw [List.length_cons, List.replicate_succ]
    cases pos with
    | zero =>
      have hzero := xorBytes_zero bytes
      rw [xorBytes] at hzero
      rw [flipBit, flipBit, List.modify_zero_cons, List.modify_zero_cons, xorBytes,
        List.zipWith_cons_cons, hzero, UInt8.zero_xor]
    | succ pos =>
      have hrec := ih pos
      rw [flipBit, flipBit, xorBytes] at hrec
      rw [flipBit, flipBit, xorBytes, List.modify_succ_cons, List.modify_succ_cons,
        List.zipWith_cons_cons, hrec, UInt8.xor_zero]

/-- A flip in bytes of zeros sets the one bit. -/
theorem bit_flipBit_replicate {n i : ℕ} (hpos : pos < n) (hk : k < 8) :
    bit (flipBit (List.replicate n 0) pos k) i = true ↔ i = 8 * pos + k := by
  have hone : (1 <<< UInt8.ofNat k : UInt8).toNat = 2 ^ k := by
    revert k
    decide
  have hget : (flipBit (List.replicate n 0) pos k).getD (i / 8) 0 =
      if pos = i / 8 then 1 <<< UInt8.ofNat k else 0 := by
    rw [flipBit, List.getD_eq_getElem?_getD, List.getElem?_modify]
    by_cases heq : pos = i / 8
    · rw [← heq, List.getElem?_replicate_of_lt hpos]
      simp
    · simp only [if_neg heq]
      by_cases hi : i / 8 < n
      · simp [hi]
      · simp [hi]
  rw [bit, hget]
  by_cases heq : pos = i / 8
  · rw [if_pos heq, hone, Nat.testBit_two_pow, decide_eq_true_iff]
    omega
  · rw [if_neg heq, UInt8.toNat_zero, Nat.zero_testBit]
    constructor
    · intro h
      cases h
    · omega

/-- A flipped bit is a burst of length 1. -/
theorem burst_flipBit {n : ℕ} (hpos : pos < n) (hk : k < 8) :
    Burst 1 (flipBit (List.replicate n 0) pos k) ∧
      Nonzero (flipBit (List.replicate n 0) pos k) := by
  constructor
  · refine ⟨8 * pos + k, fun i hi => ?_⟩
    rw [bit_flipBit_replicate hpos hk] at hi
    omega
  · exact ⟨8 * pos + k, (bit_flipBit_replicate hpos hk).mpr rfl⟩

end LittleEndian
