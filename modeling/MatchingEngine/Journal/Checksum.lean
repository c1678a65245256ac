import MatchingEngine.Journal.JournalTheorems
import MatchingEngine.Library.CrcDivision

/-!
# The checksum — what the table computes

`crc32Bitwise` is the CRC-32 of zlib and Ethernet taken from its definition: one bit at a time,
the least significant bit of a byte first, from a register of ones, with the result
complemented. The table gives the same number for every byte string
(`crc32_eq_crc32Bitwise`), and as a polynomial that is the remainder of the message modulo
`zlibPolynomial`.
-/

namespace MatchingEngine

namespace Journal

open Polynomial

/-! ## The definition -/

/-- The bits of a byte string, the least significant bit of a byte first. -/
def messageBits (data : List UInt8) : List Bool :=
  data.flatMap fun b => (List.range 8).map b.toNat.testBit

/-- Take in one bit: shift the register down, and add the polynomial if the bit that falls out
differs from the bit of the message. -/
def crcBit (c : UInt32) (b : Bool) : UInt32 :=
  if c.toNat.testBit 0 = b then c >>> 1 else (0xEDB88320 : UInt32) ^^^ (c >>> 1)

/-- The checksum bit by bit. -/
def crc32Bitwise (data : List UInt8) : UInt32 :=
  (messageBits data).foldl crcBit 0xFFFFFFFF ^^^ 0xFFFFFFFF

/-- The generator that zlib and Ethernet agree on. -/
noncomputable def zlibPolynomial : (ZMod 2)[X] :=
  X ^ 32 + X ^ 26 + X ^ 23 + X ^ 22 + X ^ 16 + X ^ 12 + X ^ 11 + X ^ 10 + X ^ 8 + X ^ 7 + X ^ 5 +
    X ^ 4 + X ^ 2 + X + 1

/-! ## The register -/

theorem crcBit_toNat (c : UInt32) (b : Bool) :
    (crcBit c b).toNat = Crc.feed crcPoly c.toNat b := by
  have hhalf : (c >>> 1).toNat = c.toNat / 2 := by
    rw [UInt32.toNat_shiftRight]
    rfl
  have hb : b.toNat / 2 = 0 := by
    have := b.toNat_lt
    omega
  have hdiv : (c.toNat ^^^ b.toNat) / 2 = c.toNat / 2 := by
    rw [Crc.div_two_xor, hb, Nat.xor_zero]
  have hmod : (c.toNat ^^^ b.toNat) % 2 = 1 ↔ ¬ c.toNat.testBit 0 = b := by
    rw [Crc.mod_two_xor, Nat.testBit_zero]
    cases b <;> rcases Nat.mod_two_eq_zero_or_one c.toNat with h | h <;> simp [h]
  unfold crcBit Crc.feed Crc.shift
  rw [hdiv]
  by_cases h : c.toNat.testBit 0 = b
  · rw [if_pos h, if_neg (fun hc => hmod.mp hc h), hhalf]
  · rw [if_neg h, if_pos (hmod.mpr h), UInt32.toNat_xor, hhalf]
    rfl

/-- Feeding a list of bits, as numbers. -/
theorem foldl_crcBit_toNat (bits : List Bool) (c : UInt32) :
    (bits.foldl crcBit c).toNat = bits.foldl (Crc.feed crcPoly) c.toNat := by
  induction bits generalizing c with
  | nil => rfl
  | cons b bits ih => rw [List.foldl_cons, List.foldl_cons, ih, crcBit_toNat]

/-- **A byte**: one lookup in the table takes in the eight bits of a byte. -/
theorem crcByte_eq_foldl (c : UInt32) (b : UInt8) :
    crcByte c b = ((List.range 8).map b.toNat.testBit).foldl crcBit c := by
  have hfeed := Crc.register_eq_foldl crcPoly c.toNat b.toNat_lt
  apply UInt32.toNat_inj.mp
  rw [crcByte_toNat, foldl_crcBit_toNat, hfeed]
  rfl

/-- The table does for a byte what eight rounds do for its bits. -/
theorem foldl_crcByte_eq_foldl (data : List UInt8) (c : UInt32) :
    data.foldl crcByte c = (messageBits data).foldl crcBit c := by
  induction data generalizing c with
  | nil => rfl
  | cons b data ih =>
    rw [List.foldl_cons, ih, crcByte_eq_foldl, ← List.foldl_append]
    rfl

/-! ## The remainder -/

/-- The generator is written down as the table has it, reflected and without its top bit. -/
theorem generator_crcPoly : Crc.generator crcPoly 32 = zlibPolynomial := by
  have hterm : ∀ i, monomial i (Crc.coefficient (crcPoly.testBit (32 - 1 - i))) =
      if crcPoly.testBit (32 - 1 - i) = true then X ^ i else (0 : (ZMod 2)[X]) := by
    intro i
    rw [Crc.coefficient]
    split
    · exact monomial_one_right_eq_X_pow i
    · exact monomial_zero_right i
  have hset : ((Finset.range 32).filter fun i => crcPoly.testBit (32 - 1 - i) = true) =
      {26, 23, 22, 16, 12, 11, 10, 8, 7, 5, 4, 2, 1, 0} := by decide
  rw [Crc.generator, Crc.reflected, Finset.sum_congr rfl fun i _ => hterm i, ← Finset.sum_filter,
    hset, zlibPolynomial]
  simp (disch := decide) only [Finset.sum_insert, Finset.sum_singleton]
  ring

/-- **The checksum** is the CRC-32 of zlib and Ethernet, bit for bit: what the definition
computes one bit at a time, and up to the complements the remainder of the message. -/
theorem crc32_eq_crc32Bitwise (data : List UInt8) :
    crc32 data = crc32Bitwise data ∧
      Crc.reflected 32 (crc32 data ^^^ 0xFFFFFFFF).toNat =
        (X ^ (8 * data.length) * Crc.reflected 32 0xFFFFFFFF +
          X ^ 32 * Crc.message (messageBits data)) %ₘ zlibPolynomial := by
  have hbits : crc32 data = crc32Bitwise data := by
    rw [crc32, crc32Bitwise, foldl_crcByte_eq_foldl]
  refine ⟨hbits, ?_⟩
  have hlen : (messageBits data).length = 8 * data.length := by
    rw [messageBits, List.length_flatMap]
    simp [Nat.mul_comm]
  have hregister : (crc32 data ^^^ 0xFFFFFFFF).toNat =
      (messageBits data).foldl (Crc.feed crcPoly) 0xFFFFFFFF := by
    have hcancel : crc32 data ^^^ 0xFFFFFFFF = (messageBits data).foldl crcBit 0xFFFFFFFF := by
      rw [hbits, crc32Bitwise, UInt32.xor_assoc, UInt32.xor_self, UInt32.xor_zero]
    rw [hcancel, foldl_crcBit_toNat]
    rfl
  rw [hregister, Crc.reflected_foldl crcPoly_poly (by omega) (by decide), generator_crcPoly, hlen]

/-- The check value of the CRC-32, over the digits from 1 to 9. -/
example : crc32Bitwise [0x31, 0x32, 0x33, 0x34, 0x35, 0x36, 0x37, 0x38, 0x39] = 0xCBF43926 := by
  decide +kernel

end Journal

end MatchingEngine
