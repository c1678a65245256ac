import MatchingEngine.Journal.Journal
import MatchingEngine.Library.Crc
import MatchingEngine.Library.LittleEndian

/-!
# The command journal — integers and checksums

`put` and `get` are inverse to each other on the strings of the right length (`get_put`,
`put_get`). The table-driven `crc32` is the reflected check of `Crc` with the polynomial
`0xEDB88320` (`crc32_toNat`).
-/

namespace MatchingEngine

namespace Journal

open LittleEndian

variable {bytes : List UInt8} {v : UInt64} {n : ℕ}

/-! ## Integers -/

@[simp] theorem length_put (v : UInt64) (n : ℕ) : (put v n).length = n := by
  rw [put, List.length_map, List.length_range]

/-- What `put` writes spells the low part of the number. -/
theorem value_put (v : UInt64) (hn : n ≤ 8) : value (put v n) = v.toNat % 2 ^ (8 * n) := by
  apply Nat.eq_of_testBit_eq
  intro i
  rw [testBit_value, bit, Nat.testBit_mod_two_pow]
  by_cases hi : i / 8 < n
  · have hlt : i < 8 * n := by omega
    have hsmall : 8 * (i / 8) < UInt64.size := by
      show 8 * (i / 8) < 2 ^ 64
      omega
    have hget : (put v n)[i / 8]? = some (v >>> UInt64.ofNat (8 * (i / 8))).toUInt8 := by
      rw [put, List.getElem?_map, List.getElem?_range hi]
      rfl
    rw [List.getD_eq_getElem?_getD, hget, Option.getD_some, UInt64.toNat_toUInt8,
      UInt64.toNat_shiftRight, UInt64.toNat_ofNat_of_lt' hsmall, Nat.testBit_mod_two_pow,
      Nat.mod_eq_of_lt (by omega : 8 * (i / 8) < 64), Nat.testBit_shiftRight]
    have hbit : 8 * (i / 8) + i % 8 = i := by omega
    rw [hbit]
    simp [hlt, Nat.mod_lt]
  · have hge : ¬ i < 8 * n := by omega
    rw [List.getD_eq_default _ _ (by rw [length_put]; omega)]
    simp [hge]

/-- The loop of `get` sets the bits above those that it has. -/
theorem getFrom_toNat : ∀ (bytes : List UInt8) (i : ℕ) (v : UInt64), i + bytes.length ≤ 8 →
    (getFrom i v bytes).toNat = v.toNat ||| (value bytes <<< (8 * i)) := by
  intro bytes
  induction bytes with
  | nil =>
    intro i v _
    rw [value_nil, Nat.zero_shiftLeft, Nat.or_zero]
    rfl
  | cons b bytes ih =>
    intro i v hlen
    rw [List.length_cons] at hlen
    have hsmall : 8 * i < UInt64.size := by
      show 8 * i < 2 ^ 64
      omega
    have hfits : b.toNat <<< (8 * i) < 2 ^ 64 := by
      rw [Nat.shiftLeft_eq]
      calc b.toNat * 2 ^ (8 * i) < 2 ^ 8 * 2 ^ (8 * i) :=
            Nat.mul_lt_mul_of_pos_right b.toNat_lt (Nat.two_pow_pos _)
        _ = 2 ^ (8 + 8 * i) := (Nat.pow_add ..).symm
        _ ≤ 2 ^ 64 := Nat.pow_le_pow_right (by omega) (by omega)
    have hcons : value (b :: bytes) = b.toNat ||| (value bytes <<< 8) := by
      have hb : b.toNat < 2 ^ 8 := b.toNat_lt
      rw [value_cons, Nat.or_comm, ← Nat.shiftLeft_add_eq_or_of_lt hb, Nat.shiftLeft_eq]
      omega
    rw [getFrom, ih (i + 1) _ (by omega), UInt64.toNat_or, UInt64.toNat_shiftLeft,
      UInt8.toNat_toUInt64, UInt64.toNat_ofNat_of_lt' hsmall,
      Nat.mod_eq_of_lt (by omega : 8 * i < 64), Nat.mod_eq_of_lt hfits, hcons,
      Nat.shiftLeft_or_distrib, ← Nat.shiftLeft_add, Nat.or_assoc, Nat.mul_add,
      Nat.add_comm (8 * i)]

/-- `get` returns the number that the bytes spell. -/
theorem get_toNat (hlen : bytes.length ≤ 8) : (get bytes).toNat = value bytes := by
  rw [get, getFrom_toNat bytes 0 0 (by omega)]
  show 0 ||| (value bytes <<< 0) = value bytes
  rw [Nat.zero_or, Nat.shiftLeft_zero]

/-- **What is put is got**, if it fits. -/
theorem get_put (hn : n ≤ 8) (hv : v.toNat < 2 ^ (8 * n)) : get (put v n) = v := by
  apply UInt64.toNat_inj.mp
  rw [get_toNat (by rw [length_put]; exact hn), value_put v hn, Nat.mod_eq_of_lt hv]

/-- **What is got is put back.** -/
theorem put_get (hlen : bytes.length ≤ 8) : put (get bytes) bytes.length = bytes := by
  apply value_inj (length_put _ _)
  rw [value_put _ hlen, get_toNat hlen, Nat.mod_eq_of_lt (value_lt bytes)]

@[simp] theorem get_put_64 (v : UInt64) : get (put v 8) = v := get_put le_rfl v.toNat_lt

@[simp] theorem get_put_32 (v : UInt32) : get (put v.toUInt64 4) = v.toUInt64 :=
  get_put (by omega) (by rw [UInt32.toNat_toUInt64]; exact v.toNat_lt)

theorem put_get_64 (hlen : bytes.length = 8) : put (get bytes) 8 = bytes := by
  rw [← hlen]
  exact put_get hlen.le

/-- Four bytes spell a number of 32 bits. -/
theorem get_lt (hlen : bytes.length = 4) : (get bytes).toNat < 2 ^ 32 := by
  rw [get_toNat (by omega)]
  have h := value_lt bytes
  rwa [hlen] at h

/-- A field of four bytes keeps its value in 32 bits. -/
theorem toUInt32_get (hlen : bytes.length = 4) : (get bytes).toUInt32.toUInt64 = get bytes := by
  apply UInt64.toNat_inj.mp
  rw [UInt32.toNat_toUInt64, UInt64.toNat_toUInt32, Nat.mod_eq_of_lt (get_lt hlen)]

/-- Four bytes are put back as a number of 32 bits. -/
theorem put_get_32 (hlen : bytes.length = 4) : put (get bytes).toUInt32.toUInt64 4 = bytes := by
  rw [toUInt32_get hlen, ← hlen]
  exact put_get (by omega)

/-! ## Checksums -/

/-- The polynomial of CRC-32, its highest coefficient in the lowest bit. -/
def crcPoly : ℕ := 0xEDB88320

/-- The polynomial is one of degree 32 with a constant term. -/
theorem crcPoly_poly : Crc.Poly crcPoly 32 := ⟨by decide, by decide⟩

/-- A round of the source is one of the register. -/
theorem crcRound_toNat (c : UInt32) : (crcRound c).toNat = Crc.shift crcPoly c.toNat := by
  have hbit : (c &&& 1 ≠ 0) ↔ c.toNat % 2 = 1 := by
    rw [Ne, ← UInt32.toNat_inj, UInt32.toNat_and, UInt32.toNat_one, Nat.and_one_is_mod,
      UInt32.toNat_zero]
    omega
  have hhalf : (c >>> 1).toNat = c.toNat / 2 := by
    rw [UInt32.toNat_shiftRight]
    rfl
  unfold crcRound Crc.shift
  by_cases h : c &&& 1 ≠ 0
  · rw [if_pos h, if_pos (hbit.mp h), UInt32.toNat_xor, hhalf]
    rfl
  · rw [if_neg h, if_neg (fun hc => h (hbit.mpr hc)), hhalf]

/-- Some rounds are some of the register. -/
theorem crcRounds_toNat (n : ℕ) (c : UInt32) :
    (crcRound^[n] c).toNat = (Crc.shift crcPoly)^[n] c.toNat := by
  induction n generalizing c with
  | zero => rfl
  | succ n ih => rw [Function.iterate_succ_apply, Function.iterate_succ_apply, ih, crcRound_toNat]

theorem getElem!_of_lt (table : Array UInt32) {i : ℕ} (hi : i < table.size) :
    table[i]! = table[i] := getElem!_pos table i hi

/-- The entries of the table are the registers after one byte. -/
theorem kCrcTable_get {i : ℕ} (hi : i < 256) :
    (kCrcTable[i]!).toNat = (Crc.shift crcPoly)^[8] i := by
  have hsize : i < kCrcTable.size := by
    rw [kCrcTable, makeCrcTable, Array.size_ofFn]
    exact hi
  have hget : kCrcTable[i] = crcRound^[8] (UInt32.ofNat i) := by
    simp only [kCrcTable, makeCrcTable, Array.getElem_ofFn]
  rw [getElem!_of_lt kCrcTable hsize, hget, crcRounds_toNat, UInt32.toNat_ofNat_of_lt' ?_]
  exact hi.trans (by decide)

/-- One lookup in the table feeds in the eight bits of a byte. -/
theorem crcByte_toNat (c : UInt32) (b : UInt8) :
    (crcByte c b).toNat = Crc.register crcPoly c.toNat b.toNat 8 := by
  have hlow : ((c ^^^ b.toUInt32) &&& 0xFF).toNat = (c.toNat ^^^ b.toNat) % 2 ^ 8 := by
    rw [UInt32.toNat_and, UInt32.toNat_xor, UInt8.toNat_toUInt32]
    exact Nat.and_two_pow_sub_one_eq_mod _ 8
  have hhigh : (c >>> 8).toNat = (c.toNat ^^^ b.toNat) / 2 ^ 8 := by
    rw [UInt32.toNat_shiftRight, Nat.xor_div_two_pow, Nat.div_eq_of_lt b.toNat_lt, Nat.xor_zero]
    exact Nat.shiftRight_eq_div_pow ..
  have hlt : (c.toNat ^^^ b.toNat) % 2 ^ 8 < 2 ^ 8 := Nat.mod_lt _ (by decide)
  -- the low byte goes through the table, the rest moves down
  have hsplit : c.toNat ^^^ b.toNat =
      (c.toNat ^^^ b.toNat) % 2 ^ 8 ^^^ 2 ^ 8 * ((c.toNat ^^^ b.toNat) / 2 ^ 8) := by
    rw [← Crc.add_two_pow_mul hlt]
    exact (Nat.mod_add_div _ _).symm
  rw [crcByte, UInt32.toNat_xor, hlow, hhigh, kCrcTable_get hlt, Crc.register]
  conv_rhs => rw [hsplit]
  rw [Crc.shifts_xor, Crc.shifts_two_pow_mul]

/-- The checksum of some bytes is the register fed with their number. -/
theorem foldl_crcByte_toNat (data : List UInt8) (c : UInt32) :
    (data.foldl crcByte c).toNat =
      Crc.register crcPoly c.toNat (value data) (8 * data.length) := by
  induction data generalizing c with
  | nil => exact (Nat.xor_zero c.toNat).symm
  | cons b data ih =>
    rw [List.foldl_cons, ih, crcByte_toNat, value_cons, List.length_cons, Nat.mul_add,
      Nat.add_comm (8 * data.length)]
    exact (Crc.register_add crcPoly c.toNat b.toNat_lt _ _).symm

/-- **The checksum**, without its final complement, is the register of a reflected check. -/
theorem crc32_toNat (data : List UInt8) :
    (crc32 data).toNat ^^^ 0xFFFFFFFF =
      Crc.register crcPoly 0xFFFFFFFF (value data) (8 * data.length) := by
  have h := foldl_crcByte_toNat data 0xFFFFFFFF
  rw [crc32, UInt32.toNat_xor, h, Nat.xor_assoc]
  exact Nat.xor_zero _

end Journal

end MatchingEngine
