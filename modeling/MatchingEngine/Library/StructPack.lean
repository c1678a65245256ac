import MatchingEngine.Library.LittleEndian

/-!
# Packed integers

The `pack` of Python's `struct` module for the formats of integers that begin with `<`: one code
a value, standard sizes, little-endian, and nothing between the values. A value that does not fit
its code is an error, and so are too many or too few values.
-/

namespace StructPack

open LittleEndian

/-- The size of an integer in bytes, and whether it has a sign. -/
structure Code where
  size : ℕ
  signed : Bool

/-- The codes of the letters that are used: the size and whether there is a sign. -/
def codeOf (letter : Char) : Option Code :=
  match letter with
  | 'b' => some ⟨1, true⟩
  | 'B' => some ⟨1, false⟩
  | 'h' => some ⟨2, true⟩
  | 'H' => some ⟨2, false⟩
  | 'i' | 'l' => some ⟨4, true⟩
  | 'I' | 'L' => some ⟨4, false⟩
  | 'q' => some ⟨8, true⟩
  | 'Q' => some ⟨8, false⟩
  | _ => none

/-- The least value of a code. -/
def Code.low (c : Code) : ℤ := if c.signed then -2 ^ (8 * c.size - 1) else 0

/-- The values of a code are below this one. -/
def Code.bound (c : Code) : ℤ := if c.signed then 2 ^ (8 * c.size - 1) else 2 ^ (8 * c.size)

/-- The `n` lowest bytes of a number. -/
def lowBytes : ℕ → ℕ → List UInt8
  | 0, _ => []
  | n + 1, v => UInt8.ofNat v :: lowBytes n (v / 256)

/-- A number in the range of its code, in little endian. -/
def Code.pack (c : Code) (v : ℤ) : Option (List UInt8) :=
  if c.low ≤ v ∧ v < c.bound then some (lowBytes c.size (v % 2 ^ (8 * c.size)).toNat) else none

/-- The numbers after the letters of a format, one number for each. -/
def packAll : List Char → List ℤ → Option (List UInt8)
  | [], [] => some []
  | letter :: letters, v :: vs => do
    let c ← codeOf letter
    let bytes ← c.pack v
    return bytes ++ (← packAll letters vs)
  | _, _ => none

/-- `struct.pack` for a format in little endian, which begins with `<`. -/
def pack (format : String) (vs : List ℤ) : Option (List UInt8) :=
  match format.toList with
  | '<' :: letters => packAll letters vs
  | _ => none

/-! ## What is packed -/

@[simp] theorem length_lowBytes (n v : ℕ) : (lowBytes n v).length = n := by
  induction n generalizing v with
  | zero => rfl
  | succ n ih => rw [lowBytes, List.length_cons, ih]

/-- Low bytes spell the number up to their width. -/
theorem value_lowBytes (n v : ℕ) : value (lowBytes n v) = v % 2 ^ (8 * n) := by
  induction n generalizing v with
  | zero => rw [lowBytes, value_nil, Nat.mul_zero, Nat.pow_zero, Nat.mod_one]
  | succ n ih =>
    have hpow : 2 ^ (8 * (n + 1)) = 256 * 2 ^ (8 * n) := by
      rw [Nat.mul_succ, Nat.pow_add, Nat.mul_comm]
    rw [lowBytes, value_cons, ih, hpow, Nat.mod_mul, UInt8.toNat_ofNat']

/-- A string of the right length that spells the number is the one packed. -/
theorem lowBytes_eq {n v : ℕ} {bytes : List UInt8} (hlen : bytes.length = n)
    (h : value bytes = v % 2 ^ (8 * n)) : lowBytes n v = bytes := by
  apply value_inj
  · rw [length_lowBytes, hlen]
  · rw [value_lowBytes, h]

section

variable {n : ℕ} {v : ℤ} {bytes : List UInt8}

/-- What a code packs is in its range, as two's complement. -/
theorem pack_eq_some {c : Code} : c.pack v = some bytes ↔
    (c.low ≤ v ∧ v < c.bound) ∧ bytes = lowBytes c.size (v % 2 ^ (8 * c.size)).toNat := by
  rw [Code.pack, Option.ite_none_right_eq_some, Option.some_inj, eq_comm (a := bytes)]

/-- Codes without a sign pack the numbers of their width. -/
theorem pack_unsigned : Code.pack ⟨n, false⟩ v = some bytes ↔
    (0 ≤ v ∧ v < 2 ^ (8 * n)) ∧ bytes = lowBytes n v.toNat := by
  rw [pack_eq_some]
  show (0 ≤ v ∧ v < 2 ^ (8 * n)) ∧ _ ↔ _
  refine and_congr_right fun hfits => ?_
  rw [Int.emod_eq_of_lt hfits.1 hfits.2]

/-- Codes with a sign pack two's complement. -/
theorem pack_signed : Code.pack ⟨n, true⟩ v = some bytes ↔
    (-2 ^ (8 * n - 1) ≤ v ∧ v < 2 ^ (8 * n - 1)) ∧ bytes = lowBytes n (v % 2 ^ (8 * n)).toNat :=
  pack_eq_some

end

/-- A format packs its first number in front of the others. -/
theorem packAll_cons {letter : Char} {letters : List Char} {v : ℤ} {vs : List ℤ} {c : Code}
    (hc : codeOf letter = some c) {bytes : List UInt8} :
    packAll (letter :: letters) (v :: vs) = some bytes ↔
      ∃ first rest, c.pack v = some first ∧ packAll letters vs = some rest ∧
        bytes = first ++ rest := by
  rw [packAll, hc]
  simp only [Option.bind_eq_bind, Option.bind_some, Option.bind_eq_some_iff, Option.pure_def,
    Option.some_inj]
  constructor
  · rintro ⟨first, hfirst, rest, hrest, rfl⟩
    exact ⟨first, rest, hfirst, hrest, rfl⟩
  · rintro ⟨first, rest, hfirst, hrest, rfl⟩
    exact ⟨first, hfirst, rest, hrest, rfl⟩

/-- If a code is that of a type, its values are packed as those of the type. -/
theorem packAll_of_type {α : Type} {val : α → ℤ} {enc : α → List UInt8} {letter : Char} {c : Code}
    (hc : codeOf letter = some c)
    (hpack : ∀ v bytes, c.pack v = some bytes ↔ ∃ a, v = val a ∧ bytes = enc a)
    {letters : List Char} {v : ℤ} {vs : List ℤ} {bytes : List UInt8} :
    packAll (letter :: letters) (v :: vs) = some bytes ↔
      ∃ a, v = val a ∧ ∃ rest, packAll letters vs = some rest ∧ bytes = enc a ++ rest := by
  rw [packAll_cons hc]
  constructor
  · rintro ⟨first, rest, hfirst, hrest, rfl⟩
    obtain ⟨a, hv, rfl⟩ := (hpack v first).mp hfirst
    exact ⟨a, hv, rest, hrest, rfl⟩
  · rintro ⟨a, hv, rest, hrest, rfl⟩
    exact ⟨enc a, rest, (hpack v (enc a)).mpr ⟨a, hv, rfl⟩, hrest, rfl⟩

theorem packAll_nil {bytes : List UInt8} : packAll [] [] = some bytes ↔ bytes = [] := by
  rw [packAll, Option.some_inj, eq_comm]

end StructPack
