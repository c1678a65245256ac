import MatchingEngine.Journal.Checksum
import MatchingEngine.Journal.JournalCodec
import MatchingEngine.Library.StructPack

/-!
# A second opinion on the journal

`tools/journal_golden.py` writes a journal without any of the engine's code: its integers are
Python's, which have no bounds, it packs them with `struct`, and takes the checksum of `zlib`.
It writes what the engine writes, and fails on exactly those arguments that no command has
(`second_opinion`).
-/

namespace MatchingEngine

namespace JournalGolden

open Journal StructPack

/-! ## The script -/

/-- `MAGIC`. -/
def magic : List UInt8 := "LOMEJRNL".toList.map fun c => UInt8.ofNat c.toNat

/-- The calls that make the records. Sides and times in force are integers as the rest. -/
inductive Call where
  | limit (id side tif price qty account : ℤ)
  | market (id side qty account : ℤ)
  | cancel (id : ℤ)
  | modify (id price qty : ℤ)

/-- Bytes and their checksum. -/
def withCrc (body : List UInt8) : Option (List UInt8) := do
  return body ++ (← pack "<I" [(crc32Bitwise body).toNat])

/-- `header`. -/
def header (capacity : ℤ) : Option (List UInt8) := do
  withCrc (magic ++ (← pack "<II" [1, capacity]))

/-- `limit`, `market`, `cancel` and `modify`. -/
def Call.record : Call → Option (List UInt8)
  | .limit id side tif price qty account => do
    withCrc (← pack "<BQBBqII" [1, id, side, tif, price, qty, account])
  | .market id side qty account => do withCrc (← pack "<BQBII" [2, id, side, qty, account])
  | .cancel id => do withCrc (← pack "<BQ" [3, id])
  | .modify id price qty => do withCrc (← pack "<BQqI" [4, id, price, qty])

/-- A journal made of calls: a header and a record for each. -/
def data (capacity : ℤ) (calls : List Call) : Option (List UInt8) := do
  let records ← calls.mapM Call.record
  return (← header capacity) ++ records.flatten

/-! ## The calls for commands -/

/-- The call names its side, and its time in force, by one of the constants for them. -/
def Call.Named : Call → Prop
  | .limit _ side tif _ _ _ => (side = 0 ∨ side = 1) ∧ (tif = 0 ∨ tif = 1 ∨ tif = 2)
  | .market _ side _ _ => side = 0 ∨ side = 1
  | _ => True

/-- The call that makes the record of a command. -/
def callOf (c : Command) : Call :=
  match c.kind with
  | .limit => .limit c.id.toNat (sideByte c.side).toNat (tifByte c.tif).toNat c.price.toInt
      c.qty.toNat c.account.toNat
  | .market => .market c.id.toNat (sideByte c.side).toNat c.qty.toNat c.account.toNat
  | .cancel => .cancel c.id.toNat
  | .modify => .modify c.id.toNat c.price.toInt c.qty.toNat

/-! ## Values -/

section

variable {v : ℤ} {bytes : List UInt8}

/-- The low bytes of a number are those that `put` writes. -/
theorem lowBytes_put (n : UInt64) {k : ℕ} (hk : k ≤ 8) : lowBytes k n.toNat = put n k :=
  lowBytes_eq (length_put n k) (value_put n hk)

/-- What is packed as `B` is a byte. -/
theorem pack_byte :
    Code.pack ⟨1, false⟩ v = some bytes ↔ ∃ b : UInt8, v = b.toNat ∧ bytes = [b] := by
  rw [pack_unsigned]
  constructor
  · rintro ⟨⟨hlow, hhigh⟩, rfl⟩
    have hlt : v.toNat < 2 ^ 8 := by omega
    refine ⟨UInt8.ofNat v.toNat, ?_, rfl⟩
    rw [UInt8.toNat_ofNat_of_lt' hlt]
    omega
  · rintro ⟨b, rfl, rfl⟩
    have hlt := b.toNat_lt
    refine ⟨⟨by omega, by omega⟩, ?_⟩
    rw [Int.toNat_natCast, lowBytes, lowBytes, UInt8.ofNat_toNat]

/-- What is packed as `I` is a number of 32 bits. -/
theorem pack_index : Code.pack ⟨4, false⟩ v = some bytes ↔
    ∃ n : UInt32, v = n.toNat ∧ bytes = put n.toUInt64 4 := by
  have hput : ∀ n : UInt32, lowBytes 4 n.toNat = put n.toUInt64 4 := fun n =>
    lowBytes_put n.toUInt64 (by omega)
  rw [pack_unsigned]
  constructor
  · rintro ⟨⟨hlow, hhigh⟩, rfl⟩
    have hlt : v.toNat < 2 ^ 32 := by omega
    have hn : (UInt32.ofNat v.toNat).toNat = v.toNat := UInt32.toNat_ofNat_of_lt' hlt
    refine ⟨UInt32.ofNat v.toNat, ?_, ?_⟩
    · rw [hn]
      omega
    · rw [← hput, hn]
  · rintro ⟨n, rfl, rfl⟩
    have hlt := n.toNat_lt
    exact ⟨⟨by omega, by omega⟩, (hput n).symm⟩

/-- What is packed as `Q` is a number of 64 bits. -/
theorem pack_id : Code.pack ⟨8, false⟩ v = some bytes ↔
    ∃ n : UInt64, v = n.toNat ∧ bytes = put n 8 := by
  rw [pack_unsigned]
  constructor
  · rintro ⟨⟨hlow, hhigh⟩, rfl⟩
    have hlt : v.toNat < 2 ^ 64 := by omega
    have hn : (UInt64.ofNat v.toNat).toNat = v.toNat := UInt64.toNat_ofNat_of_lt' hlt
    refine ⟨UInt64.ofNat v.toNat, ?_, ?_⟩
    · rw [hn]
      omega
    · rw [← lowBytes_put _ le_rfl, hn]
  · rintro ⟨n, rfl, rfl⟩
    have hlt := n.toNat_lt
    exact ⟨⟨by omega, by omega⟩, (lowBytes_put n le_rfl).symm⟩

/-- A negative number is packed as its two's complement. -/
theorem pack_price : Code.pack ⟨8, true⟩ v = some bytes ↔
    ∃ n : Int64, v = n.toInt ∧ bytes = put n.toUInt64 8 := by
  have hput : ∀ n : Int64, lowBytes 8 (n.toInt % 2 ^ (8 * 8)).toNat = put n.toUInt64 8 := by
    intro n
    have hcomplement : (n.toInt % 2 ^ (8 * 8)).toNat = n.toUInt64.toNat := by
      have h := congrArg BitVec.toNat (BitVec.ofInt_toInt (x := n.toBitVec))
      rw [BitVec.toNat_ofInt] at h
      exact h
    rw [hcomplement, lowBytes_put _ le_rfl]
  rw [pack_signed]
  constructor
  · rintro ⟨⟨hlow, hhigh⟩, rfl⟩
    have hn : (Int64.ofInt v).toInt = v := Int64.toInt_ofInt_of_le hlow hhigh
    refine ⟨Int64.ofInt v, hn.symm, ?_⟩
    rw [← hput, hn]
  · rintro ⟨n, rfl, rfl⟩
    exact ⟨⟨n.le_toInt, n.toInt_lt⟩, (hput n).symm⟩

end

section

variable {letters : List Char} {v : ℤ} {vs : List ℤ} {bytes : List UInt8}

theorem packAll_B : packAll ('B' :: letters) (v :: vs) = some bytes ↔ ∃ b : UInt8, v = b.toNat ∧
    ∃ rest, packAll letters vs = some rest ∧ bytes = [b] ++ rest :=
  packAll_of_type rfl fun _ _ => pack_byte

theorem packAll_I : packAll ('I' :: letters) (v :: vs) = some bytes ↔ ∃ n : UInt32, v = n.toNat ∧
    ∃ rest, packAll letters vs = some rest ∧ bytes = put n.toUInt64 4 ++ rest :=
  packAll_of_type rfl fun _ _ => pack_index

theorem packAll_Q : packAll ('Q' :: letters) (v :: vs) = some bytes ↔ ∃ n : UInt64, v = n.toNat ∧
    ∃ rest, packAll letters vs = some rest ∧ bytes = put n 8 ++ rest :=
  packAll_of_type rfl fun _ _ => pack_id

theorem packAll_q : packAll ('q' :: letters) (v :: vs) = some bytes ↔ ∃ n : Int64, v = n.toInt ∧
    ∃ rest, packAll letters vs = some rest ∧ bytes = put n.toUInt64 8 ++ rest :=
  packAll_of_type rfl fun _ _ => pack_price

/-- The first byte of a record. -/
theorem packAll_kind (k : CommandKind) : packAll ('B' :: letters) ((kindByte k).toNat :: vs) =
    some bytes ↔ ∃ rest, packAll letters vs = some rest ∧ bytes = kindByte k :: rest := by
  rw [packAll_B]
  constructor
  · rintro ⟨b, hb, hrest⟩
    rw [UInt8.toNat_inj.mp (Int.ofNat_inj.mp hb)]
    exact hrest
  · exact fun hrest => ⟨kindByte k, rfl, hrest⟩

end

/-! ## Records -/

/-- The script's checksum is the engine's, one bit at a time and not with a table. -/
theorem withCrc_eq (body : List UInt8) :
    withCrc body = some (body ++ put (crc32 body).toUInt64 4) := by
  have hcrc : crc32Bitwise body = crc32 body := by
    rw [crc32, crc32Bitwise, foldl_crcByte_eq_foldl]
  have hpack : pack "<I" [((crc32 body).toNat : ℤ)] = some (put (crc32 body).toUInt64 4) :=
    packAll_I.mpr ⟨crc32 body, rfl, [], rfl, (List.append_nil _).symm⟩
  rw [withCrc, hcrc, hpack]
  rfl

/-- A record is its body and the checksum of it. -/
theorem record_eq {x : Option (List UInt8)} {bytes : List UInt8} :
    (do withCrc (← x)) = some bytes ↔ ∃ body, x = some body ∧
      bytes = body ++ put (crc32 body).toUInt64 4 := by
  cases x with
  | none => simp
  | some body => simp [withCrc_eq, eq_comm]

section

variable {id side tif price qty account : ℤ} {body : List UInt8}

/-- The body of a limit record. -/
theorem pack_limit : pack "<BQBBqII" [1, id, side, tif, price, qty, account] = some body ↔
    ∃ (n : UInt64) (s t : UInt8) (p : Int64) (q a : UInt32), id = n.toNat ∧ side = s.toNat ∧
      tif = t.toNat ∧ price = p.toInt ∧ qty = q.toNat ∧ account = a.toNat ∧
      body = kindByte .limit :: (put n 8 ++ ([s, t] ++ put p.toUInt64 8 ++ put q.toUInt64 4 ++
        put a.toUInt64 4)) := by
  show packAll ('B' :: ['Q', 'B', 'B', 'q', 'I', 'I'])
    ((kindByte .limit).toNat :: [id, side, tif, price, qty, account]) = _ ↔ _
  rw [packAll_kind]
  simp only [packAll_Q, packAll_B, packAll_q, packAll_I, packAll_nil]
  constructor
  · rintro ⟨_, ⟨n, hid, _, ⟨s, hside, _, ⟨t, htif, _, ⟨p, hprice, _, ⟨q, hqty, _, ⟨a, haccount, _,
      rfl, rfl⟩, rfl⟩, rfl⟩, rfl⟩, rfl⟩, rfl⟩, rfl⟩
    exact ⟨n, s, t, p, q, a, hid, hside, htif, hprice, hqty, haccount, by simp⟩
  · rintro ⟨n, s, t, p, q, a, hid, hside, htif, hprice, hqty, haccount, rfl⟩
    exact ⟨_, ⟨n, hid, _, ⟨s, hside, _, ⟨t, htif, _, ⟨p, hprice, _, ⟨q, hqty, _, ⟨a, haccount, _,
      rfl, rfl⟩, rfl⟩, rfl⟩, rfl⟩, rfl⟩, rfl⟩, by simp⟩

/-- The body of a market record. -/
theorem pack_market : pack "<BQBII" [2, id, side, qty, account] = some body ↔
    ∃ (n : UInt64) (s : UInt8) (q a : UInt32), id = n.toNat ∧ side = s.toNat ∧ qty = q.toNat ∧
      account = a.toNat ∧
      body = kindByte .market :: (put n 8 ++ ([s] ++ put q.toUInt64 4 ++ put a.toUInt64 4)) := by
  show packAll ('B' :: ['Q', 'B', 'I', 'I'])
    ((kindByte .market).toNat :: [id, side, qty, account]) =
    _ ↔ _
  rw [packAll_kind]
  simp only [packAll_Q, packAll_B, packAll_I, packAll_nil]
  constructor
  · rintro ⟨_, ⟨n, hid, _, ⟨s, hside, _, ⟨q, hqty, _, ⟨a, haccount, _, rfl, rfl⟩, rfl⟩, rfl⟩,
      rfl⟩, rfl⟩
    exact ⟨n, s, q, a, hid, hside, hqty, haccount, by simp⟩
  · rintro ⟨n, s, q, a, hid, hside, hqty, haccount, rfl⟩
    exact ⟨_, ⟨n, hid, _, ⟨s, hside, _, ⟨q, hqty, _, ⟨a, haccount, _, rfl, rfl⟩, rfl⟩, rfl⟩, rfl⟩,
      by simp⟩

/-- The body of a cancel record. -/
theorem pack_cancel : pack "<BQ" [3, id] = some body ↔
    ∃ n : UInt64, id = n.toNat ∧ body = kindByte .cancel :: (put n 8 ++ []) := by
  show packAll ('B' :: ['Q']) ((kindByte .cancel).toNat :: [id]) = _ ↔ _
  rw [packAll_kind]
  simp only [packAll_Q, packAll_nil]
  constructor
  · rintro ⟨_, ⟨n, hid, _, rfl, rfl⟩, rfl⟩
    exact ⟨n, hid, rfl⟩
  · rintro ⟨n, hid, rfl⟩
    exact ⟨_, ⟨n, hid, _, rfl, rfl⟩, rfl⟩

/-- The body of a modify record. -/
theorem pack_modify : pack "<BQqI" [4, id, price, qty] = some body ↔
    ∃ (n : UInt64) (p : Int64) (q : UInt32), id = n.toNat ∧ price = p.toInt ∧ qty = q.toNat ∧
      body = kindByte .modify :: (put n 8 ++ (put p.toUInt64 8 ++ put q.toUInt64 4)) := by
  show packAll ('B' :: ['Q', 'q', 'I']) ((kindByte .modify).toNat :: [id, price, qty]) = _ ↔ _
  rw [packAll_kind]
  simp only [packAll_Q, packAll_q, packAll_I, packAll_nil]
  constructor
  · rintro ⟨_, ⟨n, hid, _, ⟨p, hprice, _, ⟨q, hqty, _, rfl, rfl⟩, rfl⟩, rfl⟩, rfl⟩
    exact ⟨n, p, q, hid, hprice, hqty, by simp⟩
  · rintro ⟨n, p, q, hid, hprice, hqty, rfl⟩
    exact ⟨_, ⟨n, hid, _, ⟨p, hprice, _, ⟨q, hqty, _, rfl, rfl⟩, rfl⟩, rfl⟩, by simp⟩

/-- The numbers of a header. -/
theorem pack_header {capacity : ℤ} : pack "<II" [1, capacity] = some body ↔
    ∃ n : UInt32, capacity = n.toNat ∧ body = put kVersion.toUInt64 4 ++ put n.toUInt64 4 := by
  show packAll ['I', 'I'] [(kVersion.toNat : ℤ), capacity] = _ ↔ _
  simp only [packAll_I, packAll_nil]
  constructor
  · rintro ⟨v, hv, _, ⟨n, hcapacity, _, rfl, rfl⟩, rfl⟩
    rw [← UInt32.toNat_inj.mp (Int.ofNat_inj.mp hv)]
    exact ⟨n, hcapacity, by simp⟩
  · rintro ⟨n, hcapacity, rfl⟩
    exact ⟨kVersion, rfl, _, ⟨n, hcapacity, _, rfl, rfl⟩, by simp⟩

end

/-- The headers of the script are those of the source. -/
theorem header_eq_some {capacity : ℤ} {bytes : List UInt8} :
    header capacity = some bytes ↔ ∃ n : Index, capacity = n.toNat ∧ bytes = encodeHeader n := by
  have hmagic : ∀ body : List UInt8, (do withCrc (magic ++ body)) = some bytes ↔
      bytes = magic ++ body ++ put (crc32 (magic ++ body)).toUInt64 4 := by
    intro body
    rw [withCrc_eq, Option.some_inj, eq_comm]
  have hbody : ∀ n : Index, magic ++ (put kVersion.toUInt64 4 ++ put n.toUInt64 4) = headerBody n :=
    fun n => (List.append_assoc ..).symm
  unfold header
  simp only [Option.bind_eq_bind, Option.bind_eq_some_iff]
  constructor
  · rintro ⟨body, hpack, hbytes⟩
    obtain ⟨n, hcapacity, rfl⟩ := pack_header.mp hpack
    rw [hmagic, hbody] at hbytes
    exact ⟨n, hcapacity, hbytes⟩
  · rintro ⟨n, hcapacity, rfl⟩
    refine ⟨_, pack_header.mpr ⟨n, hcapacity, rfl⟩, ?_⟩
    rw [hmagic, hbody]
    rfl

/-- The numbers of the sides. -/
theorem side_eq {v : ℤ} : (v = 0 ∨ v = 1) ↔ ∃ side, v = (sideByte side).toNat := by
  constructor
  · rintro (rfl | rfl)
    · exact ⟨.buy, rfl⟩
    · exact ⟨.sell, rfl⟩
  · rintro ⟨side, rfl⟩
    cases side
    · exact Or.inl rfl
    · exact Or.inr rfl

/-- The numbers of the times in force. -/
theorem tif_eq {v : ℤ} : (v = 0 ∨ v = 1 ∨ v = 2) ↔ ∃ tif, v = (tifByte tif).toNat := by
  constructor
  · rintro (rfl | rfl | rfl)
    · exact ⟨.gtc, rfl⟩
    · exact ⟨.ioc, rfl⟩
    · exact ⟨.fok, rfl⟩
  · rintro ⟨tif, rfl⟩
    cases tif
    · exact Or.inl rfl
    · exact Or.inr (Or.inl rfl)
    · exact Or.inr (Or.inr rfl)

/-- The record of a command is what its call writes. -/
theorem record_callOf (c : Command) : (callOf c).record = some (encode c) ∧ (callOf c).Named := by
  unfold callOf encode recordBody payload
  cases c.kind with
  | limit =>
    exact ⟨record_eq.mpr
      ⟨_, pack_limit.mpr ⟨_, _, _, _, _, _, rfl, rfl, rfl, rfl, rfl, rfl, rfl⟩, rfl⟩,
      side_eq.mpr ⟨c.side, rfl⟩, tif_eq.mpr ⟨c.tif, rfl⟩⟩
  | market =>
    exact ⟨record_eq.mpr ⟨_, pack_market.mpr ⟨_, _, _, _, rfl, rfl, rfl, rfl, rfl⟩, rfl⟩,
      side_eq.mpr ⟨c.side, rfl⟩⟩
  | cancel =>
    exact ⟨record_eq.mpr ⟨_, pack_cancel.mpr ⟨_, rfl, rfl⟩, rfl⟩, trivial⟩
  | modify =>
    exact ⟨record_eq.mpr ⟨_, pack_modify.mpr ⟨_, _, _, rfl, rfl, rfl, rfl⟩, rfl⟩, trivial⟩

/-- A call that writes a record, and names its side and its time in force, is one for a command. -/
theorem call_of_record {call : Call} {bytes : List UInt8} (h : call.record = some bytes)
    (hnamed : call.Named) : ∃ c, Canonical c ∧ call = callOf c := by
  cases call with
  | limit id side tif price qty account =>
    obtain ⟨hside, htif⟩ := hnamed
    obtain ⟨s, hside⟩ := side_eq.mp hside
    obtain ⟨t, htif⟩ := tif_eq.mp htif
    obtain ⟨body, hpack, -⟩ := record_eq.mp h
    obtain ⟨n, -, -, p, q, a, hid, -, -, hprice, hqty, haccount, -⟩ := pack_limit.mp hpack
    refine ⟨limitCommand n s p q a t, rfl, ?_⟩
    rw [hid, hside, htif, hprice, hqty, haccount]
    rfl
  | market id side qty account =>
    obtain ⟨s, hside⟩ := side_eq.mp hnamed
    obtain ⟨body, hpack, -⟩ := record_eq.mp h
    obtain ⟨n, -, q, a, hid, -, hqty, haccount, -⟩ := pack_market.mp hpack
    refine ⟨marketCommand n s q a, rfl, ?_⟩
    rw [hid, hside, hqty, haccount]
    rfl
  | cancel id =>
    obtain ⟨body, hpack, -⟩ := record_eq.mp h
    obtain ⟨n, hid, -⟩ := pack_cancel.mp hpack
    refine ⟨cancelCommand n, rfl, ?_⟩
    rw [hid]
    rfl
  | modify id price qty =>
    obtain ⟨body, hpack, -⟩ := record_eq.mp h
    obtain ⟨n, p, q, hid, hprice, hqty, -⟩ := pack_modify.mp hpack
    refine ⟨modifyCommand n p q, rfl, ?_⟩
    rw [hid, hprice, hqty]
    rfl

/-! ## The journal -/

/-- The calls for some commands make their records. -/
theorem mapM_callOf (cmds : List Command) :
    (cmds.map callOf).mapM Call.record = some (cmds.map encode) := by
  induction cmds with
  | nil => rfl
  | cons c cmds ih =>
    rw [List.map_cons, List.mapM_cons, (record_callOf c).1, ih]
    rfl

/-- Calls that make records are those for some commands. -/
theorem calls_of_records : ∀ {calls : List Call} {records : List (List UInt8)},
    calls.mapM Call.record = some records → (∀ call ∈ calls, call.Named) →
      ∃ cmds : List Command, (∀ c ∈ cmds, Canonical c) ∧ calls = cmds.map callOf := by
  intro calls
  induction calls with
  | nil => exact fun _ _ => ⟨[], fun _ h => absurd h List.not_mem_nil, rfl⟩
  | cons call calls ih =>
    intro records h hnamed
    rw [List.forall_mem_cons] at hnamed
    rw [List.mapM_cons] at h
    simp only [Option.bind_eq_bind, Option.bind_eq_some_iff] at h
    obtain ⟨bytes, hrecord, rest, hrest, -⟩ := h
    obtain ⟨c, hc, rfl⟩ := call_of_record hrecord hnamed.1
    obtain ⟨cmds, hcmds, rfl⟩ := ih hrest hnamed.2
    exact ⟨c :: cmds, List.forall_mem_cons.mpr ⟨hc, hcmds⟩, rfl⟩

/-- **The second opinion agrees.** For integers of any size, the script writes a journal exactly
if its arguments are a capacity and commands, and then it is the engine's journal of them, byte
for byte. -/
theorem second_opinion (capacity : ℤ) (calls : List Call) (bytes : List UInt8) :
    data capacity calls = some bytes ∧ (∀ call ∈ calls, call.Named) ↔
      ∃ (n : Index) (cmds : List Command), (∀ c ∈ cmds, Canonical c) ∧ capacity = n.toNat ∧
        calls = cmds.map callOf ∧
        bytes = journalBytes n cmds := by
  have hdata : data capacity calls = some bytes ↔ ∃ records head,
      calls.mapM Call.record = some records ∧ header capacity = some head ∧
        bytes = head ++ records.flatten := by
    unfold data
    simp only [Option.bind_eq_bind, Option.bind_eq_some_iff, Option.pure_def, Option.some_inj]
    constructor
    · rintro ⟨records, hrecords, head, hhead, rfl⟩
      exact ⟨records, head, hrecords, hhead, rfl⟩
    · rintro ⟨records, head, hrecords, hhead, rfl⟩
      exact ⟨records, hrecords, head, hhead, rfl⟩
  rw [hdata]
  constructor
  · rintro ⟨⟨records, head, hrecords, hhead, rfl⟩, hnamed⟩
    obtain ⟨n, hcapacity, rfl⟩ := header_eq_some.mp hhead
    obtain ⟨cmds, hcmds, rfl⟩ := calls_of_records hrecords hnamed
    rw [mapM_callOf, Option.some_inj] at hrecords
    exact ⟨n, cmds, hcmds, hcapacity, rfl, by rw [← hrecords]; rfl⟩
  · rintro ⟨n, cmds, -, hcapacity, rfl, rfl⟩
    refine ⟨⟨_, _, mapM_callOf cmds, header_eq_some.mpr ⟨n, hcapacity, rfl⟩, rfl⟩, ?_⟩
    rw [List.forall_mem_map]
    exact fun c _ => (record_callOf c).2

end JournalGolden

end MatchingEngine
