import MatchingEngine.Book.Command
import Mathlib.Logic.Function.Iterate

/-!
# The command journal

`include/engine/journal.hpp`: the encoding of commands as bytes, and the reader.

Bytes are lists. The encoder puts them out in order, so a position in its buffer is a place in
the list. Every access of the reader to its data is checked (`bytesAt`), and a read at or
beyond the size is the fault `Fault.outOfRange`.
-/

namespace MatchingEngine

namespace Journal

/-- `LOMEJRNL`. -/
def kMagic : List UInt8 := [0x4C, 0x4F, 0x4D, 0x45, 0x4A, 0x52, 0x4E, 0x4C]

/-- The version of the format. -/
def kVersion : UInt32 := 1

/-- The bytes of a header. -/
def kHeaderSize : ℕ := 20

/-! ## Checksums -/

/-- One round of the loop that fills an entry of the table. -/
def crcRound (c : UInt32) : UInt32 :=
  if c &&& 1 ≠ 0 then (0xEDB88320 : UInt32) ^^^ (c >>> 1) else c >>> 1

/-- `make_crc_table`: eight rounds for every byte. -/
def makeCrcTable : Array UInt32 := Array.ofFn fun i : Fin 256 => crcRound^[8] (UInt32.ofNat i)

/-- The table, made once. -/
def kCrcTable : Array UInt32 := makeCrcTable

/-- One round of the loop of `crc32`. -/
def crcByte (c : UInt32) (b : UInt8) : UInt32 :=
  kCrcTable[((c ^^^ b.toUInt32) &&& 0xFF).toNat]! ^^^ (c >>> 8)

/-- `crc32`. -/
def crc32 (data : List UInt8) : UInt32 := data.foldl crcByte 0xFFFFFFFF ^^^ 0xFFFFFFFF

/-! ## Integers -/

/-- `put`: a number in little endian. -/
def put (v : UInt64) (bytes : ℕ) : List UInt8 :=
  (List.range bytes).map fun i => (v >>> UInt64.ofNat (8 * i)).toUInt8

/-- The loop of `get`, from byte `i` on. -/
def getFrom : ℕ → UInt64 → List UInt8 → UInt64
  | _, v, [] => v
  | i, v, b :: bytes => getFrom (i + 1) (v ||| (b.toUInt64 <<< UInt64.ofNat (8 * i))) bytes

/-- `get`: the number that some bytes spell. -/
def get (bytes : List UInt8) : UInt64 := getFrom 0 0 bytes

/-! ## Enumerations -/

/-- The kind byte of a record. -/
def kindByte : CommandKind → UInt8
  | .limit => 1
  | .market => 2
  | .cancel => 3
  | .modify => 4

/-- The byte of a side. -/
def sideByte : Side → UInt8
  | .buy => 0
  | .sell => 1

/-- The byte of a time in force. -/
def tifByte : TimeInForce → UInt8
  | .gtc => 0
  | .ioc => 1
  | .fok => 2

/-- The cast of a byte to a side. The reader casts 0 and 1 only. -/
def sideOf (b : UInt8) : Side := if b = 0 then .buy else .sell

/-- The cast of a byte to a time in force. The reader casts 0, 1 and 2 only. -/
def tifOf (b : UInt8) : TimeInForce := if b = 0 then .gtc else if b = 1 then .ioc else .fok

/-- `payload_size`: the bytes after the kind byte and before the checksum. -/
def payloadSize (kind : UInt8) : ℕ :=
  if kind = kindByte .limit then 8 + 1 + 1 + 8 + 4 + 4
  else if kind = kindByte .market then 8 + 1 + 4 + 4
  else if kind = kindByte .cancel then 8
  else if kind = kindByte .modify then 8 + 8 + 4
  else 0

/-! ## Encoding -/

/-- What comes before the checksum of the header. -/
def headerBody (poolCapacity : Index) : List UInt8 :=
  kMagic ++ put kVersion.toUInt64 4 ++ put poolCapacity.toUInt64 4

/-- `encode_header`. -/
def encodeHeader (poolCapacity : Index) : List UInt8 :=
  headerBody poolCapacity ++ put (crc32 (headerBody poolCapacity)).toUInt64 4

/-- The fields that mean something for the kind. -/
def payload (c : Command) : List UInt8 :=
  put c.id 8 ++
    match c.kind with
    | .limit =>
      [sideByte c.side, tifByte c.tif] ++ put c.price.toUInt64 8 ++ put c.qty.toUInt64 4 ++
        put c.account.toUInt64 4
    | .market => [sideByte c.side] ++ put c.qty.toUInt64 4 ++ put c.account.toUInt64 4
    | .cancel => []
    | .modify => put c.price.toUInt64 8 ++ put c.qty.toUInt64 4

/-- What comes before the checksum of a record. -/
def recordBody (c : Command) : List UInt8 := kindByte c.kind :: payload c

/-- `encode`: the body of a record and its checksum. -/
def encode (c : Command) : List UInt8 := recordBody c ++ put (crc32 (recordBody c)).toUInt64 4

/-- The records of some commands. -/
def encodeAll (cmds : List Command) : List UInt8 := (cmds.map encode).flatten

/-- The file that a writer leaves: the header and the records. -/
def journalBytes (poolCapacity : Index) (cmds : List Command) : List UInt8 :=
  encodeHeader poolCapacity ++ encodeAll cmds

/-! ## The reader -/

/-- `Status`: why a call of the reader ended. -/
inductive Status where
  /-- A record was read. -/
  | ok
  /-- The data ended exactly after a record. -/
  | end
  /-- The data ended inside a header or a record. -/
  | truncated
  /-- The bytes are all there and the checksum does not match. -/
  | badChecksum
  /-- The first byte of the record is not a command kind. -/
  | badKind
  /-- The checksum matches but a field holds a value that cannot be. -/
  | badField
deriving DecidableEq

/-- Read `n` bytes from position `pos` on. -/
def bytesAt (data : List UInt8) (pos n : ℕ) : Checked (List UInt8) :=
  if pos + n ≤ data.length then return (data.drop pos).take n else throw .outOfRange

/-- A byte of the data. -/
def byteAt (data : List UInt8) (pos : ℕ) : Checked UInt8 := orFault data[pos]? .outOfRange

/-- Read an integer of `n` bytes at position `pos`. -/
def fieldAt (data : List UInt8) (pos n : ℕ) : Checked UInt64 := do
  let bytes ← bytesAt data pos n
  return get bytes

/-- The fields of a record with a known kind. There is no command if one is out of range. -/
def decode (rec : List UInt8) : Checked (Option Command) := do
  let kind ← byteAt rec 0
  let id ← fieldAt rec 1 8
  if kind = kindByte .limit then
    let side ← byteAt rec 9
    if side > 1 then return none
    let tif ← byteAt rec 10
    if tif > 2 then return none
    let price ← fieldAt rec 11 8
    let qty ← fieldAt rec 19 4
    let account ← fieldAt rec 23 4
    return some
      { kind := .limit, id, side := sideOf side, tif := tifOf tif, price := price.toInt64
        qty := qty.toUInt32, account := account.toUInt32 }
  else if kind = kindByte .market then
    let side ← byteAt rec 9
    if side > 1 then return none
    let qty ← fieldAt rec 10 4
    let account ← fieldAt rec 14 4
    return some
      { kind := .market, id, side := sideOf side, qty := qty.toUInt32
        account := account.toUInt32 }
  else if kind = kindByte .cancel then return some { kind := .cancel, id }
  else
    let price ← fieldAt rec 9 8
    let qty ← fieldAt rec 17 4
    return some { kind := .modify, id, price := price.toInt64, qty := qty.toUInt32 }

/-- A reader of data in memory. It never gets beyond the end. -/
structure Reader where
  data : List UInt8
  pos : ℕ := 0
  capacity : Index := 0
  inside : pos ≤ data.length := by omega

namespace Reader

/-- The constructor: a reader at the beginning of the data. -/
def new (data : List UInt8) : Reader where
  data := data
  inside := Nat.zero_le _

/-- The bytes of the data. -/
def size (r : Reader) : ℕ := r.data.length

/-- `pool_capacity`, from the header. -/
def poolCapacity (r : Reader) : Index := r.capacity

/-- `valid_bytes`: what is behind them was not accepted. -/
def validBytes (r : Reader) : ℕ := r.pos

/-- Move on by `n` bytes. -/
def advance (r : Reader) (n : ℕ) (h : n ≤ r.size - r.pos) : Reader :=
  { r with
    pos := r.pos + n
    inside := by
      have hsize : r.size = r.data.length := rfl
      have hinside := r.inside
      omega }

/-- `open`, a keyword here. -/
def openHeader (r : Reader) : Checked (Reader × Status) :=
  if h : r.size < kHeaderSize then return (r, .truncated)
  else do
    let magic ← bytesAt r.data 0 8
    if magic ≠ kMagic then return (r, .badField)
    let body ← bytesAt r.data 0 16
    let stored ← fieldAt r.data 16 4
    if (crc32 body).toUInt64 ≠ stored then return (r, .badChecksum)
    let version ← fieldAt r.data 8 4
    if version ≠ kVersion.toUInt64 then return (r, .badField)
    let capacity ← fieldAt r.data 12 4
    return ({ r with
      pos := kHeaderSize, capacity := capacity.toUInt32, inside := Nat.le_of_not_lt h }, .ok)

/-- Read the next record into `out`. -/
def next (r : Reader) (out : Command) : Checked (Reader × Command × Status) :=
  if r.pos = r.size then return (r, out, .end)
  else do
    let kind ← byteAt r.data r.pos
    let body := payloadSize kind + 1
    if body = 1 then return (r, out, .badKind)
    if h : r.size - r.pos < body + 4 then return (r, out, .truncated)
    else
      let rec ← bytesAt r.data r.pos body
      let stored ← fieldAt r.data (r.pos + body) 4
      if (crc32 rec).toUInt64 ≠ stored then return (r, out, .badChecksum)
      match ← decode rec with
      | none => return (r, out, .badField)
      | some c => return (r.advance (body + 4) (Nat.le_of_not_lt h), c, .ok)

end Reader

/-- A caller that reads until the first status that is not `ok`. The loop carries a bound, and
the fault `Fault.diverges` if it runs out. -/
def readFrom : ℕ → Reader → Command → Checked (Reader × List Command × Status)
  | 0, _, _ => throw .diverges
  | fuel + 1, r, out => do
    let (r, c, status) ← r.next out
    if status = .ok then
      let (r, cs, status) ← readFrom fuel r c
      return (r, c :: cs, status)
    else return (r, [], status)

/-- Open the data and read all of it. -/
def readAll (data : List UInt8) : Checked (Reader × List Command × Status) := do
  let (r, status) ← (Reader.new data).openHeader
  if status = .ok then readFrom (data.length + 1) r {} else return (r, [], status)

end Journal

end MatchingEngine
