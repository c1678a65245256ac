import MatchingEngine.Diff.Fuzz
import MatchingEngine.Replay.ReplayTheorems

/-!
# The golden files

`tests/replay/test_golden.cpp`: a journal, its event log and its book, kept as three texts. The
check replays the journal and compares the texts; an update writes them anew.

A file is the text in it. A `CHECK` that fails is the fault `Fault.assertion`, and an abort with
a message of its own ends with the code that a shell sees.
-/

namespace MatchingEngine

namespace Replay

open Journal Diff

/-- The seed of the committed stream. -/
def kSeed : UInt64 := 7

/-- How many commands are drawn. -/
def kCommands : UInt64 := 400

/-- The capacity of that book. -/
def kCapacity : Index := 16

/-! ## Bytes as text -/

/-- The hexadecimal digits. -/
def digits : Text := "0123456789abcdef".toList

/-- The loop of `to_hex` over `size` bytes, from byte `i` on. -/
def toHexFrom (size : ℕ) : ℕ → List UInt8 → Text → Text
  | _, [], out => out
  | i, b :: bytes, out =>
    let out := out ++ [digits[(b >>> 4).toNat]!, digits[(b &&& 15).toNat]!]
    let out := if i % 16 = 15 ∨ i + 1 = size then out ++ ['\n'] else out
    toHexFrom size (i + 1) bytes out

/-- `to_hex`: 16 bytes to a line. -/
def toHex (bytes : List UInt8) : Text := toHexFrom bytes.length 0 bytes []

/-- What a digit stands for, where the source has -1 for none. -/
def hexValue (ch : Char) : Option ℕ :=
  if '0' ≤ ch ∧ ch ≤ '9' then some (ch.toNat - '0'.toNat)
  else if 'a' ≤ ch ∧ ch ≤ 'f' then some (ch.toNat - 'a'.toNat + 10)
  else none

/-- The loop of `from_hex`. A byte is begun if `high` is there. -/
def fromHexFrom : Option ℕ → List UInt8 → Text → Bool × List UInt8
  | high, out, [] => (high.isNone, out)
  | high, out, ch :: text =>
    if ch = '\n' then fromHexFrom high out text
    else
      match hexValue ch with
      | none => (false, out)
      | some v =>
        match high with
        | none => fromHexFrom (some v) out text
        | some high => fromHexFrom none (out ++ [UInt8.ofNat (high * 16 + v)]) text

/-- `from_hex`. -/
def fromHex (text : Text) : Bool × List UInt8 := fromHexFrom none [] text

/-! ## What is reported -/

/-- Where two texts differ first, or where the shorter one ends. -/
def firstDifference : Text → Text → ℕ
  | a :: want, b :: got => if a = b then firstDifference want got + 1 else 0
  | _, _ => 0

/-- `rfind` of a newline: the last one at position `i` or before. -/
def rfindNewline (s : Text) : ℕ → Option ℕ
  | 0 => if s[0]? = some '\n' then some 0 else none
  | i + 1 => if s[i + 1]? = some '\n' then some (i + 1) else rfindNewline s i

/-- `find` of a newline: the first one at position `i` or behind it. -/
def findNewline (s : Text) (i : ℕ) : Option ℕ := ((s.drop i).idxOf? '\n').map (i + ·)

/-- Where the line around position `i` begins. -/
def lineStart (i : ℕ) (s : Text) : ℕ :=
  match rfindNewline s (if i = 0 then 0 else i - 1) with
  | none => 0
  | some b => if i = 0 then 0 else b + 1

/-- `line_at`: the line around position `i`. -/
def lineAt (i : ℕ) (s : Text) : Text :=
  match findNewline s i with
  | none => s.drop (lineStart i s)
  | some e => (s.drop (lineStart i s)).take (e - lineStart i s)

/-- A string as `%s` prints it, up to the first null character. -/
def cStr (s : Text) : Text := s.takeWhile (· ≠ Char.ofNat 0)

/-- The report on a line. It shows the two versions as `%s` prints them. -/
def differs (what : String) (lineNo : ℕ) (committed replayed : Text) : Text :=
  format [.text "golden ", .text what, .text " differs at line ", .unsigned lineNo,
    .text "\n  committed: "] ++ cStr committed ++ format [.text "\n  replayed:  "] ++
    cStr replayed ++
    format [.text "\nIf the change is intended, run: test_golden --update\n"]

/-- `report_difference`: the first line that differs, by number, with its two versions. -/
def reportDifference (what : String) (want got : Text) : Text :=
  let i := firstDifference want got
  differs what (1 + (want.take i).count '\n') (lineAt i want) (lineAt i got)

/-- `same`, with what it reports. -/
def same (what : String) (want got : Text) : Bool × Text :=
  if want = got then (true, []) else (false, reportDifference what want got)

/-! ## Coverage -/

/-- What a log has to reach to be worth keeping. -/
def needles : List String :=
  ["limit id=", "market id=", "cancel id=", "modify id=", "tif=ioc", "tif=fok", "  trade seq=",
    "stp=1", "full=1", "ok=0", "ok=1"]

/-- `check_coverage`: the message about the first of `needles` that is missing. -/
def checkCoverage (log : Text) : Option Text :=
  (needles.find? fun needle => !decide (needle.toList <:+: log)).map fun needle =>
    format [.text "golden stream never reaches '", .text needle,
      .text "'; pick another seed\n"]

/-- The code of a program that has aborted. -/
def aborted : ℕ := 134

/-! ## The program -/

/-- The three files. -/
structure Golden where
  hex : Text
  events : Text
  book : Text
deriving DecidableEq

/-- `generate`, whose arguments are constants in the source. -/
def generate (seed : UInt64 := kSeed) (n : UInt64 := kCommands) (capacity : Index := kCapacity) :
    Checked (List UInt8 × Replayed) := do
  let journal := journalBytes capacity (← make seed n)
  let (opened, replayed) ← replay journal
  require opened .assertion
  return (journal, replayed)

/-- `main` with `--update`: the files it writes into the directory. -/
def goldenUpdate (dir : String) (seed : UInt64 := kSeed) (n : UInt64 := kCommands)
    (capacity : Index := kCapacity) : Checked (Exit × Option Golden) := do
  let (journal, replayed) ← generate seed n capacity
  match checkCoverage replayed.log with
  | some err => return ({ code := aborted, err }, none)
  | none =>
    return ({
      code := 0
      out := format [.text "wrote ", .text dir, .text ": ", .unsigned replayed.commands.toNat,
        .text " commands, ", .unsigned journal.length, .text " journal bytes\n"] },
      some { hex := toHex journal, events := replayed.log, book := replayed.book })

/-- What the comparisons with the committed files report. -/
def compared (committed replayed : Golden) : Exit :=
  let (sameLog, logErr) := same "event log" committed.events replayed.events
  let (sameBook, bookErr) := same "book" committed.book replayed.book
  let (sameBytes, bytesErr) := same "journal bytes" committed.hex replayed.hex
  let err := logErr ++ bookErr ++ bytesErr
  if sameLog && sameBook && sameBytes then
    { code := 0, out := format [.text "golden ok\n"], err }
  else { code := 1, err }

/-- `main` without arguments. -/
def goldenCheck (files : Golden) : Checked Exit := do
  let (read, bytes) := fromHex files.hex
  require read .assertion
  let (opened, r) ← replay bytes
  require opened .assertion
  require (r.stop = .end) .assertion
  require (r.validBytes = bytes.length) .assertion
  match checkCoverage files.events with
  | some err => return { code := aborted, err }
  | none =>
    let (reader, status) ← (Reader.new bytes).openHeader
    require (status = .ok) .assertion
    let (reader, cmds, _) ← readFrom (bytes.length + 1) reader {}
    return compared files
      { hex := toHex (journalBytes reader.poolCapacity cmds), events := r.log, book := r.book }

end Replay

end MatchingEngine
