import MatchingEngine.Journal.Journal
import MatchingEngine.Library.Interaction
import Mathlib.Data.Int.Notation

/-!
# The command journal — the writer

`journal::Writer` over `stdio`. Of `stdio` nothing more is assumed than this: what is handed to
`fwrite` reaches the file in order, as some prefix of all that was handed to it; it may do so at
any time, or never; and it has done so when `fflush` succeeds after writes that were all full.
-/

namespace MatchingEngine

namespace Journal

open Interaction

/-! ## The system -/

/-- A file that is open for writing. The bytes handed to `fwrite` that are not in the file yet
are in a buffer, or lost. -/
structure Stream where
  handed : List UInt8 := []
  /-- What is in the file. -/
  delivered : List UInt8 := []
  /-- Every `fwrite` so far took all bytes it was handed. -/
  full : Bool := true
  inOrder : delivered <+: handed := by exact List.prefix_rfl

/-- Hand bytes to the stream, of which `n` are reported as taken. -/
def Stream.hand (s : Stream) (bytes : List UInt8) (n : ℕ) : Stream where
  handed := s.handed ++ bytes
  delivered := s.delivered
  full := s.full && decide (n = bytes.length)
  inOrder := s.inOrder.trans (List.prefix_append ..)

/-- The calls that the writer makes. -/
inductive Call where
  | fopen
  | fwrite (bytes : List UInt8)
  | fflush
  | fclose

/-- What a call returns: whether there is a file, how many bytes were taken, 0 on success. -/
@[reducible] def Answer : Call → Type
  | .fopen => Bool
  | .fwrite _ => ℕ
  | .fflush => ℤ
  | .fclose => Unit

/-- `fopen` with mode `wb` empties the file. -/
def answers (s : Stream) : (call : Call) → Answer call → Stream → Prop
  | .fopen, opened, s' => s' = if opened then {} else s
  | .fwrite bytes, n, s' => s' = s.hand bytes n
  | .fflush, r, s' => s' = s ∧ (r = 0 → s.full = true → s.delivered = s.handed)
  | .fclose, _, s' => s' = s

/-- More of what was handed to the stream reaches the file. -/
def drift (s s' : Stream) : Prop :=
  s'.handed = s.handed ∧ s'.full = s.full ∧ s.delivered <+: s'.delivered

/-- The system that the writer runs on. -/
def stdio : System Answer Stream where
  answers
  drift
  drift_refl _ := ⟨rfl, rfl, List.prefix_rfl⟩
  drift_trans h h' := ⟨h'.1.trans h.1, h'.2.1.trans h.2.1, h.2.2.trans h'.2.2⟩

/-! ## The writer -/

/-- `Writer`: whether it has a file, and whether a write has failed. -/
structure Writer where
  /-- `file_` is not null. -/
  file : Bool := false
  failed : Bool := false
deriving DecidableEq

namespace Writer

/-- `Writer::write`. -/
def write (w : Writer) (bytes : List UInt8) : Prog Answer (Writer × Bool) :=
  if w.file = false ∨ w.failed = true then pure (w, false)
  else do
    let n ← Prog.perform (.fwrite bytes)
    if n ≠ bytes.length then pure ({ w with failed := true }, false)
    else do
      let r ← Prog.perform .fflush
      if r ≠ 0 then pure ({ w with failed := true }, false)
      else pure (w, true)

/-- `append`: write the record of a command. -/
def append (w : Writer) (c : Command) : Prog Answer (Writer × Bool) := w.write (encode c)

/-- `close`. -/
def close (w : Writer) : Prog Answer Writer :=
  if w.file = true then do
    let _ ← Prog.perform .fclose
    pure { w with file := false }
  else pure { w with file := false }

/-- `Writer::open`. -/
def openFile (w : Writer) (capacity : Index) : Prog Answer (Writer × Bool) := do
  let w ← w.close
  let opened ← Prog.perform .fopen
  if opened = false then pure ({ w with file := false, failed := false }, false)
  else write { w with file := true, failed := false } (encodeHeader capacity)

end Writer

/-! ## What a program does with a writer -/

/-- The file was opened, the commands of `log` were appended, each with what `append` returned,
and the writer may have been closed. -/
inductive Session (capacity : Index) : List (Command × Bool) → Writer → Stream → Prop where
  | opened {w w' : Writer} {s s' : Stream}
      (h : Reaches stdio s (w.openFile capacity) s' (.ret (w', true))) : Session capacity [] w' s'
  | append {log : List (Command × Bool)} {w w' : Writer} {s s' : Stream} {c : Command} {ok : Bool}
      (h : Session capacity log w s) (hr : Reaches stdio s (w.append c) s' (.ret (w', ok))) :
      Session capacity (log ++ [(c, ok)]) w' s'
  | close {log : List (Command × Bool)} {w w' : Writer} {s s' : Stream}
      (h : Session capacity log w s) (hr : Reaches stdio s w.close s' (.ret w')) :
      Session capacity log w' s'

/-- The program was stopped, between calls or in the middle of one, and left the file as it is:
the command of an `append` that has not returned is in progress. -/
inductive Stopped (capacity : Index) :
    List (Command × Bool) → Option Command → List UInt8 → Prop where
  | between {log : List (Command × Bool)} {w : Writer} {s s' : Stream}
      (h : Session capacity log w s) (hd : drift s s') : Stopped capacity log none s'.delivered
  | appending {log : List (Command × Bool)} {w : Writer} {s s' : Stream} {c : Command}
      {p : Prog Answer (Writer × Bool)} (h : Session capacity log w s)
      (hr : Reaches stdio s (w.append c) s' p) : Stopped capacity log (some c) s'.delivered
  | closing {log : List (Command × Bool)} {w : Writer} {s s' : Stream} {p : Prog Answer Writer}
      (h : Session capacity log w s) (hr : Reaches stdio s w.close s' p) :
      Stopped capacity log none s'.delivered

end Journal

end MatchingEngine
