import MatchingEngine.Book.Refinement
import MatchingEngine.Replay.Lines
import MatchingEngine.Journal.JournalCodec
import MatchingEngine.Library.Delimited

/-!
# The texts lose nothing

The log and the book dump can be read in only one way. A line is made of fields, each a name
that begins with a blank and a value without one, so the values can be read off
(`Fields.render_eq`). No line has a newline in it, and the line of a command begins with `#`
while those of its trades do not, so the lines can be read off the text and the commands off
the lines (`log_injective`, `bookText_injective`).
-/

namespace MatchingEngine

namespace Replay

open Delimited Journal

/-! ## Values -/

/-- A piece that ends at the first blank, and in its line. -/
def Word (p : Piece) : Prop := ' ' ∉ p.render ∧ '\n' ∉ p.render

theorem word_unsigned (n : ℕ) : Word (.unsigned n) := by
  have hdigits : ∀ c ∈ (Piece.unsigned n).render, c.isDigit = true := fun c hc =>
    Nat.isDigit_of_mem_toDigits (by omega) (by omega) hc
  constructor
  · exact fun h => absurd (hdigits _ h) (by decide)
  · exact fun h => absurd (hdigits _ h) (by decide)

theorem word_signed (n : ℤ) : Word (.signed n) := by
  cases n with
  | ofNat n => exact word_unsigned n
  | negSucc n =>
    obtain ⟨hblank, hnewline⟩ := word_unsigned (n + 1)
    constructor
    · exact List.not_mem_cons_of_ne_of_not_mem (by decide) hblank
    · exact List.not_mem_cons_of_ne_of_not_mem (by decide) hnewline

theorem word_bit (b : Bool) : Word (bit b) := word_signed _

theorem word_sideName (side : Side) : Word (sideName side) := by
  cases side <;> exact ⟨by decide, by decide⟩

theorem word_tifName (tif : TimeInForce) : Word (tifName tif) := by
  cases tif <;> exact ⟨by decide, by decide⟩

/-- Different numbers print differently. -/
@[simp] theorem render_unsigned_inj {n m : ℕ} :
    (Piece.unsigned n).render = (Piece.unsigned m).render ↔ n = m := by
  constructor
  · intro h
    rw [← @Nat.ofDigitChars_ten_toDigits n, ← @Nat.ofDigitChars_ten_toDigits m]
    exact congrArg (Nat.ofDigitChars 10 · 0) h
  · exact fun h => congrArg (fun n => (Piece.unsigned n).render) h

/-- A number with a sign is not one without. -/
theorem render_negSucc_ne (n m : ℕ) :
    (Piece.signed (.negSucc n)).render ≠ (Piece.unsigned m).render := by
  intro h
  have hmem : '-' ∈ (Piece.unsigned m).render := by
    rw [← h]
    exact List.mem_cons_self
  have hdigit := Nat.isDigit_of_mem_toDigits (by omega) (by omega) hmem
  exact absurd hdigit (by decide)

/-- Different signed numbers print differently. -/
@[simp] theorem render_signed_inj {n m : ℤ} :
    (Piece.signed n).render = (Piece.signed m).render ↔ n = m := by
  constructor
  · intro h
    cases n with
    | ofNat n =>
      cases m with
      | ofNat m => exact congrArg Int.ofNat (render_unsigned_inj.mp h)
      | negSucc m => exact absurd h.symm (render_negSucc_ne m n)
    | negSucc n =>
      cases m with
      | ofNat m => exact absurd h (render_negSucc_ne n m)
      | negSucc m =>
        have heq : n + 1 = m + 1 := render_unsigned_inj.mp (List.cons.inj h).2
        rw [Nat.succ.inj heq]
  · exact fun h => congrArg (fun n => (Piece.signed n).render) h

@[simp] theorem render_bit_inj {b b' : Bool} : (bit b).render = (bit b').render ↔ b = b' := by
  rw [bit, bit, render_signed_inj]
  cases b <;> cases b' <;> decide

@[simp] theorem render_sideName_inj {side side' : Side} :
    (sideName side).render = (sideName side').render ↔ side = side' := by
  cases side <;> cases side' <;> decide

/-- Different times in force print differently. -/
@[simp] theorem render_tifName_inj {tif tif' : TimeInForce} :
    (tifName tif).render = (tifName tif').render ↔ tif = tif' := by
  cases tif <;> cases tif' <;> decide

/-! ## Fields -/

theorem format_cons (p : Piece) (ps : List Piece) : format (p :: ps) = p.render ++ format ps := rfl

/-- Two lists of fields with the same names: a name begins with a blank, a value has none. -/
inductive Fields : List Piece → List Piece → Prop
  | nil : Fields [] []
  | cons {name : String} {p p' : Piece} {ps ps' : List Piece}
      (hname : name.toList.head? = some ' ' ∧ '\n' ∉ name.toList) (hp : Word p) (hp' : Word p')
      (h : Fields ps ps') :
      Fields (.text name :: p :: ps) (.text name :: p' :: ps')

variable {p p' : Piece} {ps ps' : List Piece}

namespace Fields

/-- A field begins with a blank. -/
theorem ends_name {name : String} (hname : name.toList.head? = some ' ') (ps : List Piece) :
    Ends ' ' (format (.text name :: ps)) := by
  obtain ⟨s, hs⟩ := List.head?_eq_some_iff.mp hname
  rw [format_cons, render_text, hs]
  exact ends_cons _ _

/-- Each side of a pair of field lists ends the word before it. -/
theorem ends (h : Fields ps ps') : Ends ' ' (format ps) ∧ Ends ' ' (format ps') := by
  cases h with
  | nil => exact ⟨ends_nil _, ends_nil _⟩
  | cons hname _ _ _ => exact ⟨ends_name hname.1 _, ends_name hname.1 _⟩

/-- A value in front of fields is read in one way. -/
theorem word_unique (h : Fields ps ps') (hp : Word p) (hp' : Word p')
    (heq : format (p :: ps) = format (p' :: ps')) :
    p.render = p'.render ∧ format ps = format ps' :=
  Delimited.word_unique hp.1 hp'.1 h.ends.1 h.ends.2 heq

/-- **The values are read in one way.** -/
theorem render_eq (h : Fields ps ps') (heq : format ps = format ps') :
    ps.map Piece.render = ps'.map Piece.render := by
  induction h with
  | nil => rfl
  | cons hname hp hp' h ih =>
    rw [format_cons, format_cons] at heq
    obtain ⟨hvalue, hrest⟩ := h.word_unique hp hp' (List.append_cancel_left heq)
    rw [List.map_cons, List.map_cons, List.map_cons, List.map_cons, hvalue, ih hrest]

/-- Fields are one line. -/
theorem one_line (h : Fields ps ps') : '\n' ∉ format ps := by
  induction h with
  | nil => exact List.not_mem_nil
  | cons hname hp _ _ ih =>
    rw [format_cons, format_cons, List.mem_append, List.mem_append, not_or, not_or]
    exact ⟨hname.2, hp.2, ih⟩

end Fields

/-! ## Lines -/

variable {c c' : Command} {o o' : Outcome} {position position' : UInt64}

/-- The line of a command without its place. -/
def commandFields (c : Command) (o : Outcome) : List Piece := (commandLine 0 c o).drop 2

theorem commandLine_eq (position : UInt64) (c : Command) (o : Outcome) :
    commandLine position c o = .text "#" :: .unsigned position.toNat :: commandFields c o := by
  unfold commandFields commandLine
  cases c.kind <;> rfl

/-- Two commands of one kind print the same fields. -/
theorem fields_command (hkind : c.kind = c'.kind) :
    Fields (commandFields c o) (commandFields c' o') := by
  unfold commandFields commandLine
  rw [← hkind]
  have hnumber := word_unsigned
  have hprice := word_signed
  cases c.kind with
  | limit =>
    exact .cons (by decide) (hnumber _) (hnumber _) <|
      .cons (by decide) (word_sideName _) (word_sideName _) <|
      .cons (by decide) (hprice _) (hprice _) <| .cons (by decide) (hnumber _) (hnumber _) <|
      .cons (by decide) (hnumber _) (hnumber _) <|
      .cons (by decide) (word_tifName _) (word_tifName _) <|
      .cons (by decide) (word_bit _) (word_bit _) <| .cons (by decide) (hnumber _) (hnumber _) <|
      .cons (by decide) (word_bit _) (word_bit _) <|
      .cons (by decide) (word_bit _) (word_bit _) .nil
  | market =>
    exact .cons (by decide) (hnumber _) (hnumber _) <|
      .cons (by decide) (word_sideName _) (word_sideName _) <|
      .cons (by decide) (hnumber _) (hnumber _) <| .cons (by decide) (hnumber _) (hnumber _) <|
      .cons (by decide) (word_bit _) (word_bit _) <| .cons (by decide) (hnumber _) (hnumber _) <|
      .cons (by decide) (word_bit _) (word_bit _) <|
      .cons (by decide) (word_bit _) (word_bit _) .nil
  | cancel =>
    exact .cons (by decide) (hnumber _) (hnumber _) <|
      .cons (by decide) (word_bit _) (word_bit _) .nil
  | modify =>
    exact .cons (by decide) (hnumber _) (hnumber _) <| .cons (by decide) (hprice _) (hprice _) <|
      .cons (by decide) (hnumber _) (hnumber _) <|
      .cons (by decide) (word_bit _) (word_bit _) .nil

/-- How the fields of a command begin. -/
def kindMark : CommandKind → Text
  | .limit => [' ', 'l', 'i']
  | .market => [' ', 'm', 'a']
  | .cancel => [' ', 'c', 'a']
  | .modify => [' ', 'm', 'o']

/-- The first letters of a command line tell its kind. -/
theorem take_commandFields (c : Command) (o : Outcome) :
    (format (commandFields c o)).take 3 = kindMark c.kind := by
  unfold commandFields commandLine
  cases c.kind <;> rfl

/-- Equal command fields come from commands of one kind. -/
theorem kind_eq (h : format (commandFields c o) = format (commandFields c' o')) :
    c.kind = c'.kind := by
  have hmark : kindMark c.kind = kindMark c'.kind := by
    rw [← take_commandFields c o, ← take_commandFields c' o', h]
  cases hk : c.kind <;> cases hk' : c'.kind <;> rw [hk, hk'] at hmark <;>
    first | rfl | exact absurd hmark (by decide)

/-- A cancel or a modify only has a success to report. -/
def Plain (c : Command) (o : Outcome) : Prop :=
  c.kind = .cancel ∨ c.kind = .modify → o = { ok := o.ok }

/-- The outcomes that `apply` returns are like that. -/
theorem plain_of_apply {book book' : Book} {scratch scratch' : AddResult}
    (h : apply book c scratch = .ok (book', scratch', o)) : Plain c o := by
  intro hkind
  rw [apply] at h
  rcases hkind with hkind | hkind
  · rw [hkind] at h
    obtain ⟨⟨b, ok⟩, -, h⟩ := bind_eq_ok.mp h
    have ho : o = { ok } := (congrArg (fun r => r.2.2) (Except.ok.inj h)).symm
    rw [ho]
  · rw [hkind] at h
    obtain ⟨⟨b, ok⟩, -, h⟩ := bind_eq_ok.mp h
    have ho : o = { ok } := (congrArg (fun r => r.2.2) (Except.ok.inj h)).symm
    rw [ho]

theorem outcome_eq (hok : o.ok = o'.ok) (hrest : o.restingQty = o'.restingQty)
    (hstp : o.stpRejected = o'.stpRejected) (hfull : o.poolExhausted = o'.poolExhausted) :
    o = o' := by
  cases o
  cases o'
  rw [Outcome.mk.injEq]
  exact ⟨hok, hrest, hstp, hfull⟩

/-- **The line of a command says all about it.** -/
theorem commandLine_injective (hc : Canonical c) (hc' : Canonical c') (ho : Plain c o)
    (ho' : Plain c' o')
    (h : format (commandLine position c o) = format (commandLine position' c' o')) :
    c = c' ∧ o = o' := by
  rw [commandLine_eq, commandLine_eq, format_cons, format_cons] at h
  -- the place ends where the fields begin, of which the first shows the kind
  have hword := word_unsigned
  have hfields : format (commandFields c o) = format (commandFields c' o') := by
    have hself : Fields (commandFields c o) (commandFields c o) := fields_command rfl
    have hself' : Fields (commandFields c' o') (commandFields c' o') := fields_command rfl
    exact (Delimited.word_unique (hword _).1 (hword _).1 hself.ends.1 hself'.ends.1
      (List.append_cancel_left h)).2
  have hkind := kind_eq hfields
  have hvalues := (fields_command hkind).render_eq hfields
  rw [← hc, ← hc', canon, canon, ← hkind]
  rw [Plain, ← hkind] at ho'
  rw [Plain] at ho
  cases hk : c.kind with
  | limit =>
    simp only [commandFields, commandLine, hk, ← hkind, List.drop, List.map_cons, List.cons.injEq,
      render_unsigned_inj, render_signed_inj, render_sideName_inj, render_tifName_inj,
      render_bit_inj, UInt64.toNat_inj, UInt32.toNat_inj, Int64.toInt_inj] at hvalues
    obtain ⟨-, hid, -, hside, -, hprice, -, hqty, -, haccount, -, htif, -, hok, -, hrest, -, hstp,
      -, hfull, -⟩ := hvalues
    constructor
    · show limitCommand _ _ _ _ _ _ = limitCommand _ _ _ _ _ _
      rw [hid, hside, hprice, hqty, haccount, htif]
    · exact outcome_eq hok hrest hstp hfull
  | market =>
    simp only [commandFields, commandLine, hk, ← hkind, List.drop, List.map_cons, List.cons.injEq,
      render_unsigned_inj, render_sideName_inj, render_bit_inj, UInt64.toNat_inj,
      UInt32.toNat_inj] at hvalues
    obtain ⟨-, hid, -, hside, -, hqty, -, haccount, -, hok, -, hrest, -, hstp, -, hfull, -⟩ :=
      hvalues
    constructor
    · show marketCommand _ _ _ _ = marketCommand _ _ _ _
      rw [hid, hside, hqty, haccount]
    · exact outcome_eq hok hrest hstp hfull
  | cancel =>
    simp only [commandFields, commandLine, hk, ← hkind, List.drop, List.map_cons, List.cons.injEq,
      render_unsigned_inj, render_bit_inj, UInt64.toNat_inj] at hvalues
    obtain ⟨-, hid, -, hok, -⟩ := hvalues
    constructor
    · exact congrArg cancelCommand hid
    · rw [ho (Or.inl hk), ho' (Or.inl hk), hok]
  | modify =>
    simp only [commandFields, commandLine, hk, ← hkind, List.drop, List.map_cons, List.cons.injEq,
      render_unsigned_inj, render_signed_inj, render_bit_inj, UInt64.toNat_inj, UInt32.toNat_inj,
      Int64.toInt_inj] at hvalues
    obtain ⟨-, hid, -, hprice, -, hqty, -, hok, -⟩ := hvalues
    constructor
    · show modifyCommand _ _ _ = modifyCommand _ _ _
      rw [hid, hprice, hqty]
    · rw [ho (Or.inr hk), ho' (Or.inr hk), hok]

/-- All trades print the same fields. -/
theorem fields_trade (t t' : Trade) : Fields (tradeLine t) (tradeLine t') := by
  have hnumber := word_unsigned
  exact .cons (by decide) (hnumber _) (hnumber _) <| .cons (by decide) (hnumber _) (hnumber _) <|
    .cons (by decide) (hnumber _) (hnumber _) <| .cons (by decide) (hnumber _) (hnumber _) <|
    .cons (by decide) (word_signed _) (word_signed _) <|
    .cons (by decide) (hnumber _) (hnumber _) .nil

/-- **The line of a trade says all about it.** -/
theorem tradeLine_injective : Function.Injective fun t => format (tradeLine t) := by
  intro t t' h
  have hvalues := (fields_trade t t').render_eq h
  simp only [tradeLine, List.map_cons, List.cons.injEq, render_unsigned_inj, render_signed_inj,
    UInt64.toNat_inj, UInt32.toNat_inj, Int64.toInt_inj] at hvalues
  obtain ⟨-, hseq, -, hid, -, hmaker, -, htaker, -, hprice, -, hqty, -⟩ := hvalues
  cases t
  cases t'
  rw [Trade.mk.injEq]
  exact ⟨hmaker, htaker, hprice, hqty, hid, hseq⟩

/-- How an order's side begins its line. -/
def bookSide (side : Side) : Piece := .text (if side = .buy then "bid" else "ask")

theorem word_bookSide (side : Side) : Word (bookSide side) := by
  cases side <;> exact ⟨by decide, by decide⟩

@[simp] theorem render_bookSide_inj {side side' : Side} :
    (bookSide side).render = (bookSide side').render ↔ side = side' := by
  cases side <;> cases side' <;> decide

/-- The line of a resting order without its side. -/
def orderFields (o : RestingOrder) : List Piece := (orderLine o).drop 1

theorem orderLine_eq (o : RestingOrder) : orderLine o = bookSide o.side :: orderFields o := rfl

/-- All resting orders print the same fields. -/
theorem fields_order (o o' : RestingOrder) : Fields (orderFields o) (orderFields o') := by
  have hnumber := word_unsigned
  exact .cons (by decide) (word_signed _) (word_signed _) <|
    .cons (by decide) (hnumber _) (hnumber _) <| .cons (by decide) (hnumber _) (hnumber _) <|
    .cons (by decide) (hnumber _) (hnumber _) <| .cons (by decide) (hnumber _) (hnumber _) .nil

/-- **The line of a resting order says all about it.** -/
theorem orderLine_injective : Function.Injective fun o => format (orderLine o) := by
  intro o o' h
  obtain ⟨hside, hfields⟩ := (fields_order o o').word_unique (word_bookSide _) (word_bookSide _) h
  have hvalues := (fields_order o o').render_eq hfields
  simp only [orderFields, orderLine, List.drop, List.map_cons, List.cons.injEq, render_unsigned_inj,
    render_signed_inj, UInt64.toNat_inj, UInt32.toNat_inj, Int64.toInt_inj] at hvalues
  obtain ⟨-, hprice, -, hid, -, hqty, -, haccount, -, hseq, -⟩ := hvalues
  cases o
  cases o'
  rw [RestingOrder.mk.injEq]
  exact ⟨render_bookSide_inj.mp hside, hprice, hid, hqty, haccount, hseq⟩

/-! ## Texts -/

theorem lines_eq (ls : List (List Piece)) : lines ls = terminated '\n' (ls.map format) := by
  rw [lines, terminated, List.map_map]
  rfl

/-- A command prints no newline. -/
theorem commandLine_one_line (position : UInt64) (c : Command) (o : Outcome) :
    '\n' ∉ format (commandLine position c o) := by
  have hfields : Fields (commandFields c o) (commandFields c o) := fields_command rfl
  rw [commandLine_eq, format_cons, format_cons, List.mem_append, List.mem_append, not_or, not_or]
  exact ⟨by decide, (word_unsigned _).2, hfields.one_line⟩

theorem tradeLine_one_line (t : Trade) : '\n' ∉ format (tradeLine t) := (fields_trade t t).one_line

theorem orderLine_one_line (o : RestingOrder) : '\n' ∉ format (orderLine o) := by
  rw [orderLine_eq, format_cons, List.mem_append, not_or]
  exact ⟨(word_bookSide _).2, (fields_order o o).one_line⟩

theorem countLine_one_line (orders : List RestingOrder) : '\n' ∉ format (countLine orders) := by
  rw [countLine, format_cons, format_cons, List.mem_append, List.mem_append, not_or, not_or]
  exact ⟨by decide, (word_unsigned _).2, List.not_mem_nil⟩

/-- **The text of a book says all about its orders.** -/
theorem bookText_injective : Function.Injective bookText := by
  intro orders orders' h
  rw [bookText, bookText, lines_eq, lines_eq] at h
  have hone : ∀ orders : List RestingOrder,
      ∀ w ∈ (orders.map orderLine ++ [countLine orders]).map format, '\n' ∉ w := by
    intro orders w hw
    obtain ⟨ps, hps, rfl⟩ := List.mem_map.mp hw
    rcases List.mem_append.mp hps with hps | hps
    · obtain ⟨o, -, rfl⟩ := List.mem_map.mp hps
      exact orderLine_one_line o
    · rw [List.mem_singleton.mp hps]
      exact countLine_one_line orders
  have hlines := terminated_injective (hone orders) (hone orders') h
  rw [List.map_append, List.map_append, List.map_map, List.map_map] at hlines
  exact orderLine_injective.list_map (List.append_inj_left' hlines rfl)

/-! ## The log -/

/-- A command with what came of it. -/
structure Event where
  command : Command
  outcome : Outcome
  trades : List Trade
deriving DecidableEq

/-- The log of some events, of which the first is at `position`. -/
def logFrom (log : Text) (position : UInt64) : List Event → Checked Text
  | [] => return log
  | e :: es => do
    let log ← appendEvents log position e.command e.outcome e.trades
    logFrom log (position + 1) es

/-- The lines of some events, those of each event together. -/
def eventLines (position : UInt64) : List Event → List (Text × List Text)
  | [] => []
  | e :: es =>
    (format (commandLine position e.command e.outcome),
      e.trades.map fun t => format (tradeLine t)) :: eventLines (position + 1) es

/-- The log is its groups of lines, each ended by a newline. -/
theorem logFrom_eq (log : Text) (position : UInt64) (es : List Event) :
    logFrom log position es = .ok (log ++ terminated '\n' (groups (eventLines position es))) := by
  induction es generalizing log position with
  | nil => exact congrArg Except.ok (List.append_nil log).symm
  | cons e es ih =>
    rw [logFrom, appendEvents_eq, ok_bind, ih, events, lines_eq, eventLines, groups_cons,
      ← List.cons_append, terminated_append, List.append_assoc, List.map_cons, List.map_map]
    rfl

/-- The line of a command begins with `#`, that of a trade does not. -/
theorem group_eventLines (position : UInt64) (es : List Event) :
    ∀ g ∈ eventLines position es, Group (fun w => w.head? = some '#') g := by
  induction es generalizing position with
  | nil => exact fun g hg => absurd hg List.not_mem_nil
  | cons e es ih =>
    rw [eventLines, List.forall_mem_cons]
    refine ⟨⟨?_, ?_⟩, ih (position + 1)⟩
    · show (format (commandLine position e.command e.outcome)).head? = some '#'
      rw [commandLine_eq]
      rfl
    · intro w hw
      obtain ⟨t, -, rfl⟩ := List.mem_map.mp hw
      show ¬ (some ' ' = some '#')
      decide

/-- No line of the log contains a newline. -/
theorem eventLines_one_line (position : UInt64) (es : List Event) :
    ∀ w ∈ groups (eventLines position es), '\n' ∉ w := by
  induction es generalizing position with
  | nil => exact fun w hw => absurd hw List.not_mem_nil
  | cons e es ih =>
    rw [eventLines, groups_cons, List.forall_mem_cons]
    refine ⟨commandLine_one_line _ _ _, ?_⟩
    intro w hw
    rcases List.mem_append.mp hw with hw | hw
    · obtain ⟨t, -, rfl⟩ := List.mem_map.mp hw
      exact tradeLine_one_line t
    · exact ih (position + 1) w hw

/-- The lines of some events say all about them. -/
theorem eventLines_injective {es es' : List Event}
    (hes : ∀ e ∈ es, Canonical e.command ∧ Plain e.command e.outcome)
    (hes' : ∀ e ∈ es', Canonical e.command ∧ Plain e.command e.outcome) (position : UInt64)
    (h : eventLines position es = eventLines position es') : es = es' := by
  induction es generalizing es' position with
  | nil =>
    cases es' with
    | nil => rfl
    | cons e' es' => cases h
  | cons e es ih =>
    cases es' with
    | nil => cases h
    | cons e' es' =>
      rw [List.forall_mem_cons] at hes hes'
      rw [eventLines, eventLines] at h
      obtain ⟨hgroup, hrest⟩ := List.cons.inj h
      obtain ⟨hcommand, htrades⟩ := Prod.mk.inj hgroup
      obtain ⟨hc, ho⟩ := commandLine_injective hes.1.1 hes'.1.1 hes.1.2 hes'.1.2 hcommand
      have ht := tradeLine_injective.list_map htrades
      rw [ih hes.2 hes'.2 (position + 1) hrest]
      cases e
      cases e'
      rw [List.cons.injEq, Event.mk.injEq]
      exact ⟨⟨hc, ho, ht⟩, rfl⟩

/-- An outcome that `apply` returns for the command, on some book. -/
def Produced (e : Event) : Prop :=
  ∃ book scratch book' scratch', apply book e.command scratch = .ok (book', scratch', e.outcome)

/-- **The log and the book dump lose nothing**: events with one log are the same events, books
with one dump have the same resting orders, and each line is appended as it is formatted, since
it fits into the buffer. -/
theorem texts_lose_nothing :
    (∀ es es' : List Event, (∀ e ∈ es, Canonical e.command ∧ Produced e) →
      (∀ e ∈ es', Canonical e.command ∧ Produced e) →
      (∃ text, logFrom [] 0 es = .ok text) ∧
        (logFrom [] 0 es = logFrom [] 0 es' → es = es')) ∧
    (∀ (book book' : Book) (text : Text), serializeBook book = .ok text →
      serializeBook book' = .ok text → book.snapshot = book'.snapshot) ∧
    (∀ position c o, (format (commandLine position c o)).length < 256) ∧
    (∀ t, (format (tradeLine t)).length < 256) ∧
    (∀ o, (format (orderLine o)).length < 256) ∧
    (∀ orders, (format (countLine orders)).length < 256) ∧
    ∀ out pieces, (format pieces).length < 256 →
      line out pieces = .ok (out ++ format pieces ++ ['\n']) := by
  refine ⟨fun es es' hes hes' => ⟨⟨_, logFrom_eq [] 0 es⟩, fun h => ?_⟩,
    fun book book' text h h' => ?_,
    fun position c o => Nat.lt_succ_of_le (length_commandLine position c o),
    fun t => Nat.lt_succ_of_le (length_tradeLine t),
    fun o => Nat.lt_succ_of_le (length_orderLine o),
    fun orders => Nat.lt_succ_of_le (length_countLine orders),
    fun out pieces h => line_of_fits (Nat.le_of_lt_succ h) out⟩
  · have hplain : ∀ e : Event, Canonical e.command ∧ Produced e →
        Canonical e.command ∧ Plain e.command e.outcome := by
      intro e he
      obtain ⟨book, scratch, book', scratch', happly⟩ := he.2
      exact ⟨he.1, plain_of_apply happly⟩
    rw [logFrom_eq, logFrom_eq, Except.ok.injEq, List.nil_append, List.nil_append] at h
    have hlines := terminated_injective (eventLines_one_line 0 es) (eventLines_one_line 0 es') h
    have hgroups := groups_injective (group_eventLines 0 es) (group_eventLines 0 es') hlines
    exact eventLines_injective (fun e he => hplain e (hes e he))
      (fun e he => hplain e (hes' e he)) 0 hgroups
  · cases hs : book.snapshot with
    | error f =>
      rw [serializeBook, hs] at h
      cases h
    | ok orders =>
      cases hs' : book'.snapshot with
      | error f =>
        rw [serializeBook, hs'] at h'
        cases h'
      | ok orders' =>
        rw [serializeBook_eq hs, Except.ok.injEq] at h
        rw [serializeBook_eq hs', Except.ok.injEq] at h'
        rw [bookText_injective (h.trans h'.symm)]

/-- A sell of 3 lots and a buy that takes 2 of them. -/
def crossing (price : Price) : List Event :=
  [⟨limitCommand 1 .sell price 3 1, { ok := true, restingQty := 3 }, []⟩,
    ⟨limitCommand 2 .buy price 2 2, { ok := true }, [⟨1, 2, price, 2, 0, 1⟩]⟩]

/-- At two prices below zero, these are outcomes of `apply`. -/
theorem produced_crossing : ∀ price ∈ [(-5 : Price), -50], ∀ e ∈ crossing price,
    Canonical e.command ∧ Produced e := by
  intro price hprice e he
  rcases List.mem_pair.mp hprice with rfl | rfl
  · rcases List.mem_pair.mp he with rfl | rfl
    · exact ⟨rfl, Book.new 2, {}, _, _, rfl⟩
    · exact ⟨rfl, Book.after 2 [limitCommand 1 .sell (-5) 3 1], {}, _, _, rfl⟩
  · rcases List.mem_pair.mp he with rfl | rfl
    · exact ⟨rfl, Book.new 2, {}, _, _, rfl⟩
    · exact ⟨rfl, Book.after 2 [limitCommand 1 .sell (-50) 3 1], {}, _, _, rfl⟩

/-- The dump of what is left of the sell, in a pool of 2 slots and in one of 3. -/
theorem serializeBook_crossing :
    serializeBook (Book.after 2 [limitCommand 1 .sell (-5) 3 1, limitCommand 2 .buy (-5) 2 2]) =
        .ok "ask price=-5 id=1 qty=1 account=1 seq=0\norders=1\n".toList ∧
      serializeBook (Book.after 3 [limitCommand 1 .sell (-5) 3 1, limitCommand 2 .buy (-5) 2 2]) =
        .ok "ask price=-5 id=1 qty=1 account=1 seq=0\norders=1\n".toList := by
  constructor <;> decide +kernel

/-- The two logs tell the prices apart, and books of different capacities with one dump have the
same orders. -/
theorem texts_lose_nothing_crossing :
    logFrom [] 0 (crossing (-5)) ≠ logFrom [] 0 (crossing (-50)) ∧
      (Book.after 2 [limitCommand 1 .sell (-5) 3 1, limitCommand 2 .buy (-5) 2 2]).snapshot =
        (Book.after 3 [limitCommand 1 .sell (-5) 3 1, limitCommand 2 .buy (-5) 2 2]).snapshot := by
  constructor
  · intro h
    have hes := produced_crossing (-5) (by decide)
    have hes' := produced_crossing (-50) (by decide)
    exact absurd ((texts_lose_nothing.1 _ _ hes hes').2 h) (by decide)
  · exact texts_lose_nothing.2.1 _ _ _ serializeBook_crossing.1 serializeBook_crossing.2

end Replay

end MatchingEngine
