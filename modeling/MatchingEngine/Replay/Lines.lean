import MatchingEngine.Replay.Replay
import Mathlib.Tactic.NormNum

/-!
# Lines

Every line of the log and of the book dump fits into the buffer it is formatted in, whatever
the values of its fields, so what is appended is the formatted text itself (`appendEvents_eq`,
`serializeBook_eq`).
-/

namespace MatchingEngine

namespace Replay

variable {n : ℕ} {out log : Text} {pieces : List Piece}

/-! ## Widths -/

/-- A 64-bit number has at most 20 digits. -/
theorem length_unsigned_64 (n : UInt64) : (Piece.unsigned n.toNat).render.length ≤ 20 := by
  have hlt : n.toNat < 10 ^ 20 := n.toNat_lt.trans (by norm_num)
  exact (Nat.length_toDigits_le_iff (by omega) (by omega)).mpr hlt

theorem length_unsigned_32 (n : UInt32) : (Piece.unsigned n.toNat).render.length ≤ 10 := by
  have hlt : n.toNat < 10 ^ 10 := n.toNat_lt.trans (by norm_num)
  exact (Nat.length_toDigits_le_iff (by omega) (by omega)).mpr hlt

/-- So it does with its sign. -/
theorem length_signed_64 (x : Int64) : (Piece.signed x.toInt).render.length ≤ 20 := by
  have hlo := x.le_toInt
  have hhi := x.toInt_lt
  have hdigits : ∀ n < 10 ^ 19, (Nat.toDigits 10 n).length ≤ 19 := fun n hn =>
    (Nat.length_toDigits_le_iff (by omega) (by omega)).mpr hn
  cases h : x.toInt with
  | ofNat n =>
    rw [h, Int.ofNat_eq_natCast] at hhi
    have hlen := hdigits n (by omega)
    show (Nat.toDigits 10 n).length ≤ 20
    omega
  | negSucc n =>
    rw [h] at hlo
    have hlen := hdigits (n + 1) (by omega)
    show ('-' :: Nat.toDigits 10 (n + 1)).length ≤ 20
    rw [List.length_cons]
    omega

theorem length_bit (b : Bool) : (bit b).render.length = 1 := by
  cases b <;> decide

theorem length_sideName (side : Side) : (sideName side).render.length ≤ 4 := by
  cases side <;> decide

theorem length_tifName (tif : TimeInForce) : (tifName tif).render.length = 3 := by
  cases tif <;> decide

theorem render_text (s : String) : (Piece.text s).render = s.toList := rfl

theorem length_format_cons (p : Piece) (pieces : List Piece) :
    (format (p :: pieces)).length = p.render.length + (format pieces).length := by
  rw [format, List.map_cons, List.flatten_cons, List.length_append]
  rfl

/-- A line is at most as long as the widths of its pieces together. -/
theorem length_format_le (widths : List ℕ)
    (h : List.Forall₂ (fun p w => p.render.length ≤ w) pieces widths) :
    (format pieces).length ≤ widths.sum := by
  induction h with
  | nil => exact le_rfl
  | cons hw _ ih =>
    rw [length_format_cons, List.sum_cons]
    exact Nat.add_le_add hw ih

/-! ## Lines that fit -/

/-- A line that fits in the buffer is printed whole. -/
theorem line_of_fits (h : (format pieces).length ≤ 255) (out : Text) :
    line out pieces = .ok (out ++ format pieces ++ [Char.ofNat 10]) := by
  have hbuf : ((format pieces).take 255 ++ [Char.ofNat 0]).take (format pieces).length =
      format pieces := by
    rw [List.take_of_length_le h, List.take_left]
  rw [line, require_of (by omega), ok_bind, hbuf]
  rfl

/-- **The line of a command fits.** -/
theorem length_commandLine (position : UInt64) (c : Command) (o : Outcome) :
    (format (commandLine position c o)).length ≤ 255 := by
  have hposition := length_unsigned_64 position
  have hid := length_unsigned_64 c.id
  have hside := length_sideName c.side
  have hprice := length_signed_64 c.price
  have hqty := length_unsigned_32 c.qty
  have haccount := length_unsigned_32 c.account
  have htif := length_tifName c.tif
  have hok := (length_bit o.ok).le
  have hrest := length_unsigned_32 o.restingQty
  have hstp := (length_bit o.stpRejected).le
  have hfull := (length_bit o.poolExhausted).le
  unfold commandLine
  cases c.kind with
  | limit =>
    refine (length_format_le
      [1, 20, 10, 20, 6, 4, 7, 20, 5, 10, 9, 10, 5, 3, 4, 1, 6, 10, 5, 1, 6, 1] ?_).trans
      (by decide)
    simp only [List.forall₂_cons]
    exact ⟨by decide, hposition, by decide, hid, by decide, hside, by decide, hprice, by decide,
      hqty, by decide, haccount, by decide, htif.le, by decide, hok, by decide, hrest,
      by decide, hstp, by decide, hfull, .nil⟩
  | market =>
    refine (length_format_le
      [1, 20, 11, 20, 6, 4, 5, 10, 9, 10, 4, 1, 6, 10, 5, 1, 6, 1] ?_).trans (by decide)
    simp only [List.forall₂_cons]
    exact ⟨by decide, hposition, by decide, hid, by decide, hside, by decide, hqty, by decide,
      haccount, by decide, hok, by decide, hrest, by decide, hstp, by decide, hfull, .nil⟩
  | cancel =>
    refine (length_format_le [1, 20, 11, 20, 4, 1] ?_).trans (by decide)
    simp only [List.forall₂_cons]
    exact ⟨by decide, hposition, by decide, hid, by decide, hok, .nil⟩
  | modify =>
    refine (length_format_le [1, 20, 11, 20, 7, 20, 5, 10, 4, 1] ?_).trans (by decide)
    simp only [List.forall₂_cons]
    exact ⟨by decide, hposition, by decide, hid, by decide, hprice, by decide, hqty, by decide,
      hok, .nil⟩

/-- **The line of a trade fits.** -/
theorem length_tradeLine (t : Trade) : (format (tradeLine t)).length ≤ 255 := by
  have hseq := length_unsigned_64 t.seqNo
  have hid := length_unsigned_64 t.tradeId
  have hmaker := length_unsigned_64 t.makerOrderId
  have htaker := length_unsigned_64 t.takerOrderId
  have hprice := length_signed_64 t.price
  have hqty := length_unsigned_32 t.qty
  unfold tradeLine
  refine (length_format_le [12, 20, 4, 20, 7, 20, 7, 20, 7, 20, 5, 10] ?_).trans (by decide)
  simp only [List.forall₂_cons]
  exact ⟨by decide, hseq, by decide, hid, by decide, hmaker, by decide, htaker, by decide,
    hprice, by decide, hqty, .nil⟩

/-- **The line of a resting order fits.** -/
theorem length_orderLine (o : RestingOrder) : (format (orderLine o)).length ≤ 255 := by
  have hside : (Piece.text (if o.side = .buy then "bid" else "ask")).render.length ≤ 3 := by
    cases o.side <;> decide
  have hprice := length_signed_64 o.price
  have hid := length_unsigned_64 o.orderId
  have hqty := length_unsigned_32 o.qty
  have haccount := length_unsigned_32 o.account
  have hseq := length_unsigned_64 o.seqNo
  unfold orderLine
  refine (length_format_le [3, 7, 20, 4, 20, 5, 10, 9, 10, 5, 20] ?_).trans (by decide)
  simp only [List.forall₂_cons]
  exact ⟨hside, by decide, hprice, by decide, hid, by decide, hqty, by decide, haccount,
    by decide, hseq, .nil⟩

theorem length_countLine (orders : List RestingOrder) :
    (format (countLine orders)).length ≤ 255 := by
  have hcount := length_unsigned_64 (UInt64.ofNat orders.length)
  unfold countLine
  refine (length_format_le [7, 20] ?_).trans (by decide)
  simp only [List.forall₂_cons]
  exact ⟨by decide, hcount, .nil⟩

/-! ## Texts -/

/-- The text of a list of lines. -/
def lines (ls : List (List Piece)) : Text := (ls.map fun l => format l ++ [Char.ofNat 10]).flatten

/-- Lines that fit are appended as they are. -/
theorem foldlM_line {α : Type} {f : α → List Piece} (hf : ∀ a, (format (f a)).length ≤ 255)
    (l : List α) (out : Text) :
    l.foldlM (fun out a => line out (f a)) out = .ok (out ++ lines (l.map f)) := by
  induction l generalizing out with
  | nil => exact congrArg Except.ok (List.append_nil out).symm
  | cons a l ih =>
    rw [List.foldlM_cons, line_of_fits (hf a), ok_bind, ih, List.map_cons, lines, lines,
      List.map_cons, List.flatten_cons]
    simp only [List.append_assoc]

/-- The text that a command adds to the log. -/
def events (position : UInt64) (c : Command) (o : Outcome) (trades : List Trade) : Text :=
  lines (commandLine position c o :: trades.map tradeLine)

/-- **The log grows by the text of the command.** -/
theorem appendEvents_eq (log : Text) (position : UInt64) (c : Command) (o : Outcome)
    (trades : List Trade) :
    appendEvents log position c o trades = .ok (log ++ events position c o trades) := by
  rw [appendEvents, line_of_fits (length_commandLine position c o), ok_bind,
    foldlM_line length_tradeLine, events, lines, lines, List.map_cons, List.flatten_cons]
  simp only [List.append_assoc]

/-- The text of the book. -/
def bookText (orders : List RestingOrder) : Text :=
  lines (orders.map orderLine ++ [countLine orders])

/-- The dump of a book is the text of its snapshot. -/
theorem serializeBook_eq {book : Book} {orders : List RestingOrder}
    (h : book.snapshot = .ok orders) : serializeBook book = .ok (bookText orders) := by
  rw [serializeBook, h, ok_bind, foldlM_line length_orderLine, ok_bind,
    line_of_fits (length_countLine orders), bookText, lines, lines, List.map_append,
    List.flatten_append]
  simp

end Replay

end MatchingEngine
