import MatchingEngine.Replay.Feed
import MatchingEngine.Replay.Golden
import MatchingEngine.Library.Delimited

/-!
# The golden check

A hex text is read as the bytes whose digits it has, newlines aside (`fromHex_iff`). So the
check passes only on the journal of some commands, with the log and the book of their live run
(`golden_check_passes_iff`), and it passes on what an update wrote (`golden_update_passes`). A
report shows the first line that differs (`reportDifference_spec`).
-/

namespace MatchingEngine

namespace Replay

open Journal Reader Diff Delimited

variable {capacity : Index} {cmds : List Command} {bytes : List UInt8} {text : Text}

/-! ## Digits -/

/-- The two digits of a byte. -/
def byteDigits (b : UInt8) : Text := [digits[(b >>> 4).toNat]!, digits[(b &&& 15).toNat]!]

theorem hexValue_digits : ∀ v < 16, hexValue digits[v]! = some v := by decide

theorem digits_ne_newline : ∀ v < 16, digits[v]! ≠ '\n' := by decide

/-- A character that has a value is its digit. -/
theorem hexValue_eq_some {ch : Char} {v : ℕ} (h : hexValue ch = some v) :
    v < 16 ∧ digits[v]! = ch := by
  have hall : ∀ n < 103, (hexValue (Char.ofNat n)).all
      (fun v => decide (v < 16 ∧ digits[v]! = Char.ofNat n)) = true := by decide
  have hlt : ch.toNat < 103 := by
    by_contra hge
    have hdigit : ¬ ch ≤ '9' := fun hle => by
      have : ch.toNat ≤ 57 := hle
      omega
    have hletter : ¬ ch ≤ 'f' := fun hle => by
      have : ch.toNat ≤ 102 := hle
      omega
    rw [hexValue, if_neg (by tauto), if_neg (by tauto)] at h
    cases h
  have hch := hall ch.toNat hlt
  rw [Char.ofNat_toNat, h] at hch
  exact of_decide_eq_true hch

/-- The digits of a byte are those of its halves. -/
theorem byteDigits_eq {v w : ℕ} (hv : v < 16) (hw : w < 16) :
    byteDigits (UInt8.ofNat (v * 16 + w)) = [digits[v]!, digits[w]!] := by
  have hall : ∀ v < 16, ∀ w < 16, (UInt8.ofNat (v * 16 + w) >>> 4).toNat = v ∧
      (UInt8.ofNat (v * 16 + w) &&& 15).toNat = w := by decide
  obtain ⟨hhigh, hlow⟩ := hall v hv w hw
  rw [byteDigits, hhigh, hlow]

/-- Every byte is made of two halves. -/
theorem exists_halves (b : UInt8) : ∃ v w, v < 16 ∧ w < 16 ∧ b = UInt8.ofNat (v * 16 + w) := by
  have hb := b.toNat_lt
  refine ⟨b.toNat / 16, b.toNat % 16, by omega, by omega, ?_⟩
  rw [Nat.div_add_mod', UInt8.ofNat_toNat]

/-! ## Hex texts -/

/-- A text without its newlines. -/
def joined (text : Text) : Text := text.filter (· ≠ '\n')

theorem joined_cons {ch : Char} (h : ch ≠ '\n') (text : Text) :
    joined (ch :: text) = ch :: joined text := List.filter_cons_of_pos (decide_eq_true h)

theorem joined_newline (text : Text) : joined ('\n' :: text) = joined text :=
  List.filter_cons_of_neg (by decide)

/-- **Reading hex** goes through a digit that begins a byte, then the digits of whole bytes. -/
theorem fromHexFrom_iff (text : Text) : ∀ (high : Option ℕ) (out : List UInt8),
    (∀ v ∈ high, v < 16) →
      (fromHexFrom high out text = (true, bytes) ↔ ∃ more, bytes = out ++ more ∧
        (high.map (digits[·]!)).toList ++ joined text = more.flatMap byteDigits) := by
  induction text with
  | nil =>
    intro high out hhigh
    cases high with
    | none =>
      constructor
      · intro h
        exact ⟨[], by rw [List.append_nil]; exact (congrArg Prod.snd h).symm, rfl⟩
      · rintro ⟨more, rfl, h⟩
        cases more with
        | nil => rw [List.append_nil]; rfl
        | cons b more => cases h
    | some v =>
      constructor
      · intro h
        cases h
      · rintro ⟨more, -, h⟩
        cases more with
        | nil => cases h
        | cons b more => exact absurd (congrArg List.length h) (by simp [byteDigits, joined])
  | cons ch text ih =>
    intro high out hhigh
    by_cases hch : ch = '\n'
    · rw [hch, joined_newline, fromHexFrom, if_pos rfl]
      exact ih high out hhigh
    rw [joined_cons hch, fromHexFrom, if_neg hch]
    cases hv : hexValue ch with
    | none =>
      refine iff_of_false (fun h => by cases h) ?_
      rintro ⟨more, -, h⟩
      have hmem : ch ∈ more.flatMap byteDigits := by
        rw [← h]
        exact List.mem_append_right _ List.mem_cons_self
      obtain ⟨b, -, hmem⟩ := List.mem_flatMap.mp hmem
      obtain ⟨v, w, hv', hw', rfl⟩ := exists_halves b
      rw [byteDigits_eq hv' hw', List.mem_pair] at hmem
      rcases hmem with rfl | rfl
      · rw [hexValue_digits v hv'] at hv
        cases hv
      · rw [hexValue_digits w hw'] at hv
        cases hv
    | some v =>
      obtain ⟨hlt, hdigit⟩ := hexValue_eq_some hv
      cases high with
      | none =>
        show fromHexFrom (some v) out text = _ ↔ _
        rw [ih (some v) out (fun w hw => Option.some.inj hw ▸ hlt), ← hdigit]
        rfl
      | some u =>
        have hu : u < 16 := hhigh u rfl
        show fromHexFrom none (out ++ [UInt8.ofNat (u * 16 + v)]) text = _ ↔ _
        rw [ih none _ (fun w hw => by cases hw)]
        constructor
        · rintro ⟨more, rfl, h⟩
          refine ⟨UInt8.ofNat (u * 16 + v) :: more, by rw [List.append_assoc]; rfl, ?_⟩
          rw [List.flatMap_cons, byteDigits_eq hu hlt, ← h, ← hdigit]
          rfl
        · rintro ⟨more, rfl, h⟩
          cases more with
          | nil => cases h
          | cons b more =>
            obtain ⟨v', w', hv', hw', rfl⟩ := exists_halves b
            rw [List.flatMap_cons, byteDigits_eq hv' hw'] at h
            obtain ⟨hfirst, h⟩ := List.cons.inj h
            obtain ⟨hsecond, h⟩ := List.cons.inj h
            -- a digit stands for one value
            have hu' := hexValue_digits u hu
            rw [show digits[u]! = digits[v']! from hfirst, hexValue_digits v' hv',
              Option.some_inj] at hu'
            rw [hsecond, hexValue_digits w' hw', Option.some_inj] at hv
            rw [hu', hv]
            exact ⟨more, by rw [List.append_assoc]; rfl, h⟩

/-- **Reading hex**: the text is read as the bytes whose digits it has. -/
theorem fromHex_iff : fromHex text = (true, bytes) ↔
    joined text = bytes.flatMap byteDigits := by
  rw [fromHex, fromHexFrom_iff text none [] (fun v hv => by cases hv)]
  constructor
  · rintro ⟨more, rfl, h⟩
    exact h
  · intro h
    exact ⟨bytes, rfl, h⟩

/-- Joining lines goes through an append. -/
theorem joined_append (text text' : Text) : joined (text ++ text') = joined text ++ joined text' :=
  List.filter_append ..

theorem joined_byteDigits (b : UInt8) : joined (byteDigits b) = byteDigits b := by
  obtain ⟨v, w, hv, hw, rfl⟩ := exists_halves b
  rw [byteDigits_eq hv hw, joined_cons (digits_ne_newline v hv),
    joined_cons (digits_ne_newline w hw)]
  rfl

/-- Line breaks apart, the file is the digits of the bytes. -/
theorem joined_toHexFrom (size : ℕ) (bytes : List UInt8) : ∀ (i : ℕ) (out : Text),
    joined (toHexFrom size i bytes out) = joined out ++ bytes.flatMap byteDigits := by
  induction bytes with
  | nil =>
    intro i out
    exact (List.append_nil _).symm
  | cons b bytes ih =>
    intro i out
    have hjoined : joined (if i % 16 = 15 ∨ i + 1 = size then out ++ byteDigits b ++ ['\n']
        else out ++ byteDigits b) = joined out ++ byteDigits b := by
      split
      · rw [joined_append, joined_append, joined_byteDigits, joined_newline]
        exact List.append_nil _
      · rw [joined_append, joined_byteDigits]
    rw [List.flatMap_cons, ← List.append_assoc, ← hjoined]
    exact ih (i + 1) _

/-- **What is written as hex is read back.** -/
theorem fromHex_toHex (bytes : List UInt8) : fromHex (toHex bytes) = (true, bytes) :=
  fromHex_iff.mpr (joined_toHexFrom _ bytes 0 [])

/-! ## The first difference -/

/-- Before the first difference the texts are equal, and at it they are not. -/
theorem firstDifference_spec : ∀ want got : Text, firstDifference want got ≤ want.length ∧
    firstDifference want got ≤ got.length ∧
    want.take (firstDifference want got) = got.take (firstDifference want got) ∧
    (want ≠ got → want[firstDifference want got]? ≠ got[firstDifference want got]?) := by
  intro want
  induction want with
  | nil =>
    intro got
    rw [firstDifference.eq_2 _ _ (fun _ _ _ _ h => by cases h)]
    refine ⟨le_rfl, Nat.zero_le _, rfl, fun h => ?_⟩
    cases got with
    | nil => exact absurd rfl h
    | cons b got => exact fun heq => by cases heq
  | cons a want ih =>
    intro got
    cases got with
    | nil => exact ⟨Nat.zero_le _, le_rfl, rfl, fun _ heq => by cases heq⟩
    | cons b got =>
      rw [firstDifference]
      by_cases hab : a = b
      · obtain ⟨hwant, hgot, htake, hne⟩ := ih got
        rw [if_pos hab, List.take_succ_cons, List.take_succ_cons, List.getElem?_cons_succ,
          List.getElem?_cons_succ, List.length_cons, List.length_cons, htake, hab]
        refine ⟨by omega, by omega, rfl, fun h => hne fun heq => h (by rw [heq])⟩
      · rw [if_neg hab]
        exact ⟨Nat.zero_le _, Nat.zero_le _, rfl, fun _ heq => hab (Option.some.inj heq)⟩

/-- A newline at the position itself is the last one up to there. -/
theorem rfindNewline_of_eq {s : Text} {i : ℕ} (h : s[i]? = some '\n') :
    rfindNewline s i = some i := by
  cases i with
  | zero => exact if_pos h
  | succ i => exact if_pos h

/-- The last newline is the one before a word without any. -/
theorem rfindNewline_word {w : Text} (hw : '\n' ∉ w) (pre rest : Text) : ∀ k ≤ w.length,
    rfindNewline (pre ++ '\n' :: w ++ rest) (pre.length + k) = some pre.length := by
  intro k
  induction k with
  | zero =>
    intro _
    apply rfindNewline_of_eq
    rw [Nat.add_zero, List.append_assoc, List.getElem?_append_right le_rfl, Nat.sub_self]
    rfl
  | succ k ih =>
    intro hk
    have hat : (pre ++ '\n' :: w ++ rest)[pre.length + k + 1]? = w[k]? := by
      rw [List.append_assoc, Nat.add_assoc, List.getElem?_append_right (by omega),
        Nat.add_sub_cancel_left, List.cons_append, List.getElem?_cons_succ,
        List.getElem?_append_left (by omega)]
    rw [← Nat.add_assoc, rfindNewline, hat, if_neg, ih (by omega)]
    exact fun h => hw (List.mem_of_getElem? h)

/-- There is no newline in the first word of a text. -/
theorem rfindNewline_front {w rest : Text} (hw : '\n' ∉ w) : ∀ k < w.length,
    rfindNewline (w ++ rest) k = none := by
  have hat : ∀ k < w.length, (w ++ rest)[k]? ≠ some '\n' := by
    intro k hk h
    rw [List.getElem?_append_left hk] at h
    exact hw (List.mem_of_getElem? h)
  intro k
  induction k with
  | zero => exact fun hk => if_neg (hat 0 hk)
  | succ k ih =>
    intro hk
    rw [rfindNewline, if_neg (hat (k + 1) hk), ih (by omega)]

/-- From the start of a line the next newline is at its end. -/
theorem findNewline_word {pre w rest : Text} (hw : '\n' ∉ w) (hrest : Ends '\n' rest) :
    findNewline (pre ++ w ++ rest) pre.length =
      if rest = [] then none else some (pre.length + w.length) := by
  rw [findNewline, List.append_assoc, List.drop_left]
  cases rest with
  | nil =>
    rw [List.append_nil, List.idxOf?_eq_none_iff.mpr hw, if_pos rfl]
    rfl
  | cons c rest =>
    have hc : c = '\n' := hrest c rfl
    rw [if_neg (List.cons_ne_nil _ _), hc, idxOf?_word hw]
    rfl

/-- A line begins behind the newline before it. -/
theorem lineStart_spec {w : Text} (hw : '\n' ∉ w) (ws : List Text) (rest : Text) :
    lineStart (terminated '\n' ws ++ w).length (terminated '\n' ws ++ w ++ rest) =
      (terminated '\n' ws).length := by
  rcases List.eq_nil_or_concat ws with rfl | ⟨ws, v, rfl⟩
  · show lineStart w.length (w ++ rest) = 0
    rw [lineStart]
    by_cases hlen : w.length = 0
    · simp only [hlen, if_true]
      split <;> rfl
    · rw [if_neg hlen, rfindNewline_front hw (w.length - 1) (by omega)]
  · rw [List.concat_eq_append, terminated_concat]
    have hlen : (terminated '\n' ws ++ v ++ ['\n'] ++ w).length =
        (terminated '\n' ws ++ v).length + w.length + 1 := by
      simp only [List.length_append, List.length_singleton]
      omega
    have hlast :=
      rfindNewline_word hw (terminated '\n' ws ++ v) rest w.length le_rfl
    rw [List.append_cons] at hlast
    rw [lineStart, hlen, if_neg (by omega), Nat.add_sub_cancel, hlast]
    dsimp only
    rw [if_neg (by omega)]
    simp only [List.length_append, List.length_singleton]

/-- **The line around a position** is what is before it and behind it up to the newlines. -/
theorem lineAt_spec {w w' rest : Text} (hw : '\n' ∉ w) (hw' : '\n' ∉ w') (hrest : Ends '\n' rest)
    (ws : List Text) :
    lineAt (terminated '\n' ws ++ w).length (terminated '\n' ws ++ w ++ w' ++ rest) = w ++ w' := by
  have hstart := lineStart_spec hw ws (w' ++ rest)
  rw [← List.append_assoc] at hstart
  rw [lineAt, hstart, findNewline_word hw' hrest]
  by_cases hnil : rest = []
  · rw [if_pos hnil, hnil, List.append_nil, List.append_assoc]
    exact List.drop_left
  · have hlen : (terminated '\n' ws ++ w).length + w'.length - (terminated '\n' ws).length =
        (w ++ w').length := by
      rw [List.length_append, List.length_append]
      omega
    rw [if_neg hnil]
    dsimp only
    rw [hlen, List.append_assoc, List.append_assoc, ← List.append_assoc w, List.drop_left,
      List.take_left]

/-- A text without a null character is printed as a whole. -/
theorem cStr_of_notMem (h : Char.ofNat 0 ∉ text) : cStr text = text := by
  rw [cStr, List.takeWhile_eq_self_iff]
  intro ch hch
  rw [decide_eq_true_eq]
  rintro rfl
  exact h hch

/-- **A report shows the first line that differs**, each version of it up to its first null
character and so as a whole if the text has none. If the lines are the same, one of them ends
with its text and the other with a newline. -/
theorem reportDifference_spec (what : String) (want got : Text) (h : want ≠ got) :
    ∃ ws w g rest rest', (∀ v ∈ ws, '\n' ∉ v) ∧ '\n' ∉ w ∧ '\n' ∉ g ∧ Ends '\n' rest ∧
      Ends '\n' rest' ∧ want = terminated '\n' ws ++ w ++ rest ∧
      got = terminated '\n' ws ++ g ++ rest' ∧ (w = g → (rest = [] ↔ rest' ≠ [])) ∧
      reportDifference what want got =
        format [.text "golden ", .text what, .text " differs at line ", .unsigned (ws.length + 1),
          .text "\n  committed: "] ++ cStr w ++ format [.text "\n  replayed:  "] ++ cStr g ++
          format [.text "\nIf the change is intended, run: test_golden --update\n"] ∧
      (Char.ofNat 0 ∉ want → cStr w = w) ∧ (Char.ofNat 0 ∉ got → cStr g = g) := by
  obtain ⟨hwant, hgot, htake, hne⟩ := firstDifference_spec want got
  have hne := hne h
  obtain ⟨ws, a, hfront, hws, ha, hcount⟩ :=
    exists_terminated '\n' (want.take (firstDifference want got))
  obtain ⟨b, rest, hbehind, hb, hrest⟩ := exists_word '\n' (want.drop (firstDifference want got))
  obtain ⟨b', rest', hbehind', hb', hrest'⟩ :=
    exists_word '\n' (got.drop (firstDifference want got))
  have hlen : firstDifference want got = (terminated '\n' ws ++ a).length := by
    rw [← hfront, List.length_take_of_le hwant]
  have hwant_eq : want = terminated '\n' ws ++ a ++ b ++ rest := by
    rw [List.append_assoc, ← hbehind, ← hfront, List.take_append_drop]
  have hgot_eq : got = terminated '\n' ws ++ a ++ b' ++ rest' := by
    rw [List.append_assoc, ← hbehind', ← hfront, htake, List.take_append_drop]
  refine ⟨ws, a ++ b, a ++ b', rest, rest', hws, ?_, ?_, hrest, hrest', ?_, ?_, ?_, ?_, ?_, ?_⟩
  · rw [List.mem_append, not_or]
    exact ⟨ha, hb⟩
  · rw [List.mem_append, not_or]
    exact ⟨ha, hb'⟩
  · rw [hwant_eq]
    simp only [List.append_assoc]
  · rw [hgot_eq]
    simp only [List.append_assoc]
  · intro hsame
    -- what is behind the difference begins differently
    rw [← List.head?_drop, ← List.head?_drop, hbehind, hbehind',
      List.append_cancel_left hsame] at hne
    cases b' with
    | cons c b' => exact absurd rfl hne
    | nil =>
      rw [List.nil_append, List.nil_append] at hne
      cases rest with
      | nil =>
        refine iff_of_true rfl fun hnil => hne ?_
        rw [hnil]
      | cons c rest =>
        refine iff_of_false (List.cons_ne_nil _ _) (not_not.mpr ?_)
        cases rest' with
        | nil => rfl
        | cons c' rest' =>
          rw [List.head?_cons, List.head?_cons, hrest c rfl, hrest' c' rfl] at hne
          exact absurd rfl hne
  · rw [reportDifference, hcount, hlen, Nat.add_comm]
    have hline := lineAt_spec ha hb hrest ws
    have hline' := lineAt_spec ha hb' hrest' ws
    rw [← hwant_eq] at hline
    rw [← hgot_eq] at hline'
    rw [hline, hline', differs]
  · intro hnull
    apply cStr_of_notMem
    rw [hwant_eq] at hnull
    exact fun hmem => hnull (by simp only [List.mem_append] at hmem ⊢; tauto)
  · intro hnull
    apply cStr_of_notMem
    rw [hgot_eq] at hnull
    exact fun hmem => hnull (by simp only [List.mem_append] at hmem ⊢; tauto)

/-- The logs have the same second line, but one of them ends before its newline. -/
theorem reportDifference_spec_cut :
    ∃ ws w g rest rest', (∀ v ∈ ws, '\n' ∉ v) ∧ '\n' ∉ w ∧ '\n' ∉ g ∧ Ends '\n' rest ∧
      Ends '\n' rest' ∧ "A\nB\n".toList = terminated '\n' ws ++ w ++ rest ∧
      "A\nB".toList = terminated '\n' ws ++ g ++ rest' ∧ (w = g → (rest = [] ↔ rest' ≠ [])) ∧
      reportDifference "event log" "A\nB\n".toList "A\nB".toList =
        format [.text "golden ", .text "event log", .text " differs at line ",
          .unsigned (ws.length + 1), .text "\n  committed: "] ++ w ++
          format [.text "\n  replayed:  "] ++ g ++
          format [.text "\nIf the change is intended, run: test_golden --update\n"] := by
  obtain ⟨ws, w, g, rest, rest', hws, hw, hg, hrest, hrest', hwant, hgot, hsame, hreport, hw',
    hg'⟩ := reportDifference_spec "event log" "A\nB\n".toList "A\nB".toList (by decide)
  rw [hw' (by decide), hg' (by decide)] at hreport
  exact ⟨ws, w, g, rest, rest', hws, hw, hg, hrest, hrest', hwant, hgot, hsame, hreport⟩

/-! ## The check -/

/-- A comparison passes exactly if the texts are equal. -/
theorem same_fst_iff {what : String} {want got : Text} :
    (same what want got).1 = true ↔ want = got := by
  rw [same]
  split <;> simp_all

/-- All three comparisons pass exactly if all the files are equal. -/
theorem compared_code_iff {committed replayed : Golden} :
    (compared committed replayed).code = 0 ↔ committed = replayed := by
  have hcode : (compared committed replayed).code = 0 ↔
      ((same "event log" committed.events replayed.events).1 &&
        (same "book" committed.book replayed.book).1 &&
        (same "journal bytes" committed.hex replayed.hex).1) = true := by
    unfold compared
    dsimp only
    split <;> simp_all
  rw [hcode, Bool.and_eq_true, Bool.and_eq_true, same_fst_iff, same_fst_iff, same_fst_iff]
  constructor
  · rintro ⟨⟨hevents, hbook⟩, hhex⟩
    cases committed
    cases replayed
    rw [Golden.mk.injEq]
    exact ⟨hhex, hevents, hbook⟩
  · rintro rfl
    exact ⟨⟨rfl, rfl⟩, rfl⟩

/-- Files compared with themselves pass. -/
theorem compared_self (files : Golden) :
    compared files files = { code := 0, out := "golden ok\n".toList } := by
  simp [compared, same, format, Piece.render]

/-- The coverage check passes exactly if every needle is in the text. -/
theorem checkCoverage_eq_none_iff :
    checkCoverage text = none ↔ ∀ needle ∈ needles, needle.toList <:+: text := by
  rw [checkCoverage, Option.map_eq_none_iff, List.find?_eq_none]
  simp only [Bool.not_eq_true', decide_eq_false_iff_not, not_not]

/-- The replay of a whole journal. -/
theorem replay_whole (capacity : Index) (cmds : List Command) :
    ∃ l text, live capacity cmds = .ok l ∧ serializeBook l.book = .ok text ∧
      replay (journalBytes capacity cmds) = .ok (true,
        { log := l.log, book := text, commands := UInt64.ofNat cmds.length, stop := .end,
          validBytes := (journalBytes capacity cmds).length }) := by
  have hreplay := replay_journal (show Status.end ≠ .ok by decide)
    (next_end capacity (journalBytes capacity cmds))
  rwa [List.append_nil] at hreplay

/-- A replay that reaches the end of its data is that of a whole journal. -/
theorem journal_of_replay {r : Replayed} (h : replay bytes = .ok (true, r))
    (hvalid : r.validBytes = bytes.length) :
    ∃ capacity cmds, (∀ c ∈ cmds, Canonical c) ∧ bytes = journalBytes capacity cmds := by
  rcases replay_cases bytes with ⟨status, -, hreplay⟩ | ⟨capacity, cmds, t, status, hcmds, rfl, l,
    text, -, -, hreplay⟩
  · rw [h, Except.ok.injEq, Prod.mk.injEq] at hreplay
    exact absurd hreplay.1 (by decide)
  rw [h, Except.ok.injEq, Prod.mk.injEq] at hreplay
  rw [hreplay.2, List.length_append] at hvalid
  dsimp only at hvalid
  -- there is nothing behind the records
  have hnil : t = [] := List.length_eq_zero_iff.mp (by omega)
  rw [hnil, List.append_nil]
  exact ⟨capacity, cmds, hcmds, rfl⟩

/-- What the check does with the journal of some commands. -/
theorem goldenCheck_journal (files : Golden) (hcmds : ∀ c ∈ cmds, Canonical c)
    (hread : fromHex files.hex = (true, journalBytes capacity cmds)) :
    ∃ l text, live capacity cmds = .ok l ∧ serializeBook l.book = .ok text ∧
      goldenCheck files = .ok (match checkCoverage files.events with
        | some err => { code := aborted, err }
        | none => compared files
            { hex := toHex (journalBytes capacity cmds), events := l.log, book := text }) := by
  obtain ⟨l, text, hlive, htext, hreplay⟩ := replay_whole capacity cmds
  refine ⟨l, text, hlive, htext, ?_⟩
  rw [goldenCheck, hread]
  dsimp only
  rw [require_of rfl, ok_bind, hreplay, ok_bind]
  dsimp only
  rw [require_of rfl, ok_bind, require_of rfl, ok_bind, require_of rfl, ok_bind]
  cases checkCoverage files.events with
  | some err => rfl
  | none =>
    have hall := readAll_journalBytes capacity hcmds
    have hopen := open_encodeHeader capacity (encodeAll cmds)
    rw [readAll, journalBytes, hopen, ok_bind] at hall
    dsimp only at hall ⊢
    rw [if_pos rfl] at hall
    rw [journalBytes, hopen, ok_bind]
    dsimp only
    rw [require_of rfl, ok_bind, hall]
    rfl

/-- **The golden check passes** exactly on the hex of the journal of some commands, the event log
and the book of their live run, with a log that reaches every path. -/
theorem golden_check_passes_iff (files : Golden) :
    (∃ e, goldenCheck files = .ok e ∧ e.code = 0) ↔
      ∃ capacity cmds l, (∀ c ∈ cmds, Canonical c) ∧
        files.hex = toHex (journalBytes capacity cmds) ∧ live capacity cmds = .ok l ∧
        files.events = l.log ∧ serializeBook l.book = .ok files.book ∧
        ∀ needle ∈ needles, needle.toList <:+: files.events := by
  constructor
  · rintro ⟨e, hcheck, hcode⟩
    have hbytes : ∃ capacity cmds, (∀ c ∈ cmds, Canonical c) ∧
        fromHex files.hex = (true, journalBytes capacity cmds) := by
      have hpassed := hcheck
      rw [goldenCheck] at hpassed
      obtain ⟨u, hread, hpassed⟩ := bind_eq_ok.mp hpassed
      obtain ⟨⟨opened, r⟩, hreplay, hpassed⟩ := bind_eq_ok.mp hpassed
      obtain ⟨u, hopened, hpassed⟩ := bind_eq_ok.mp hpassed
      obtain ⟨u, -, hpassed⟩ := bind_eq_ok.mp hpassed
      obtain ⟨u, hvalid, -⟩ := bind_eq_ok.mp hpassed
      have hopened : opened = true := of_require hopened
      rw [hopened] at hreplay
      obtain ⟨capacity, cmds, hcmds, hbytes⟩ :=
        journal_of_replay hreplay (of_require hvalid)
      exact ⟨capacity, cmds, hcmds, Prod.ext (of_require hread) hbytes⟩
    obtain ⟨capacity, cmds, hcmds, hread⟩ := hbytes
    obtain ⟨l, text, hlive, htext, hcheck'⟩ := goldenCheck_journal files hcmds hread
    rw [hcheck, Except.ok.injEq] at hcheck'
    cases hcover : checkCoverage files.events with
    | some err =>
      rw [hcheck', hcover] at hcode
      exact absurd hcode (Nat.succ_ne_zero _)
    | none =>
      rw [hcheck', hcover] at hcode
      have hfiles := compared_code_iff.mp hcode
      refine ⟨capacity, cmds, l, hcmds, congrArg Golden.hex hfiles, hlive,
        congrArg Golden.events hfiles, ?_, checkCoverage_eq_none_iff.mp hcover⟩
      rw [htext, hfiles]
  · rintro ⟨capacity, cmds, l, hcmds, hhex, hlive, hevents, hbook, hcover⟩
    have hread : fromHex files.hex = (true, journalBytes capacity cmds) := by
      rw [hhex, fromHex_toHex]
    obtain ⟨l', text, hlive', htext, hcheck⟩ := goldenCheck_journal files hcmds hread
    rw [hlive, Except.ok.injEq] at hlive'
    rw [← hlive', hbook, Except.ok.injEq] at htext
    rw [checkCoverage_eq_none_iff.mpr hcover] at hcheck
    refine ⟨_, hcheck, compared_code_iff.mpr ?_⟩
    rw [← hhex, ← hlive', ← hevents, ← htext]

/-- **The check passes on what an update wrote**, whatever stream and capacity it is made for. An
update writes nothing if the stream does not reach every path, and runs into no fault. -/
theorem golden_update_passes (dir : String) (seed n : UInt64) (capacity : Index) :
    ∃ cmds l, make seed n = .ok cmds ∧ live capacity cmds = .ok l ∧
      if ∀ needle ∈ needles, needle.toList <:+: l.log then
        ∃ e files, goldenUpdate dir seed n capacity = .ok (e, some files) ∧ e.code = 0 ∧
          fromHex files.hex = (true, journalBytes capacity cmds) ∧
          goldenCheck files = .ok { code := 0, out := "golden ok\n".toList }
      else
        ∃ e, goldenUpdate dir seed n capacity = .ok (e, none) ∧ e.code = aborted := by
  obtain ⟨cmds, hmake, -, hcmds, -⟩ := make_spec seed n
  obtain ⟨l, text, hlive, htext, hreplay⟩ := replay_whole capacity cmds
  refine ⟨cmds, l, hmake, hlive, ?_⟩
  have hgenerate : generate seed n capacity = .ok (journalBytes capacity cmds,
      { log := l.log, book := text, commands := UInt64.ofNat cmds.length, stop := .end,
        validBytes := (journalBytes capacity cmds).length }) := by
    rw [generate, hmake, ok_bind]
    dsimp only
    rw [hreplay, ok_bind]
    rfl
  split
  · rename_i hcover
    have hnone := checkCoverage_eq_none_iff.mpr hcover
    refine ⟨_, { hex := toHex (journalBytes capacity cmds), events := l.log, book := text },
      by rw [goldenUpdate, hgenerate, ok_bind]; dsimp only; rw [hnone]; rfl, rfl,
      fromHex_toHex _, ?_⟩
    obtain ⟨l', text', hlive', htext', hcheck⟩ := goldenCheck_journal
      { hex := toHex (journalBytes capacity cmds), events := l.log, book := text } hcmds
      (fromHex_toHex _)
    rw [hlive, Except.ok.injEq] at hlive'
    rw [← hlive', htext, Except.ok.injEq] at htext'
    rw [hcheck, hnone, ← hlive', ← htext']
    exact congrArg Except.ok (compared_self _)
  · rename_i hcover
    cases hmissing : checkCoverage l.log with
    | none => exact absurd (checkCoverage_eq_none_iff.mp hmissing) hcover
    | some err =>
      refine ⟨{ code := aborted, err }, ?_, rfl⟩
      rw [goldenUpdate, hgenerate, ok_bind]
      dsimp only
      rw [hmissing]
      rfl

end Replay

end MatchingEngine
