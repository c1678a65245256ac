import MatchingEngine.Journal.JournalTheorems

/-!
# The command journal — records

A record decodes to the command it encodes, up to the fields that mean nothing for its kind
(`decode_recordBody`), and what decodes to a command is the record of that command
(`decode_sound`).
-/

namespace MatchingEngine

namespace Journal

variable {data pre mid post bytes rec : List UInt8} {pos n : ℕ} {c : Command} {cmds : List Command}

/-! ## Canonical commands -/

/-- The command with the fields that its kind does not use at their defaults. -/
def canon (c : Command) : Command :=
  match c.kind with
  | .limit => limitCommand c.id c.side c.price c.qty c.account c.tif
  | .market => marketCommand c.id c.side c.qty c.account
  | .cancel => cancelCommand c.id
  | .modify => modifyCommand c.id c.price c.qty

/-- The fields that the kind does not use are at their defaults. -/
abbrev Canonical (c : Command) : Prop := canon c = c

@[simp] theorem kind_canon (c : Command) : (canon c).kind = c.kind := by
  unfold canon
  cases h : c.kind <;> rfl

/-- A command without its unused fields is canonical. -/
@[simp] theorem canon_canon (c : Command) : Canonical (canon c) := by
  unfold Canonical canon
  cases h : c.kind <;> rfl

/-! ## Lengths -/

/-- The payload has the size of its kind. -/
theorem length_payload (c : Command) : (payload c).length = payloadSize (kindByte c.kind) := by
  unfold payload
  cases h : c.kind <;> simp [payloadSize, kindByte]

@[simp] theorem length_recordBody (c : Command) :
    (recordBody c).length = payloadSize (kindByte c.kind) + 1 := by
  rw [recordBody, List.length_cons, length_payload]

/-- The size of a record: a kind byte, the payload and the checksum. -/
theorem length_encode (c : Command) :
    (encode c).length = payloadSize (kindByte c.kind) + 1 + 4 := by
  rw [encode, List.length_append, length_recordBody, length_put]

/-- Every kind of command has a payload. -/
theorem payloadSize_ne (c : Command) : payloadSize (kindByte c.kind) ≠ 0 := by
  cases c.kind <;> decide

@[simp] theorem length_headerBody (capacity : Index) : (headerBody capacity).length = 16 := by
  rw [headerBody, List.length_append, List.length_append, length_put, length_put]
  rfl

@[simp] theorem length_encodeHeader (capacity : Index) : (encodeHeader capacity).length = 20 := by
  rw [encodeHeader, List.length_append, length_headerBody, length_put]

/-! ## Reading bytes -/

/-- A read skips the bytes before its position. -/
theorem bytesAt_append (hpre : pre.length ≤ pos) :
    bytesAt (pre ++ post) pos n = bytesAt post (pos - pre.length) n := by
  have hle : pos + n ≤ (pre ++ post).length ↔ pos - pre.length + n ≤ post.length := by
    rw [List.length_append]
    omega
  have hdrop : (pre ++ post).drop pos = post.drop (pos - pre.length) := by
    rw [List.drop_append, List.drop_eq_nil_of_le hpre, List.nil_append]
  rw [bytesAt, bytesAt, hdrop]
  simp only [hle]

/-- The bytes at the front. -/
theorem bytesAt_here (hn : mid.length = n) : bytesAt (mid ++ post) 0 n = .ok mid := by
  subst hn
  rw [bytesAt, if_pos (by rw [List.length_append]; omega), List.drop_zero, List.take_left]
  rfl

/-- A field behind some bytes. -/
theorem fieldAt_append (hpre : pre.length ≤ pos) :
    fieldAt (pre ++ post) pos n = fieldAt post (pos - pre.length) n := by
  rw [fieldAt, fieldAt, bytesAt_append hpre]

@[simp] theorem fieldAt_cons (b : UInt8) (data : List UInt8) (pos n : ℕ) :
    fieldAt (b :: data) (pos + 1) n = fieldAt data pos n := by
  have hpre : [b].length ≤ pos + 1 := Nat.le_add_left 1 pos
  exact fieldAt_append hpre

/-- The field at the front. -/
theorem fieldAt_here (hn : mid.length = n) : fieldAt (mid ++ post) 0 n = .ok (get mid) := by
  rw [fieldAt, bytesAt_here hn]
  rfl

@[simp] theorem byteAt_cons (b : UInt8) (data : List UInt8) (pos : ℕ) :
    byteAt (b :: data) (pos + 1) = byteAt data pos := rfl

@[simp] theorem byteAt_zero (b : UInt8) (data : List UInt8) : byteAt (b :: data) 0 = .ok b := rfl

/-- A byte behind some bytes. -/
theorem byteAt_append (hpre : pre.length ≤ pos) :
    byteAt (pre ++ post) pos = byteAt post (pos - pre.length) := by
  rw [byteAt, byteAt, List.getElem?_append_right hpre]

theorem fieldAt_all (hn : mid.length = n) : fieldAt mid 0 n = .ok (get mid) := by
  have h : fieldAt (mid ++ []) 0 n = .ok (get mid) := fieldAt_here hn
  rwa [List.append_nil] at h

/-- Bytes can be split where there are enough of them. -/
theorem exists_split (h : n ≤ data.length) : ∃ pre post, data = pre ++ post ∧ pre.length = n :=
  ⟨data.take n, data.drop n, (List.take_append_drop n data).symm, List.length_take_of_le h⟩

/-! ## Fields -/

section Fields

variable {id price qty account : List UInt8} (side tif : UInt8)

/-- A limit record is decoded if its side and time in force exist. -/
theorem decode_limit (hid : id.length = 8) (hprice : price.length = 8) (hqty : qty.length = 4)
    (haccount : account.length = 4) :
    decode (kindByte .limit :: (id ++ side :: tif :: (price ++ (qty ++ account)))) =
      if side > 1 then .ok none
      else if tif > 2 then .ok none
      else .ok (some (limitCommand (get id) (sideOf side) (get price).toInt64 (get qty).toUInt32
        (get account).toUInt32 (tifOf tif))) := by
  simp [decode, fieldAt_append, byteAt_append, fieldAt_here, fieldAt_all, hid, hprice, hqty,
    haccount]
  rfl

/-- A market record is decoded if its side exists. -/
theorem decode_market (hid : id.length = 8) (hqty : qty.length = 4)
    (haccount : account.length = 4) :
    decode (kindByte .market :: (id ++ side :: (qty ++ account))) =
      if side > 1 then .ok none
      else .ok (some (marketCommand (get id) (sideOf side) (get qty).toUInt32
        (get account).toUInt32)) := by
  have hkind : kindByte .market ≠ kindByte .limit := by decide
  simp [decode, fieldAt_append, byteAt_append, fieldAt_here, fieldAt_all, hid, hqty, haccount,
    hkind]
  rfl

/-- A cancel record is always decoded. -/
theorem decode_cancel (hid : id.length = 8) :
    decode (kindByte .cancel :: id) = .ok (some (cancelCommand (get id))) := by
  have hlimit : kindByte .cancel ≠ kindByte .limit := by decide
  have hmarket : kindByte .cancel ≠ kindByte .market := by decide
  simp [decode, fieldAt_all, hid, hlimit, hmarket]
  rfl

/-- A modify record is always decoded. -/
theorem decode_modify (hid : id.length = 8) (hprice : price.length = 8) (hqty : qty.length = 4) :
    decode (kindByte .modify :: (id ++ (price ++ qty))) =
      .ok (some (modifyCommand (get id) (get price).toInt64 (get qty).toUInt32)) := by
  have hlimit : kindByte .modify ≠ kindByte .limit := by decide
  have hmarket : kindByte .modify ≠ kindByte .market := by decide
  have hcancel : kindByte .modify ≠ kindByte .cancel := by decide
  simp [decode, fieldAt_append, fieldAt_here, fieldAt_all, hid, hprice, hqty, hlimit, hmarket,
    hcancel]
  rfl

end Fields

@[simp] theorem sideOf_sideByte (side : Side) : sideOf (sideByte side) = side := by
  cases side <;> rfl

@[simp] theorem tifOf_tifByte (tif : TimeInForce) : tifOf (tifByte tif) = tif := by
  cases tif <;> rfl

/-- A side is written as a byte that is read back. -/
theorem sideByte_le (side : Side) : ¬ sideByte side > 1 := by cases side <;> decide

/-- A time in force is written as a byte that is read back. -/
theorem tifByte_le (tif : TimeInForce) : ¬ tifByte tif > 2 := by cases tif <;> decide

/-- A byte in range is one that the encoder writes. -/
theorem sideByte_sideOf {b : UInt8} (h : ¬ b > 1) : sideByte (sideOf b) = b := by
  have hle : b.toNat ≤ 1 := UInt8.le_iff_toNat_le.mp (UInt8.not_lt.mp h)
  have hcases : b = 0 ∨ b = 1 := by
    rw [← UInt8.toNat_inj, ← UInt8.toNat_inj]
    show b.toNat = 0 ∨ b.toNat = 1
    omega
  rcases hcases with rfl | rfl
  · rfl
  · rfl

theorem tifByte_tifOf {b : UInt8} (h : ¬ b > 2) : tifByte (tifOf b) = b := by
  have hle : b.toNat ≤ 2 := UInt8.le_iff_toNat_le.mp (UInt8.not_lt.mp h)
  have hcases : b = 0 ∨ b = 1 ∨ b = 2 := by
    rw [← UInt8.toNat_inj, ← UInt8.toNat_inj, ← UInt8.toNat_inj]
    show b.toNat = 0 ∨ b.toNat = 1 ∨ b.toNat = 2
    omega
  rcases hcases with rfl | rfl | rfl
  · rfl
  · rfl
  · rfl

/-- **Encoded records decode** to what they encode. -/
theorem decode_recordBody (c : Command) : decode (recordBody c) = .ok (some (canon c)) := by
  have hid := length_put c.id 8
  have hprice := length_put c.price.toUInt64 8
  have hqty := length_put c.qty.toUInt64 4
  have haccount := length_put c.account.toUInt64 4
  unfold recordBody payload canon
  cases c.kind with
  | limit =>
    have h := decode_limit (sideByte c.side) (tifByte c.tif) hid hprice hqty haccount
    rw [if_neg (sideByte_le _), if_neg (tifByte_le _)] at h
    simpa using h
  | market =>
    have h := decode_market (sideByte c.side) hid hqty haccount
    rw [if_neg (sideByte_le _)] at h
    simpa using h
  | cancel =>
    have h := decode_cancel hid
    simpa using h
  | modify =>
    have h := decode_modify hid hprice hqty
    simpa using h

/-! ## Decoding is sound -/

/-- A record of a known kind is the kind byte and fields of the right widths. -/
theorem payloadSize_cases {kind : UInt8} (h : payloadSize kind ≠ 0) :
    ∃ k, kind = kindByte k := by
  unfold payloadSize at h
  split_ifs at h with h1 h2 h3 h4
  · exact ⟨_, h1⟩
  · exact ⟨_, h2⟩
  · exact ⟨_, h3⟩
  · exact ⟨_, h4⟩
  · exact absurd rfl h

/-- The parts of the fields of a limit order. -/
theorem split_limit (h : bytes.length = 26) :
    ∃ id side tif price qty account, bytes = id ++ side :: tif :: (price ++ (qty ++ account)) ∧
      id.length = 8 ∧ price.length = 8 ∧ qty.length = 4 ∧ account.length = 4 := by
  obtain ⟨id, l, rfl, hid⟩ := exists_split (by omega : 8 ≤ bytes.length)
  rw [List.length_append, hid] at h
  obtain ⟨side, l, rfl⟩ := List.exists_cons_of_length_pos (by omega : 0 < l.length)
  rw [List.length_cons] at h
  obtain ⟨tif, l, rfl⟩ := List.exists_cons_of_length_pos (by omega : 0 < l.length)
  rw [List.length_cons] at h
  obtain ⟨price, l, rfl, hprice⟩ := exists_split (by omega : 8 ≤ l.length)
  rw [List.length_append, hprice] at h
  obtain ⟨qty, account, rfl, hqty⟩ := exists_split (by omega : 4 ≤ l.length)
  rw [List.length_append, hqty] at h
  exact ⟨id, side, tif, price, qty, account, rfl, hid, hprice, hqty, by omega⟩

/-- The parts of the fields of a market order. -/
theorem split_market (h : bytes.length = 17) :
    ∃ id side qty account, bytes = id ++ side :: (qty ++ account) ∧ id.length = 8 ∧
      qty.length = 4 ∧ account.length = 4 := by
  obtain ⟨id, l, rfl, hid⟩ := exists_split (by omega : 8 ≤ bytes.length)
  rw [List.length_append, hid] at h
  obtain ⟨side, l, rfl⟩ := List.exists_cons_of_length_pos (by omega : 0 < l.length)
  rw [List.length_cons] at h
  obtain ⟨qty, account, rfl, hqty⟩ := exists_split (by omega : 4 ≤ l.length)
  rw [List.length_append, hqty] at h
  exact ⟨id, side, qty, account, rfl, hid, hqty, by omega⟩

/-- **What decodes to a command is the record of that command.** Nothing else of the right
length decodes, and no decoding runs out of the record. -/
theorem decode_sound (k : CommandKind) (fields : List UInt8)
    (hlen : fields.length = payloadSize (kindByte k)) :
    decode (kindByte k :: fields) = .ok none ∨
      ∃ c, decode (kindByte k :: fields) = .ok (some c) ∧ Canonical c ∧
        recordBody c = kindByte k :: fields := by
  cases k with
  | limit =>
    obtain ⟨id, side, tif, price, qty, account, rfl, hid, hprice, hqty, haccount⟩ :=
      split_limit hlen
    have h := decode_limit side tif hid hprice hqty haccount
    by_cases hside : side > 1
    · exact Or.inl (h.trans (if_pos hside))
    by_cases htif : tif > 2
    · exact Or.inl (h.trans ((if_neg hside).trans (if_pos htif)))
    rw [if_neg hside, if_neg htif] at h
    refine Or.inr ⟨_, h, rfl, ?_⟩
    simp only [recordBody, payload, limitCommand, sideByte_sideOf hside, tifByte_tifOf htif,
      put_get_64 hid, UInt64.toUInt64_toInt64, put_get_64 hprice, put_get_32 hqty,
      put_get_32 haccount, List.append_assoc, List.cons_append, List.nil_append]
  | market =>
    obtain ⟨id, side, qty, account, rfl, hid, hqty, haccount⟩ := split_market hlen
    have h := decode_market side hid hqty haccount
    by_cases hside : side > 1
    · exact Or.inl (h.trans (if_pos hside))
    rw [if_neg hside] at h
    refine Or.inr ⟨_, h, rfl, ?_⟩
    simp only [recordBody, payload, marketCommand, sideByte_sideOf hside, put_get_64 hid,
      put_get_32 hqty, put_get_32 haccount, List.cons_append, List.nil_append]
  | cancel =>
    have hid : fields.length = 8 := hlen
    refine Or.inr ⟨_, decode_cancel hid, rfl, ?_⟩
    simp [recordBody, payload, cancelCommand, put_get_64 hid]
  | modify =>
    have hlen : fields.length = 20 := hlen
    obtain ⟨id, l, rfl, hid⟩ := exists_split (by omega : 8 ≤ fields.length)
    rw [List.length_append, hid] at hlen
    obtain ⟨price, qty, rfl, hprice⟩ := exists_split (by omega : 8 ≤ l.length)
    rw [List.length_append, hprice] at hlen
    have hqty : qty.length = 4 := by omega
    refine Or.inr ⟨_, decode_modify hid hprice hqty, rfl, ?_⟩
    simp only [recordBody, payload, modifyCommand, put_get_64 hid, UInt64.toUInt64_toInt64,
      put_get_64 hprice, put_get_32 hqty]

end Journal

end MatchingEngine
