import MatchingEngine.Journal.Reading

/-!
# Damaged journals

The checksum notices every burst of up to 32 bits (`burst_detected`), as long as the kind byte
is whole. A flipped bit of a kind byte can turn one kind into another. The reader then takes
the checksum of another span of bytes from another place, and what it finds there may match.
`flip_detected_iff` says exactly when it does.
-/

namespace MatchingEngine

namespace Journal

open LittleEndian Reader

variable {capacity : Index} {data pre rest more fields stored body body' stored' e : List UInt8}
  {c out : Command} {cmds : List Command} {status : Status} {r : Reader} {n a : ℕ}

/-! ## Checksums of damaged bytes -/

/-- **The checksum of damaged bytes** is right exactly if the error alone leaves nothing in the
register. -/
theorem crc32_damaged (hbody : body.length = body'.length) (hstored : stored'.length = 4) :
    (crc32 body').toUInt64 = get stored' ↔
      (Crc.shift crcPoly)^[8 * (body.length + 4)]
        (value (body ++ put (crc32 body).toUInt64 4) ^^^ value (body' ++ stored')) = 0 := by
  -- without the final complement, checksums are registers
  have hleft := crc32_toNat body
  have hright := crc32_toNat body'
  rw [← hbody] at hright
  have hm : value body < 2 ^ (8 * body.length) := value_lt body
  have hm' : value body' < 2 ^ (8 * body.length) := by
    rw [hbody]
    exact value_lt body'
  have hs : value stored' < 2 ^ 32 := by
    have h := value_lt stored'
    rwa [hstored] at h
  have hK : (crc32 body).toNat < 2 ^ 32 := (crc32 body).toNat_lt
  have hput : value (put (crc32 body).toUInt64 4) = (crc32 body).toNat := by
    rw [value_put _ (by omega), UInt32.toNat_toUInt64]
    exact Nat.mod_eq_of_lt hK
  have hF : 0xFFFFFFFF < 2 ^ 32 := by decide
  have hdamaged := Crc.check_damaged crcPoly_poly hF hm hm' (Nat.xor_lt_two_pow hK hF)
    (Nat.xor_lt_two_pow hs hF) hleft
  -- the two complements cancel out
  have herror : (crc32 body).toNat ^^^ 0xFFFFFFFF ^^^
      (value stored' ^^^ 0xFFFFFFFF) = (crc32 body).toNat ^^^ value stored' := by
    rw [Nat.xor_comm (value stored'), Nat.xor_assoc, ← Nat.xor_assoc _ _ (value stored'),
      Nat.xor_self, Nat.zero_xor]
  have hsame : value stored' ^^^ 0xFFFFFFFF = (crc32 body').toNat ^^^ 0xFFFFFFFF ↔
      value stored' = (crc32 body').toNat := by
    constructor
    · intro h
      have h' := congrArg (· ^^^ 0xFFFFFFFF) h
      simpa only [Nat.xor_xor_cancel_right] using h'
    · exact fun h => by rw [h]
  rw [← hright, hsame, herror] at hdamaged
  rw [value_append, value_append, ← hbody, hput, ← Crc.add_xor_add hm hm', Nat.mul_add]
  rw [← hdamaged, ← UInt64.toNat_inj, UInt32.toNat_toUInt64, get_toNat (by omega)]
  exact eq_comm

/-- A burst of up to 32 bits makes the checksum wrong. -/
theorem crc32_burst (hlen : e.length = body.length + 4) (hburst : Burst 32 e) (hne : Nonzero e)
    (hbody : body.length = body'.length) (hstored : stored'.length = 4)
    (hxor : xorBytes (body ++ put (crc32 body).toUInt64 4) e = body' ++ stored') :
    (crc32 body').toUInt64 ≠ get stored' := by
  have hlen' : (body ++ put (crc32 body).toUInt64 4).length = e.length := by
    rw [List.length_append, length_put, hlen]
  obtain ⟨a, x, hvalue, hx0, hx, ha⟩ := value_of_burst hburst hne
  rw [Ne, crc32_damaged hbody hstored, ← hxor, value_xorBytes hlen', ← Nat.xor_assoc, Nat.xor_self,
    Nat.zero_xor, hvalue]
  rw [hlen] at ha
  exact Crc.burst_ne_zero crcPoly_poly hx hx0 ha

/-! ## Bursts -/

/-- A damaged record is a kind byte, and the parts of the rest. -/
theorem xorBytes_encode (hlen : e.length = (encode c).length) (hkind : e.head? = some 0) :
    ∃ fields stored, xorBytes (encode c) e = kindByte c.kind :: (fields ++ stored) ∧
      fields.length = payloadSize (kindByte c.kind) ∧ stored.length = 4 := by
  have hsplit : encode c =
      kindByte c.kind :: (payload c ++ put (crc32 (recordBody c)).toUInt64 4) := by
    rw [encode, recordBody, List.cons_append]
  cases e with
  | nil => cases hkind
  | cons b e =>
    rw [List.head?_cons, Option.some.injEq] at hkind
    subst hkind
    rw [length_encode, List.length_cons] at hlen
    obtain ⟨front, back, rfl, hfront⟩ :=
      exists_split (by omega : payloadSize (kindByte c.kind) ≤ e.length)
    rw [List.length_append] at hlen
    have hpayload : (payload c).length = front.length := by rw [length_payload, hfront]
    have hstored : (put (crc32 (recordBody c)).toUInt64 4).length = back.length := by
      rw [length_put]
      omega
    refine ⟨xorBytes (payload c) front, xorBytes (put (crc32 (recordBody c)).toUInt64 4) back,
      ?_, ?_, ?_⟩
    · rw [hsplit, xorBytes, List.zipWith_cons_cons, ← xorBytes, xorBytes_append hpayload,
        UInt8.xor_zero]
    · rw [length_xorBytes hpayload, length_payload]
    · rw [length_xorBytes hstored, length_put]

/-- A burst that leaves the kind byte as it is makes the checksum of a record wrong. -/
theorem next_burst (capacity : Index) (pre more : List UInt8) (out : Command)
    (hlen : e.length = (encode c).length) (hkind : e.head? = some 0) (hburst : Burst 32 e)
    (hne : Nonzero e) :
    (between capacity pre (xorBytes (encode c) e ++ more)).next out =
      .ok (between capacity pre (xorBytes (encode c) e ++ more), out, .badChecksum) := by
  obtain ⟨fields, stored, hxor, hfields, hstored⟩ := xorBytes_encode hlen hkind
  have hlen' : e.length = (recordBody c).length + 4 := by
    rw [hlen, length_encode, length_recordBody]
  have hbody : (recordBody c).length = (kindByte c.kind :: fields).length := by
    rw [length_recordBody, List.length_cons, hfields]
  have hcrc := crc32_burst hlen' hburst hne hbody hstored hxor
  rw [hxor, List.cons_append, List.append_assoc,
    next_full (payloadSize_ne c) hfields hstored, if_pos hcrc]

/-- A burst in the header keeps it from opening. -/
theorem open_burst (capacity : Index) (rest : List UInt8)
    (hlen : e.length = (encodeHeader capacity).length) (hburst : Burst 32 e) (hne : Nonzero e) :
    ∃ status, (Reader.new (xorBytes (encodeHeader capacity) e ++ rest)).openHeader =
      .ok (Reader.new (xorBytes (encodeHeader capacity) e ++ rest), status) ∧ status ≠ .ok := by
  rw [length_encodeHeader] at hlen
  have hdamaged : (xorBytes (encodeHeader capacity) e).length = 20 := by
    rw [length_xorBytes (by rw [length_encodeHeader, hlen]), length_encodeHeader]
  generalize hx : xorBytes (encodeHeader capacity) e = damaged at hdamaged ⊢
  obtain ⟨magic, l, rfl, hmagic⟩ := exists_split (by omega : 8 ≤ damaged.length)
  rw [List.length_append] at hdamaged
  obtain ⟨version, l, rfl, hversion⟩ := exists_split (by omega : 4 ≤ l.length)
  rw [List.length_append] at hdamaged
  obtain ⟨size, stored, rfl, hsize⟩ := exists_split (by omega : 4 ≤ l.length)
  rw [List.length_append] at hdamaged
  have hstored : stored.length = 4 := by omega
  have hbody : (headerBody capacity).length = (magic ++ (version ++ size)).length := by
    rw [length_headerBody, List.length_append, List.length_append]
    omega
  have hassoc : magic ++ (version ++ (size ++ stored)) = magic ++ (version ++ size) ++ stored := by
    simp only [List.append_assoc]
  have hcrc := crc32_burst (by rw [hlen, length_headerBody]) hburst hne hbody hstored
    (hx.trans hassoc)
  have hopen := open_full hmagic hversion hsize hstored rest
  simp only [List.append_assoc]
  rw [hopen]
  by_cases h : magic ≠ kMagic
  · exact ⟨.badField, if_pos h, by decide⟩
  · rw [if_neg h, if_pos hcrc]
    exact ⟨.badChecksum, rfl, by decide⟩

/-- **Bursts are detected**: one of up to 32 bits in a record, unless it touches the kind byte,
and one of up to 32 bits in the header. -/
theorem burst_detected :
    (∀ (c out : Command) (e pre more : List UInt8) (r : Reader), e.length = (encode c).length →
      Burst 32 e → Nonzero e → e.head? = some 0 →
      r.data = pre ++ (xorBytes (encode c) e ++ more) → r.pos = pre.length →
      r.next out = .ok (r, out, .badChecksum)) ∧
    ∀ (capacity : Index) (e rest : List UInt8), e.length = kHeaderSize →
      Burst 32 e → Nonzero e →
      ∃ status, (Reader.new (xorBytes (encodeHeader capacity) e ++ rest)).openHeader =
        .ok (Reader.new (xorBytes (encodeHeader capacity) e ++ rest), status) ∧ status ≠ .ok := by
  constructor
  · intro c out e pre more r hlen hburst hne hkind hdata hpos
    rw [eq_between hdata hpos]
    exact next_burst r.capacity pre more out hlen hkind hburst hne
  · intro capacity e rest hlen hburst hne
    exact open_burst capacity rest (hlen.trans (length_encodeHeader capacity).symm) hburst hne

/-- A burst over the end of the id and the checksum of a cancel, and one in a header. -/
theorem burst_detected_cancel :
    (Reader.new (xorBytes (encode (cancelCommand 5))
        [0, 0, 0, 0, 0, 0, 0, 0, 128, 3, 0, 0, 127])).next {} =
      .ok (Reader.new (xorBytes (encode (cancelCommand 5))
        [0, 0, 0, 0, 0, 0, 0, 0, 128, 3, 0, 0, 127]), {}, .badChecksum) ∧
    ∃ status, (Reader.new (xorBytes (encodeHeader 5) (List.replicate 16 0 ++ [255, 1, 2, 3]) ++
        [])).openHeader =
      .ok (Reader.new (xorBytes (encodeHeader 5) (List.replicate 16 0 ++ [255, 1, 2, 3]) ++ []),
        status) ∧ status ≠ .ok :=
  ⟨burst_detected.1 (cancelCommand 5) {} [0, 0, 0, 0, 0, 0, 0, 0, 128, 3, 0, 0, 127] [] []
      (Reader.new (xorBytes (encode (cancelCommand 5))
        [0, 0, 0, 0, 0, 0, 0, 0, 128, 3, 0, 0, 127]))
      (by decide) (burst_of_forall_lt 71 (by decide +kernel)) ⟨71, by decide⟩ rfl
      (List.append_nil _).symm rfl,
    burst_detected.2 5 (List.replicate 16 0 ++ [255, 1, 2, 3]) [] (by decide)
      (burst_of_forall_lt 128 (by decide +kernel)) ⟨128, by decide⟩⟩

/-! ## Flipped kind bytes -/

/-- What the record of a cancel has before its checksum. -/
def cancelBody (id : OrderId) : List UInt8 := recordBody (cancelCommand id)

/-- The bytes behind the kind byte of a cancel, those of the following records included. -/
def behindCancel (id : OrderId) (after : List UInt8) : List UInt8 :=
  put id 8 ++ put (crc32 (cancelBody id)).toUInt64 4 ++ after

/-- Flipping this bit of the kind byte of `c` goes unnoticed if `after` follows the record.

* A limit or market order becomes a cancel. The checksum is then looked for among its fields.
* A cancel becomes a limit or market order, whose fields and checksum are then looked for in
  the checksum of the cancel and the bytes that follow. -/
def KindFlipUnseen (c : Command) (after : List UInt8) (k : ℕ) : Prop :=
  match c.kind, k with
  | .limit, 1 =>
    (crc32 (cancelBody c.id)).toUInt64 =
      get ([sideByte c.side, tifByte c.tif] ++ put c.price.toUInt64 2)
  | .market, 0 =>
    (crc32 (cancelBody c.id)).toUInt64 = get ([sideByte c.side] ++ put c.qty.toUInt64 3)
  | .cancel, 1 =>
    18 ≤ after.length ∧
      ((behindCancel c.id after).getD 8 0 ≤ 1 ∧ (behindCancel c.id after).getD 9 0 ≤ 2) ∧
      (crc32 (kindByte .limit :: (behindCancel c.id after).take 26)).toUInt64 =
        get (((behindCancel c.id after).drop 26).take 4)
  | .cancel, 0 =>
    9 ≤ after.length ∧ (behindCancel c.id after).getD 8 0 ≤ 1 ∧
      (crc32 (kindByte .market :: (behindCancel c.id after).take 17)).toUInt64 =
        get (((behindCancel c.id after).drop 17).take 4)
  | _, _ => False

/-- The bytes `rest`, wherever they are, do not read as a record, and are not the end. -/
def Fails (rest : List UInt8) : Prop :=
  ∀ capacity pre, ∃ status, status ≠ .ok ∧ status ≠ .end ∧ ∀ out,
    (between capacity pre rest).next out = .ok (between capacity pre rest, out, status)

/-- The bytes `rest`, wherever they are, begin with what reads as a record. -/
def Succeeds (rest : List UInt8) : Prop :=
  ∀ capacity pre, ∃ r c, ∀ out, (between capacity pre rest).next out = .ok (r, c, .ok)

section Outcomes

variable {kind : UInt8}

/-- A kind that does not exist fails. -/
theorem fails_of_badKind (h : payloadSize kind = 0) (rest : List UInt8) : Fails (kind :: rest) :=
  fun _ _ => ⟨.badKind, by decide, by decide, fun _ => next_badKind h⟩

/-- A record that is cut off fails. -/
theorem fails_of_short (h : payloadSize kind ≠ 0) (hlen : rest.length < payloadSize kind + 4) :
    Fails (kind :: rest) :=
  fun _ _ => ⟨.truncated, by decide, by decide, fun _ => next_truncated h hlen⟩

/-- A record fails if its checksum is another one. -/
theorem fails_of_crc32 (h : payloadSize kind ≠ 0) (hfields : fields.length = payloadSize kind)
    (hstored : stored.length = 4) (hcrc : (crc32 (kind :: fields)).toUInt64 ≠ get stored)
    (more : List UInt8) : Fails (kind :: (fields ++ (stored ++ more))) :=
  fun _ _ => ⟨.badChecksum, by decide, by decide, fun _ =>
    (next_full h hfields hstored).trans (if_pos hcrc)⟩

/-- A record fails if a field is out of range. -/
theorem fails_of_field (h : payloadSize kind ≠ 0) (hfields : fields.length = payloadSize kind)
    (hstored : stored.length = 4) (hcrc : (crc32 (kind :: fields)).toUInt64 = get stored)
    (hdecode : decode (kind :: fields) = .ok none) (more : List UInt8) :
    Fails (kind :: (fields ++ (stored ++ more))) := by
  refine fun _ _ => ⟨.badField, by decide, by decide, fun _ => ?_⟩
  rw [next_full h hfields hstored, if_neg (not_not.mpr hcrc), hdecode]
  rfl

/-- A record that decodes is read. -/
theorem succeeds_of_decode (h : payloadSize kind ≠ 0) (hfields : fields.length = payloadSize kind)
    (hstored : stored.length = 4) (hcrc : (crc32 (kind :: fields)).toUInt64 = get stored)
    (hdecode : decode (kind :: fields) = .ok (some c)) (more : List UInt8) :
    Succeeds (kind :: (fields ++ (stored ++ more))) := by
  refine fun capacity pre =>
    ⟨between capacity (pre ++ kind :: (fields ++ stored)) more, c, fun _ => ?_⟩
  rw [next_full h hfields hstored, if_neg (not_not.mpr hcrc), hdecode]
  rfl

end Outcomes

/-- The first bytes of an integer are those of its low end. -/
theorem exists_put_append (v : UInt64) {m n : ℕ} (h : m ≤ n) :
    ∃ back, put v n = put v m ++ back := by
  refine ⟨(put v n).drop m, ?_⟩
  have htake : (put v n).take m = put v m := by
    rw [put, put, ← List.map_take, List.take_range, Nat.min_eq_left h]
  rw [← htake, List.take_append_drop]

/-- Of the 32 ways to flip a bit of a kind byte, four lead to another kind. -/
theorem kindByte_flip (kind : CommandKind) {k : ℕ} (hk : k < 8) :
    payloadSize (kindByte kind ^^^ (1 <<< UInt8.ofNat k)) = 0 ∨ (kind = .limit ∧ k = 1) ∨
      (kind = .market ∧ k = 0) ∨ (kind = .cancel ∧ k = 1) ∨ (kind = .cancel ∧ k = 0) := by
  revert k
  cases kind <;> decide

theorem cancelBody_eq (id : OrderId) : cancelBody id = kindByte .cancel :: put id 8 := by
  rw [cancelBody, recordBody, payload]
  exact congrArg _ (List.append_nil _)

@[simp] theorem length_behindCancel (id : OrderId) (after : List UInt8) :
    (behindCancel id after).length = 12 + after.length := by
  rw [behindCancel, List.length_append, List.length_append, length_put, length_put]

/-- The bytes behind the kind byte of a cancel. -/
theorem behind_eq (h : c.kind = .cancel) (after : List UInt8) :
    payload c ++ (put (crc32 (recordBody c)).toUInt64 4 ++ after) = behindCancel c.id after := by
  have hpayload : payload c = put c.id 8 := by
    rw [payload, h]
    exact List.append_nil _
  have hbody : recordBody c = cancelBody c.id := by
    rw [cancelBody_eq, recordBody, h, hpayload]
  rw [behindCancel, hpayload, hbody, List.append_assoc]

/-- Bytes with the kind byte of a cancel, and an id. The checksum alone decides. -/
theorem cancelLike (id : OrderId) (hstored : stored.length = 4) (more : List UInt8) :
    ((crc32 (cancelBody id)).toUInt64 = get stored ∧
        Succeeds (kindByte .cancel :: (put id 8 ++ (stored ++ more)))) ∨
      (¬ (crc32 (cancelBody id)).toUInt64 = get stored ∧
        Fails (kindByte .cancel :: (put id 8 ++ (stored ++ more)))) := by
  have hkind : payloadSize (kindByte .cancel) ≠ 0 := by decide
  have hid := length_put id 8
  rw [cancelBody_eq]
  by_cases hcrc : (crc32 (kindByte .cancel :: put id 8)).toUInt64 = get stored
  · exact Or.inl ⟨hcrc, succeeds_of_decode hkind hid hstored hcrc (decode_cancel hid) more⟩
  · exact Or.inr ⟨hcrc, fails_of_crc32 hkind hid hstored hcrc more⟩

/-- Bytes with a known kind byte. Their number, the condition `P` on their fields, and the
checksum decide. -/
theorem recordLike (kind : CommandKind) (l : List UInt8) (P : List UInt8 → Prop)
    (hdecode : ∀ fields more, fields.length = payloadSize (kindByte kind) →
      (P (fields ++ more) ∧ ∃ c, decode (kindByte kind :: fields) = .ok (some c)) ∨
        (¬ P (fields ++ more) ∧ decode (kindByte kind :: fields) = .ok none)) :
    ((payloadSize (kindByte kind) + 4 ≤ l.length ∧ P l ∧
        (crc32 (kindByte kind :: l.take (payloadSize (kindByte kind)))).toUInt64 =
          get ((l.drop (payloadSize (kindByte kind))).take 4)) ∧ Succeeds (kindByte kind :: l)) ∨
      (¬ (payloadSize (kindByte kind) + 4 ≤ l.length ∧ P l ∧
        (crc32 (kindByte kind :: l.take (payloadSize (kindByte kind)))).toUInt64 =
          get ((l.drop (payloadSize (kindByte kind))).take 4)) ∧ Fails (kindByte kind :: l)) := by
  have hkind : payloadSize (kindByte kind) ≠ 0 := payloadSize_ne { kind }
  by_cases hlen : payloadSize (kindByte kind) + 4 ≤ l.length
  swap
  · exact Or.inr ⟨fun h => hlen h.1, fails_of_short hkind (not_le.mp hlen)⟩
  obtain ⟨fields, l, rfl, hfields⟩ :=
    exists_split (by omega : payloadSize (kindByte kind) ≤ l.length)
  rw [List.length_append] at hlen
  obtain ⟨stored, more, rfl, hstored⟩ := exists_split (by omega : 4 ≤ l.length)
  rw [List.take_left' hfields, List.drop_left' hfields, List.take_left' hstored,
    List.length_append]
  by_cases hcrc : (crc32 (kindByte kind :: fields)).toUInt64 = get stored
  swap
  · exact Or.inr ⟨fun h => hcrc h.2.2, fails_of_crc32 hkind hfields hstored hcrc more⟩
  rcases hdecode fields (stored ++ more) hfields with ⟨hP, c, hc⟩ | ⟨hP, hnone⟩
  · exact Or.inl ⟨⟨by omega, hP, hcrc⟩,
      succeeds_of_decode hkind hfields hstored hcrc hc more⟩
  · exact Or.inr ⟨fun h => hP h.2.1, fails_of_field hkind hfields hstored hcrc hnone more⟩

/-- What a limit kind byte in front of any bytes is read as. -/
theorem limitLike (l : List UInt8) :
    ((30 ≤ l.length ∧ (l.getD 8 0 ≤ 1 ∧ l.getD 9 0 ≤ 2) ∧
        (crc32 (kindByte .limit :: l.take 26)).toUInt64 = get ((l.drop 26).take 4)) ∧
        Succeeds (kindByte .limit :: l)) ∨
      (¬ (30 ≤ l.length ∧ (l.getD 8 0 ≤ 1 ∧ l.getD 9 0 ≤ 2) ∧
        (crc32 (kindByte .limit :: l.take 26)).toUInt64 = get ((l.drop 26).take 4)) ∧
        Fails (kindByte .limit :: l)) := by
  refine recordLike .limit l (fun l => l.getD 8 0 ≤ 1 ∧ l.getD 9 0 ≤ 2) fun fields more hlen => ?_
  have hlen : fields.length = 26 := hlen
  obtain ⟨id, side, tif, price, qty, account, rfl, hid, hprice, hqty, haccount⟩ := split_limit hlen
  have hside : ((id ++ side :: tif :: (price ++ (qty ++ account))) ++ more).getD 8 0 = side := by
    simp [List.getD_eq_getElem?_getD, hid]
  have htif : ((id ++ side :: tif :: (price ++ (qty ++ account))) ++ more).getD 9 0 = tif := by
    simp [List.getD_eq_getElem?_getD, List.getElem?_append, hid]
  have hdecode := decode_limit side tif hid hprice hqty haccount
  rw [hside, htif]
  by_cases h1 : side > 1
  · exact Or.inr ⟨fun h => UInt8.not_le.mpr h1 h.1, hdecode.trans (if_pos h1)⟩
  by_cases h2 : tif > 2
  · exact Or.inr ⟨fun h => UInt8.not_le.mpr h2 h.2,
      hdecode.trans ((if_neg h1).trans (if_pos h2))⟩
  · exact Or.inl ⟨⟨UInt8.not_lt.mp h1, UInt8.not_lt.mp h2⟩, _,
      hdecode.trans ((if_neg h1).trans (if_neg h2))⟩

/-- What a market kind byte in front of any bytes is read as. -/
theorem marketLike (l : List UInt8) :
    ((21 ≤ l.length ∧ l.getD 8 0 ≤ 1 ∧
        (crc32 (kindByte .market :: l.take 17)).toUInt64 = get ((l.drop 17).take 4)) ∧
        Succeeds (kindByte .market :: l)) ∨
      (¬ (21 ≤ l.length ∧ l.getD 8 0 ≤ 1 ∧
        (crc32 (kindByte .market :: l.take 17)).toUInt64 = get ((l.drop 17).take 4)) ∧
        Fails (kindByte .market :: l)) := by
  refine recordLike .market l (fun l => l.getD 8 0 ≤ 1) fun fields more hlen => ?_
  have hlen : fields.length = 17 := hlen
  obtain ⟨id, side, qty, account, rfl, hid, hqty, haccount⟩ := split_market hlen
  have hside : ((id ++ side :: (qty ++ account)) ++ more).getD 8 0 = side := by
    simp [List.getD_eq_getElem?_getD, hid]
  have hdecode := decode_market side hid hqty haccount
  rw [hside]
  by_cases h1 : side > 1
  · exact Or.inr ⟨UInt8.not_le.mpr h1, hdecode.trans (if_pos h1)⟩
  · exact Or.inl ⟨UInt8.not_lt.mp h1, _, hdecode.trans (if_neg h1)⟩

/-- Only flips that lead to another kind can go unnoticed. -/
theorem payloadSize_of_unseen {after : List UInt8} {k : ℕ} (h : KindFlipUnseen c after k) :
    payloadSize (kindByte c.kind ^^^ (1 <<< UInt8.ofNat k)) ≠ 0 := by
  unfold KindFlipUnseen at h
  split at h
  · next hkind => rw [hkind]; decide
  · next hkind => rw [hkind]; decide
  · next hkind => rw [hkind]; decide
  · next hkind => rw [hkind]; decide
  · exact h.elim

/-- **A flipped kind byte** is noticed, unless `KindFlipUnseen`. -/
theorem flip_kind (c : Command) (after : List UInt8) {k : ℕ} (hk : k < 8) :
    (KindFlipUnseen c after k ∧ Succeeds (flipBit (encode c) 0 k ++ after)) ∨
      (¬ KindFlipUnseen c after k ∧ Fails (flipBit (encode c) 0 k ++ after)) := by
  have hflip : flipBit (encode c) 0 k ++ after = (kindByte c.kind ^^^ (1 <<< UInt8.ofNat k)) ::
      (payload c ++ (put (crc32 (recordBody c)).toUInt64 4 ++ after)) := by
    rw [encode, recordBody, List.cons_append, flipBit, List.modify_zero_cons, List.cons_append,
      List.append_assoc]
  rw [hflip]
  rcases kindByte_flip c.kind hk with
    hbad | ⟨hkind, rfl⟩ | ⟨hkind, rfl⟩ | ⟨hkind, rfl⟩ | ⟨hkind, rfl⟩
  · exact Or.inr ⟨fun h => payloadSize_of_unseen h hbad, fails_of_badKind hbad _⟩
  · -- a limit order becomes a cancel
    obtain ⟨back, hback⟩ := exists_put_append c.price.toUInt64 (by omega : 2 ≤ 8)
    have hstored : ([sideByte c.side, tifByte c.tif] ++ put c.price.toUInt64 2).length = 4 := by
      rw [List.length_append, length_put]
      rfl
    have hbytes : ∀ l, payload c ++ l = put c.id 8 ++
        (([sideByte c.side, tifByte c.tif] ++ put c.price.toUInt64 2) ++
          (back ++ (put c.qty.toUInt64 4 ++ (put c.account.toUInt64 4 ++ l)))) := by
      intro l
      simp only [payload, hkind, hback, List.append_assoc]
    have hkindByte : kindByte c.kind ^^^ (1 <<< UInt8.ofNat 1) = kindByte .cancel := by
      rw [hkind]
      decide
    rw [hbytes, hkindByte]
    simp only [KindFlipUnseen, hkind]
    exact cancelLike c.id hstored _
  · -- a market order becomes a cancel
    obtain ⟨back, hback⟩ := exists_put_append c.qty.toUInt64 (by omega : 3 ≤ 4)
    have hstored : ([sideByte c.side] ++ put c.qty.toUInt64 3).length = 4 := by
      rw [List.length_append, length_put]
      rfl
    have hbytes : ∀ l, payload c ++ l = put c.id 8 ++
        (([sideByte c.side] ++ put c.qty.toUInt64 3) ++
          (back ++ (put c.account.toUInt64 4 ++ l))) := by
      intro l
      simp only [payload, hkind, hback, List.append_assoc]
    have hkindByte : kindByte c.kind ^^^ (1 <<< UInt8.ofNat 0) = kindByte .cancel := by
      rw [hkind]
      decide
    rw [hbytes, hkindByte]
    simp only [KindFlipUnseen, hkind]
    exact cancelLike c.id hstored _
  · -- a cancel becomes a limit order
    have hkindByte : kindByte c.kind ^^^ (1 <<< UInt8.ofNat 1) = kindByte .limit := by
      rw [hkind]
      decide
    have hlen : 30 ≤ (behindCancel c.id after).length ↔ 18 ≤ after.length := by
      rw [length_behindCancel]
      omega
    rw [behind_eq hkind, hkindByte]
    simp only [KindFlipUnseen, hkind]
    rw [← hlen]
    exact limitLike (behindCancel c.id after)
  · -- a cancel becomes a market order
    have hkindByte : kindByte c.kind ^^^ (1 <<< UInt8.ofNat 0) = kindByte .market := by
      rw [hkind]
      decide
    have hlen : 21 ≤ (behindCancel c.id after).length ↔ 9 ≤ after.length := by
      rw [length_behindCancel]
      omega
    rw [behind_eq hkind, hkindByte]
    simp only [KindFlipUnseen, hkind]
    rw [← hlen]
    exact marketLike (behindCancel c.id after)

/-! ## Flipped bits -/

theorem burst_flip {n pos k : ℕ} (hpos : pos < n) (hk : k < 8) :
    Burst 32 (flipBit (List.replicate n 0) pos k) := by
  obtain ⟨⟨a, ha⟩, -⟩ := burst_flipBit hpos hk
  refine ⟨a, fun i hi => ?_⟩
  have h := ha i hi
  omega

/-- **A bit flipped behind the kind byte** makes the checksum wrong. -/
theorem fails_of_flip (c : Command) (after : List UInt8) {pos k : ℕ}
    (hpos : pos < (encode c).length) (h0 : pos ≠ 0) (hk : k < 8) :
    Fails (flipBit (encode c) pos k ++ after) := by
  have hkind : (flipBit (List.replicate (encode c).length 0) pos k).head? = some 0 := by
    obtain ⟨n, hn⟩ := Nat.exists_eq_add_one_of_ne_zero (by omega : (encode c).length ≠ 0)
    obtain ⟨m, rfl⟩ := Nat.exists_eq_add_one_of_ne_zero h0
    rw [hn, List.replicate_succ, flipBit, List.modify_succ_cons]
    rfl
  rw [flipBit_eq_xorBytes]
  exact fun capacity pre => ⟨.badChecksum, by decide, by decide, fun out =>
    next_burst capacity pre after out (by simp) hkind (burst_flip hpos hk)
      (burst_flipBit hpos hk).2⟩

/-- **Flipped header bits** keep the journal from opening. -/
theorem open_flip (capacity : Index) (rest : List UInt8) {pos k : ℕ} (hpos : pos < kHeaderSize)
    (hk : k < 8) : ∃ status,
      (Reader.new (flipBit (encodeHeader capacity) pos k ++ rest)).openHeader =
      .ok (Reader.new (flipBit (encodeHeader capacity) pos k ++ rest), status) ∧ status ≠ .ok := by
  have hpos : pos < (encodeHeader capacity).length := by
    rw [length_encodeHeader]
    exact hpos
  rw [flipBit_eq_xorBytes]
  exact open_burst capacity rest (by simp) (burst_flip hpos hk) (burst_flipBit hpos hk).2

/-- A flipped bit of a journal is detected: in the header the journal does not open, and in a
record the reader returns what was written before and stops at the start of the record. -/
def FlipDetected (capacity : Index) (cmds : List Command) (pos k : ℕ) : Prop :=
  (pos < kHeaderSize → ∃ r status,
    (Reader.new (flipBit (journalBytes capacity cmds) pos k)).openHeader = .ok (r, status) ∧
      status ≠ .ok) ∧
  ∀ before c after, cmds = before ++ c :: after →
    (journalBytes capacity before).length ≤ pos →
    pos < (journalBytes capacity (before ++ [c])).length →
    ∃ r status, readAll (flipBit (journalBytes capacity cmds) pos k) = .ok (r, before, status) ∧
      status ≠ .ok ∧ status ≠ .end ∧ r.validBytes = (journalBytes capacity before).length

/-- The flipped bit is in the kind byte of a record, and goes unnoticed. -/
def FlipUnseen (capacity : Index) (cmds : List Command) (pos k : ℕ) : Prop :=
  ∃ before c after, cmds = before ++ c :: after ∧ pos = (journalBytes capacity before).length ∧
    KindFlipUnseen c (encodeAll after) k

/-- A journal with a flipped bit in one of its records. -/
theorem flipBit_journalBytes (capacity : Index) (before : List Command) (c : Command)
    (after : List Command) {pos : ℕ} (hpos : pos < (encode c).length) (k : ℕ) :
    flipBit (journalBytes capacity (before ++ c :: after))
        ((journalBytes capacity before).length + pos) k =
      journalBytes capacity before ++ (flipBit (encode c) pos k ++ encodeAll after) := by
  have hsplit : journalBytes capacity (before ++ c :: after) =
      journalBytes capacity before ++ (encode c ++ encodeAll after) := by
    rw [journalBytes, journalBytes, encodeAll_append, encodeAll_cons, List.append_assoc]
  rw [hsplit, flipBit_append_right, flipBit_append_left hpos]

/-- If something reads as a record behind a journal, more commands come back than were written. -/
theorem readAll_of_succeeds (capacity : Index) (cmds : List Command) (h : Succeeds rest) :
    ∃ r cs status, readAll (journalBytes capacity cmds ++ rest) = .ok (r, cs, status) ∧
      cmds.length < cs.length := by
  obtain ⟨r, c, hnext⟩ := h capacity (journalBytes capacity cmds)
  rcases next_cases capacity (journalBytes capacity cmds) rest with
    ⟨status, hne, hstay⟩ | ⟨c', more, -, rfl, -⟩
  · have heq := (hnext {}).symm.trans (hstay {})
    rw [Except.ok.injEq, Prod.mk.injEq, Prod.mk.injEq] at heq
    exact absurd heq.2.2.symm hne
  -- the record is that of another command, behind which something else fails to read
  obtain ⟨cs, more, status, hne, -, rfl, hstop, -⟩ := readFrom_spec (more.length + 1) capacity
    (journalBytes capacity (cmds ++ [c'])) more {} (Nat.lt_succ_self _)
  have hbytes : journalBytes capacity (cmds ++ [c']) ++ encodeAll cs =
      journalBytes capacity (cmds ++ c' :: cs) := by
    rw [journalBytes, journalBytes, encodeAll_append, encodeAll_append, encodeAll_cons,
      encodeAll_cons, encodeAll_nil, List.append_nil, List.append_assoc, List.append_assoc]
  rw [hbytes] at hstop
  have hread := readAll_journal capacity (cmds ++ c' :: cs) hne hstop
  have hdata : journalBytes capacity cmds ++ (encode c' ++ (encodeAll cs ++ more)) =
      journalBytes capacity (cmds ++ c' :: cs) ++ more := by
    rw [journalBytes, journalBytes, encodeAll_append, encodeAll_cons]
    simp only [List.append_assoc]
  rw [hdata]
  refine ⟨_, _, status, hread, ?_⟩
  rw [List.length_map, List.length_append, List.length_cons]
  omega

/-- **When flipped bits are detected.** Exactly the flips of kind bytes that meet
`KindFlipUnseen` are not. -/
theorem flip_detected_iff (capacity : Index) (cmds : List Command)
    (hcanon : ∀ c ∈ cmds, Canonical c) (pos k : ℕ) (hk : k < 8) :
    FlipDetected capacity cmds pos k ↔ ¬ FlipUnseen capacity cmds pos k := by
  have hlength : ∀ before c, (journalBytes capacity (before ++ [c])).length =
      (journalBytes capacity before).length + (encode c).length := by
    intro before c
    simp only [journalBytes, encodeAll_append, encodeAll_cons, encodeAll_nil, List.append_nil,
      List.length_append]
    omega
  constructor
  · rintro ⟨-, hrecord⟩ ⟨before, c, after, rfl, rfl, hunseen⟩
    have hpos : 0 < (encode c).length := by
      rw [length_encode]
      omega
    obtain ⟨r, status, hread, -⟩ := hrecord before c after rfl le_rfl (by rw [hlength]; omega)
    have hflip := flipBit_journalBytes capacity before c after hpos k
    rw [Nat.add_zero] at hflip
    rw [hflip] at hread
    rcases flip_kind c (encodeAll after) hk with ⟨-, hsucceeds⟩ | ⟨hseen, -⟩
    · obtain ⟨r', cs, status', hread', hlt⟩ := readAll_of_succeeds capacity before hsucceeds
      rw [hread, Except.ok.injEq, Prod.mk.injEq, Prod.mk.injEq] at hread'
      rw [hread'.2.1] at hlt
      omega
    · exact hseen hunseen
  · intro hseen
    constructor
    · intro hpos
      have hlt : pos < (encodeHeader capacity).length := by
        rw [length_encodeHeader]
        exact hpos
      obtain ⟨status, hopen, hne⟩ := open_flip capacity (encodeAll cmds) hpos hk
      rw [journalBytes, flipBit_append_left hlt]
      exact ⟨_, status, hopen, hne⟩
    · rintro before c after rfl hle hlt
      rw [hlength] at hlt
      obtain ⟨j, rfl⟩ := Nat.exists_eq_add_of_le hle
      have hj : j < (encode c).length := by omega
      have hfails : Fails (flipBit (encode c) j k ++ encodeAll after) := by
        by_cases h0 : j = 0
        · subst h0
          rcases flip_kind c (encodeAll after) hk with ⟨hunseen, -⟩ | ⟨-, hfails⟩
          · exact absurd ⟨before, c, after, rfl, rfl, hunseen⟩ hseen
          · exact hfails
        · exact fails_of_flip c (encodeAll after) hj h0 hk
      obtain ⟨status, hok, hend, hstop⟩ := hfails capacity (journalBytes capacity before)
      have hread := readAll_journal capacity before hok hstop
      rw [map_canon fun c hc => hcanon c (List.mem_append_left _ hc)] at hread
      rw [flipBit_journalBytes capacity before c after hj k]
      exact ⟨_, status, hread, hok, hend, rfl⟩

/-- The second bit of the side byte of a record. -/
theorem flip_detected_iff_cancel_market :
    FlipDetected 65536 [cancelCommand 5, marketCommand 6 .sell 2 3] 42 1 ↔
      ¬ FlipUnseen 65536 [cancelCommand 5, marketCommand 6 .sell 2 3] 42 1 :=
  flip_detected_iff 65536 [cancelCommand 5, marketCommand 6 .sell 2 3] (by decide) 42 1 (by decide)

/-- A market order that reads as a cancel of its own id after one flipped bit: its side and
quantity spell the checksum. -/
theorem flip_undetected_market :
    Canonical (marketCommand 343 .buy 2494681 9) ∧
      ¬ FlipDetected 65536 [marketCommand 343 .buy 2494681 9] 20 0 := by
  refine ⟨rfl, fun h => ?_⟩
  obtain ⟨r, status, hread, -⟩ := h.2 [] (marketCommand 343 .buy 2494681 9) [] rfl (by decide)
    (by decide)
  have hcancel :
      ((readAll (flipBit (journalBytes 65536 [marketCommand 343 .buy 2494681 9]) 20 0)).map
        fun x => x.2.1) = .ok [cancelCommand 343] := by
    decide +kernel
  rw [hread] at hcancel
  cases hcancel

end Journal

end MatchingEngine
