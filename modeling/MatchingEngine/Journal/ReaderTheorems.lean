import MatchingEngine.Journal.JournalCodec

/-!
# The command journal — the reader

What the reader does depends only on the bytes from its position on. `Reader.between` is the
reader between what it has accepted and what is left. Either `next` reads a record that a
writer would have written, or it stays where it is (`next_cases`), and so does `openHeader`
(`open_cases`).
-/

namespace MatchingEngine

namespace Journal

variable {capacity : Index} {data pre mid post rest fields stored more t : List UInt8}
  {kind : UInt8}
  {c out : Command} {cmds : List Command} {status : Status}

namespace Reader

/-- The reader that has accepted `pre` and has `rest` left. -/
def between (capacity : Index) (pre rest : List UInt8) : Reader where
  data := pre ++ rest
  pos := pre.length
  capacity := capacity
  inside := by rw [List.length_append]; omega

/-- A reader is between what it has read and what is left. -/
theorem eq_between {r : Reader} (hdata : r.data = pre ++ rest) (hpos : r.pos = pre.length) :
    r = between r.capacity pre rest := by
  obtain ⟨data, pos, capacity, inside⟩ := r
  subst hdata hpos
  rfl

/-- Every reader is between two parts of its data. -/
theorem exists_between (r : Reader) : ∃ pre rest, r = between r.capacity pre rest :=
  ⟨r.data.take r.pos, r.data.drop r.pos, eq_between (List.take_append_drop r.pos r.data).symm
    (List.length_take_of_le r.inside).symm⟩

@[simp] theorem validBytes_between (capacity : Index) (pre rest : List UInt8) :
    (between capacity pre rest).validBytes = pre.length := rfl

@[simp] theorem poolCapacity_between (capacity : Index) (pre rest : List UInt8) :
    (between capacity pre rest).poolCapacity = capacity := rfl

/-! ## One record -/

/-- A reader at the end of the data says so. -/
theorem next_end (capacity : Index) (pre : List UInt8) (out : Command) :
    (between capacity pre []).next out = .ok (between capacity pre [], out, .end) := by
  have hend : (between capacity pre []).pos = (between capacity pre []).size := by
    show pre.length = (pre ++ []).length
    rw [List.append_nil]
  rw [next, if_pos hend]
  rfl

/-- To advance is to move bytes from what is left to what was read. -/
theorem advance_between {n : ℕ} (h : rest = mid ++ post) (hn : mid.length = n)
    (hle : n ≤ (between capacity pre rest).size - (between capacity pre rest).pos) :
    (between capacity pre rest).advance n hle = between capacity (pre ++ mid) post := by
  subst h
  simp only [between, advance, List.append_assoc, List.length_append, hn]

/-- More data is left. -/
theorem size_sub_pos (capacity : Index) (pre rest : List UInt8) :
    (between capacity pre rest).size - (between capacity pre rest).pos = rest.length := by
  show (pre ++ rest).length - pre.length = rest.length
  rw [List.length_append, Nat.add_sub_cancel_left]

theorem pos_ne_size (capacity : Index) (pre : List UInt8) (kind : UInt8) (rest : List UInt8) :
    (between capacity pre (kind :: rest)).pos ≠ (between capacity pre (kind :: rest)).size := by
  have h := size_sub_pos capacity pre (kind :: rest)
  rw [List.length_cons] at h
  omega

theorem byteAt_pos (capacity : Index) (pre : List UInt8) (kind : UInt8) (rest : List UInt8) :
    byteAt (between capacity pre (kind :: rest)).data (between capacity pre (kind :: rest)).pos =
      .ok kind := by
  show byteAt (pre ++ kind :: rest) pre.length = .ok kind
  rw [byteAt_append le_rfl, Nat.sub_self, byteAt_zero]

/-- A kind that does not exist is told. -/
theorem next_badKind (h : payloadSize kind = 0) :
    (between capacity pre (kind :: rest)).next out =
      .ok (between capacity pre (kind :: rest), out, .badKind) := by
  rw [next, if_neg (pos_ne_size capacity pre kind rest), byteAt_pos, ok_bind]
  dsimp only
  rw [if_pos (by omega)]
  rfl

/-- A record that is cut off is told. -/
theorem next_truncated (hkind : payloadSize kind ≠ 0) (h : rest.length < payloadSize kind + 4) :
    (between capacity pre (kind :: rest)).next out =
      .ok (between capacity pre (kind :: rest), out, .truncated) := by
  rw [next, if_neg (pos_ne_size capacity pre kind rest), byteAt_pos, ok_bind]
  dsimp only
  rw [if_neg (by omega), dif_pos (by rw [size_sub_pos, List.length_cons]; omega)]
  rfl

/-- With all bytes there, the checksum and then the fields decide. -/
theorem next_full (hkind : payloadSize kind ≠ 0) (hfields : fields.length = payloadSize kind)
    (hstored : stored.length = 4) :
    (between capacity pre (kind :: (fields ++ (stored ++ more)))).next out =
      if (crc32 (kind :: fields)).toUInt64 ≠ get stored then
        .ok (between capacity pre (kind :: (fields ++ (stored ++ more))), out, .badChecksum)
      else
        (decode (kind :: fields) >>= fun decoded =>
          match decoded with
          | none =>
            .ok (between capacity pre (kind :: (fields ++ (stored ++ more))), out, .badField)
          | some c => .ok (between capacity (pre ++ kind :: (fields ++ stored)) more, c, .ok)) := by
  have hlen : ¬ (between capacity pre (kind :: (fields ++ (stored ++ more)))).size -
      (between capacity pre (kind :: (fields ++ (stored ++ more)))).pos <
        payloadSize kind + 1 + 4 := by
    rw [size_sub_pos, List.length_cons, List.length_append, List.length_append]
    omega
  have hbody : bytesAt (pre ++ kind :: (fields ++ (stored ++ more))) pre.length
      (payloadSize kind + 1) = .ok (kind :: fields) := by
    have hcons : (kind :: fields).length = payloadSize kind + 1 := by
      rw [List.length_cons, hfields]
    rw [bytesAt_append le_rfl, Nat.sub_self, ← List.cons_append]
    exact bytesAt_here hcons
  have hcrc : fieldAt (pre ++ kind :: (fields ++ (stored ++ more)))
      (pre.length + (payloadSize kind + 1)) 4 = .ok (get stored) := by
    rw [fieldAt_append (Nat.le_add_right ..), Nat.add_sub_cancel_left, fieldAt_cons,
      fieldAt_append hfields.le, hfields, Nat.sub_self, fieldAt_here hstored]
  have hnext : ∀ h, (between capacity pre (kind :: (fields ++ (stored ++ more)))).advance
      (payloadSize kind + 1 + 4) h = between capacity (pre ++ kind :: (fields ++ stored)) more := by
    refine advance_between (by simp) ?_
    rw [List.length_cons, List.length_append]
    omega
  rw [next, if_neg (pos_ne_size capacity pre kind _), byteAt_pos, ok_bind]
  dsimp only
  rw [if_neg (by omega), dif_neg hlen]
  show (bytesAt (pre ++ kind :: (fields ++ (stored ++ more))) pre.length
    (payloadSize kind + 1) >>= _) = _
  rw [hbody, ok_bind]
  show (fieldAt (pre ++ kind :: (fields ++ (stored ++ more)))
      (pre.length + (payloadSize kind + 1)) 4 >>= _) = _
  rw [hcrc, ok_bind]
  simp only [hnext]
  rfl

/-- A written record is read. -/
theorem next_encode (capacity : Index) (pre : List UInt8) (c : Command) (more : List UInt8)
    (out : Command) : (between capacity pre (encode c ++ more)).next out =
      .ok (between capacity (pre ++ encode c) more, canon c, .ok) := by
  have hsplit : encode c =
      kindByte c.kind :: (payload c ++ put (crc32 (recordBody c)).toUInt64 4) := by
    rw [encode, recordBody, List.cons_append]
  rw [hsplit, List.cons_append, List.append_assoc,
    next_full (payloadSize_ne c) (length_payload c) (length_put _ 4)]
  show (if (crc32 (recordBody c)).toUInt64 ≠ get (put (crc32 (recordBody c)).toUInt64 4) then _
    else (decode (recordBody c) >>= _)) = _
  rw [get_put_32, if_neg (not_not.mpr rfl), decode_recordBody]
  rfl

/-- **What `next` can do**: it reads a written record, or stays where it is. -/
theorem next_cases (capacity : Index) (pre rest : List UInt8) :
    (∃ status, status ≠ .ok ∧ ∀ out, (between capacity pre rest).next out =
        .ok (between capacity pre rest, out, status)) ∨
      ∃ c more, Canonical c ∧ rest = encode c ++ more ∧
        ∀ out, (between capacity pre rest).next out =
          .ok (between capacity (pre ++ encode c) more, c, .ok) := by
  cases rest with
  | nil => exact Or.inl ⟨.end, by decide, next_end capacity pre⟩
  | cons kind rest =>
    by_cases hkind : payloadSize kind = 0
    · exact Or.inl ⟨.badKind, by decide, fun out => next_badKind hkind⟩
    by_cases hlen : rest.length < payloadSize kind + 4
    · exact Or.inl ⟨.truncated, by decide, fun out => next_truncated hkind hlen⟩
    -- all bytes of the record are there
    obtain ⟨fields, l, rfl, hfields⟩ := exists_split (by omega : payloadSize kind ≤ rest.length)
    rw [List.length_append] at hlen
    obtain ⟨stored, more, rfl, hstored⟩ := exists_split (by omega : 4 ≤ l.length)
    by_cases hcrc : (crc32 (kind :: fields)).toUInt64 ≠ get stored
    · refine Or.inl ⟨.badChecksum, by decide, fun out => ?_⟩
      rw [next_full hkind hfields hstored, if_pos hcrc]
    rw [not_not] at hcrc
    obtain ⟨k, rfl⟩ := payloadSize_cases hkind
    rcases decode_sound k fields hfields with hnone | ⟨c, hsome, hcanon, hbody⟩
    · refine Or.inl ⟨.badField, by decide, fun out => ?_⟩
      rw [next_full hkind hfields hstored, if_neg (not_not.mpr hcrc), hnone]
      rfl
    · have hput : put (crc32 (recordBody c)).toUInt64 4 = stored := by
        rw [hbody, hcrc, ← hstored]
        exact put_get (by omega)
      have hrecord : kindByte k :: (fields ++ (stored ++ more)) = encode c ++ more := by
        rw [encode, hput, hbody, List.append_assoc, List.cons_append]
      refine Or.inr ⟨c, more, hcanon, hrecord, fun out => ?_⟩
      rw [hrecord, next_encode, hcanon]

/-- A proper part of a record reads as truncated. -/
theorem next_partial (hpre : rest <+: encode c) (hne : rest ≠ []) (hproper : rest ≠ encode c) :
    (between capacity pre rest).next out = .ok (between capacity pre rest, out, .truncated) := by
  cases rest with
  | nil => exact absurd rfl hne
  | cons kind rest =>
    have hlt : (kind :: rest).length < (encode c).length := by
      refine lt_of_le_of_ne hpre.length_le fun heq => hproper (hpre.eq_of_length heq)
    have hhead : kind = kindByte c.kind := by
      obtain ⟨t, ht⟩ := hpre
      rw [encode, recordBody] at ht
      exact (List.cons.inj ht).1
    rw [length_encode, List.length_cons, ← hhead] at hlt
    refine next_truncated ?_ (by omega)
    rw [hhead]
    exact payloadSize_ne c

/-! ## The header -/

/-- A header that is cut off is told. -/
theorem open_truncated (h : data.length < kHeaderSize) :
    (new data).openHeader = .ok (new data, .truncated) := by
  rw [openHeader]
  exact dif_pos h

/-- With the whole header there, its four fields decide. -/
theorem open_full {magic version size : List UInt8} (hmagic : magic.length = 8)
    (hversion : version.length = 4) (hsize : size.length = 4) (hstored : stored.length = 4)
    (rest : List UInt8) :
    (new (magic ++ (version ++ (size ++ (stored ++ rest))))).openHeader =
      if magic ≠ kMagic then .ok (new (magic ++ (version ++ (size ++ (stored ++ rest)))), .badField)
      else if (crc32 (magic ++ (version ++ size))).toUInt64 ≠ get stored then
        .ok (new (magic ++ (version ++ (size ++ (stored ++ rest)))), .badChecksum)
      else if get version ≠ kVersion.toUInt64 then
        .ok (new (magic ++ (version ++ (size ++ (stored ++ rest)))), .badField)
      else
        .ok (between (get size).toUInt32 (magic ++ (version ++ (size ++ stored))) rest, .ok) := by
  have hlen : ¬ (new (magic ++ (version ++ (size ++ (stored ++ rest))))).size < kHeaderSize := by
    show ¬ (magic ++ (version ++ (size ++ (stored ++ rest)))).length < 20
    simp only [List.length_append]
    omega
  have hbody : bytesAt (magic ++ (version ++ (size ++ (stored ++ rest)))) 0 16 =
      .ok (magic ++ (version ++ size)) := by
    have hassoc : magic ++ (version ++ (size ++ (stored ++ rest))) =
        (magic ++ (version ++ size)) ++ (stored ++ rest) := by
      simp only [List.append_assoc]
    rw [hassoc]
    refine bytesAt_here ?_
    simp only [List.length_append]
    omega
  have hcrc : fieldAt (magic ++ (version ++ (size ++ (stored ++ rest)))) 16 4 =
      .ok (get stored) := by
    simp [fieldAt_append, fieldAt_here, hmagic, hversion, hsize, hstored]
  have hget : fieldAt (magic ++ (version ++ (size ++ (stored ++ rest)))) 8 4 =
      .ok (get version) := by
    simp [fieldAt_append, fieldAt_here, hmagic, hversion]
  have hcapacity : fieldAt (magic ++ (version ++ (size ++ (stored ++ rest)))) 12 4 =
      .ok (get size) := by
    simp [fieldAt_append, fieldAt_here, hmagic, hversion, hsize]
  have hpos : kHeaderSize = (magic ++ (version ++ (size ++ stored))).length := by
    simp only [List.length_append, hmagic, hversion, hsize, hstored]
    rfl
  have hdata : (new (magic ++ (version ++ (size ++ (stored ++ rest))))).data =
      magic ++ (version ++ (size ++ (stored ++ rest))) := rfl
  rw [openHeader, dif_neg hlen]
  simp only [hdata, bytesAt_here hmagic, hbody, hcrc, hget, hcapacity, ok_bind]
  -- the reader goes behind the header
  have hopen : between (get size).toUInt32 (magic ++ (version ++ (size ++ stored))) rest =
      { new (magic ++ (version ++ (size ++ (stored ++ rest)))) with
        pos := kHeaderSize
        capacity := (get size).toUInt32
        inside := Nat.le_of_not_lt hlen } := by
    simp only [between, new, List.append_assoc, hpos]
  rw [hopen]
  split_ifs
  · rfl
  · rfl
  · rfl
  · rfl

/-- A written header opens. -/
theorem open_encodeHeader (capacity : Index) (rest : List UInt8) :
    (new (encodeHeader capacity ++ rest)).openHeader =
      .ok (between capacity (encodeHeader capacity) rest, .ok) := by
  have hsplit : encodeHeader capacity = kMagic ++ (put kVersion.toUInt64 4 ++
      (put capacity.toUInt64 4 ++ put (crc32 (headerBody capacity)).toUInt64 4)) := by
    simp only [encodeHeader, headerBody, List.append_assoc]
  have hbody : kMagic ++ (put kVersion.toUInt64 4 ++ put capacity.toUInt64 4) =
      headerBody capacity := by
    simp only [headerBody, List.append_assoc]
  have hopen := open_full (rfl : kMagic.length = 8) (length_put kVersion.toUInt64 4)
    (length_put capacity.toUInt64 4) (length_put (crc32 (headerBody capacity)).toUInt64 4) rest
  rw [hbody, get_put_32, get_put_32, get_put_32, if_neg (not_not.mpr rfl),
    if_neg (not_not.mpr rfl), if_neg (not_not.mpr rfl), UInt32.toUInt32_toUInt64] at hopen
  rw [hsplit]
  simpa only [List.append_assoc] using hopen

/-- **What `openHeader` can do**: it opens a written header, or stays where it is. -/
theorem open_cases (data : List UInt8) :
    (∃ status, status ≠ .ok ∧ (new data).openHeader = .ok (new data, status)) ∨
      ∃ capacity rest, data = encodeHeader capacity ++ rest ∧
        (new data).openHeader = .ok (between capacity (encodeHeader capacity) rest, .ok) := by
  by_cases hlen : data.length < kHeaderSize
  · exact Or.inl ⟨.truncated, by decide, open_truncated hlen⟩
  have hlen : ¬ data.length < 20 := hlen
  obtain ⟨magic, l, rfl, hmagic⟩ := exists_split (by omega : 8 ≤ data.length)
  rw [List.length_append] at hlen
  obtain ⟨version, l, rfl, hversion⟩ := exists_split (by omega : 4 ≤ l.length)
  rw [List.length_append] at hlen
  obtain ⟨size, l, rfl, hsize⟩ := exists_split (by omega : 4 ≤ l.length)
  rw [List.length_append] at hlen
  obtain ⟨stored, rest, rfl, hstored⟩ := exists_split (by omega : 4 ≤ l.length)
  have hopen := open_full hmagic hversion hsize hstored rest
  by_cases h1 : magic ≠ kMagic
  · exact Or.inl ⟨.badField, by decide, hopen.trans (if_pos h1)⟩
  by_cases h2 : (crc32 (magic ++ (version ++ size))).toUInt64 ≠ get stored
  · exact Or.inl ⟨.badChecksum, by decide, hopen.trans ((if_neg h1).trans (if_pos h2))⟩
  by_cases h3 : get version ≠ kVersion.toUInt64
  · exact Or.inl ⟨.badField, by decide,
      hopen.trans ((if_neg h1).trans ((if_neg h2).trans (if_pos h3)))⟩
  rw [if_neg h1, if_neg h2, if_neg h3] at hopen
  rw [not_not] at h1 h2 h3
  -- the four fields are those of a written header
  have hheader : magic ++ (version ++ (size ++ stored)) = encodeHeader (get size).toUInt32 := by
    have hbody : headerBody (get size).toUInt32 = magic ++ (version ++ size) := by
      rw [headerBody, put_get_32 hsize, ← h3, ← hversion, put_get (by omega), h1,
        List.append_assoc]
    have hput : put (get stored) 4 = stored := by
      rw [← hstored]
      exact put_get (by omega)
    rw [encodeHeader, hbody, h2, hput]
    simp only [List.append_assoc]
  rw [hheader] at hopen
  refine Or.inr ⟨(get size).toUInt32, rest, ?_, hopen⟩
  rw [← hheader]
  simp only [List.append_assoc]

end Reader

end Journal

end MatchingEngine
