import MatchingEngine.Journal.ReaderTheorems

/-!
# Reading journals

A journal reads back what was written, whatever follows it (`journal_reads_back`), and the
reader accepts nothing but journals (`reader_accepts_only_journals`).
-/

namespace MatchingEngine

namespace Journal

open Reader

variable {capacity : Index} {data pre rest t : List UInt8} {c out : Command}
  {cmds cs : List Command} {status : Status} {r : Reader}

@[simp] theorem encodeAll_nil : encodeAll [] = [] := rfl

@[simp] theorem encodeAll_cons (c : Command) (cmds : List Command) :
    encodeAll (c :: cmds) = encode c ++ encodeAll cmds := rfl

/-- The records of some commands are those of the first and those of the others. -/
theorem encodeAll_append (cmds cmds' : List Command) :
    encodeAll (cmds ++ cmds') = encodeAll cmds ++ encodeAll cmds' := by
  rw [encodeAll, List.map_append, List.flatten_append]
  rfl

theorem encodeAll_singleton (c : Command) : encodeAll [c] = encode c := by
  rw [encodeAll_cons, encodeAll_nil, List.append_nil]

/-- A part of a journal is some whole records and a proper part of the next one. -/
theorem exists_whole_records : ∀ (cmds : List Command) (data : List UInt8),
    data <+: encodeAll cmds → ∃ k ≤ cmds.length, ∃ t, data = encodeAll (cmds.take k) ++ t ∧
      (t = [] ∨ ∃ c, cmds[k]? = some c ∧ t <+: encode c ∧ t ≠ [] ∧ t ≠ encode c) := by
  intro cmds
  induction cmds with
  | nil =>
    intro data h
    exact ⟨0, le_rfl, [], List.prefix_nil.mp h, Or.inl rfl⟩
  | cons c cmds ih =>
    intro data h
    rw [encodeAll_cons] at h
    by_cases hlen : data.length < (encode c).length
    · -- not even the first record is whole
      have hpre : data <+: encode c :=
        List.prefix_of_prefix_length_le h (List.prefix_append ..) hlen.le
      refine ⟨0, Nat.zero_le _, data, rfl, ?_⟩
      by_cases hnil : data = []
      · exact Or.inl hnil
      · refine Or.inr ⟨c, rfl, hpre, hnil, fun heq => ?_⟩
        rw [heq] at hlen
        exact lt_irrefl _ hlen
    · have hpre : encode c <+: data :=
        List.prefix_of_prefix_length_le (List.prefix_append ..) h (not_lt.mp hlen)
      obtain ⟨more, rfl⟩ := hpre
      rw [List.prefix_append_right_inj] at h
      obtain ⟨k, hk, t, hmore, ht⟩ := ih more h
      refine ⟨k + 1, Nat.succ_le_succ hk, t, ?_, ht⟩
      rw [hmore, List.take_succ_cons, encodeAll_cons, List.append_assoc]

/-! ## What was written -/

/-- The next `k` calls: what each returns, and where it leaves the reader. -/
def calls : ℕ → Reader → Command → Checked (Reader × Command × List (Status × Command × ℕ))
  | 0, r, out => return (r, out, [])
  | k + 1, r, out => do
    let (r, c, status) ← r.next out
    let (r', out, log) ← calls k r c
    return (r', out, (status, c, r.validBytes) :: log)

/-- The calls that read `cmds` from position `pos` on: each leaves the reader at the end of
its record. -/
def reads : ℕ → List Command → List (Status × Command × ℕ)
  | _, [] => []
  | pos, c :: cmds => (.ok, c, pos + (encode c).length) :: reads (pos + (encode c).length) cmds

/-- Reading on, one call for each record. -/
theorem calls_encodeAll (capacity : Index) (rest : List UInt8) :
    ∀ (cmds : List Command) (pre : List UInt8) (out : Command), (∀ c ∈ cmds, Canonical c) →
      ∃ out', calls cmds.length (between capacity pre (encodeAll cmds ++ rest)) out =
        .ok (between capacity (pre ++ encodeAll cmds) rest, out', reads pre.length cmds) := by
  intro cmds
  induction cmds with
  | nil =>
    intro pre out _
    refine ⟨out, ?_⟩
    rw [encodeAll_nil, List.nil_append, List.append_nil]
    rfl
  | cons c cmds ih =>
    intro pre out hcanon
    obtain ⟨hc, hcmds⟩ := List.forall_mem_cons.mp hcanon
    obtain ⟨out', hcalls⟩ := ih (pre ++ encode c) c hcmds
    refine ⟨out', ?_⟩
    rw [List.append_assoc, List.length_append] at hcalls
    rw [List.length_cons, calls, encodeAll_cons, List.append_assoc, next_encode, hc, ok_bind]
    dsimp only
    rw [hcalls, ok_bind, validBytes_between, List.length_append]
    rfl

/-- **A journal reads back what was written**, whatever follows it. -/
theorem journal_reads_back (capacity : Index) (cmds : List Command)
    (hcanon : ∀ c ∈ cmds, Canonical c) (t : List UInt8) :
    ∃ r r' out', (Reader.new (journalBytes capacity cmds ++ t)).openHeader = .ok (r, .ok) ∧
      r.poolCapacity = capacity ∧
      calls cmds.length r {} = .ok (r', out', reads kHeaderSize cmds) ∧
      r'.validBytes = (journalBytes capacity cmds).length ∧
      (t = [] → r'.next out' = .ok (r', out', .end)) ∧
      (∀ c, t <+: encode c → t ≠ [] → t ≠ encode c → r'.next out' = .ok (r', out', .truncated)) ∧
      ∀ data, data <+: encodeHeader capacity → data ≠ encodeHeader capacity →
        (Reader.new data).openHeader = .ok (Reader.new data, .truncated) := by
  obtain ⟨out', hcalls⟩ := calls_encodeAll capacity t cmds (encodeHeader capacity) {} hcanon
  have hopen := open_encodeHeader capacity (encodeAll cmds ++ t)
  rw [length_encodeHeader] at hcalls
  rw [← List.append_assoc] at hopen
  refine ⟨_, _, out', hopen, rfl, hcalls, rfl, ?_, ?_, ?_⟩
  · intro ht
    subst ht
    exact next_end ..
  · intro c hpre hne hproper
    exact next_partial hpre hne hproper
  · intro data hpre hproper
    have hlt := lt_of_le_of_ne hpre.length_le fun heq => hproper (hpre.eq_of_length heq)
    rw [length_encodeHeader] at hlt
    exact open_truncated hlt

/-- A journal with one record of each kind, and a torn one at its end. -/
theorem journal_reads_back_every_kind :
    ∃ r r' out', (Reader.new (journalBytes 65536 [limitCommand 3 .buy (-5) 7 7 .fok,
          marketCommand 4 .sell 3 9, cancelCommand 5, modifyCommand 1 6 1] ++ [1, 9])).openHeader =
        .ok (r, .ok) ∧
      r.poolCapacity = 65536 ∧
      calls 4 r {} = .ok (r', out', reads kHeaderSize [limitCommand 3 .buy (-5) 7 7 .fok,
        marketCommand 4 .sell 3 9, cancelCommand 5, modifyCommand 1 6 1]) ∧
      r'.validBytes = (journalBytes 65536 [limitCommand 3 .buy (-5) 7 7 .fok,
        marketCommand 4 .sell 3 9, cancelCommand 5, modifyCommand 1 6 1]).length ∧
      ([1, 9] = ([] : List UInt8) → r'.next out' = .ok (r', out', .end)) ∧
      (∀ c, [1, 9] <+: encode c → [1, 9] ≠ ([] : List UInt8) → [1, 9] ≠ encode c →
        r'.next out' = .ok (r', out', .truncated)) ∧
      ∀ data, data <+: encodeHeader 65536 → data ≠ encodeHeader 65536 →
        (Reader.new data).openHeader = .ok (Reader.new data, .truncated) :=
  journal_reads_back 65536 [limitCommand 3 .buy (-5) 7 7 .fok, marketCommand 4 .sell 3 9,
    cancelCommand 5, modifyCommand 1 6 1] (by decide) [1, 9]

/-! ## What is accepted -/

/-- Every byte that is left takes at most one more call. -/
theorem readFrom_spec : ∀ (fuel : ℕ) (capacity : Index) (pre rest : List UInt8) (out : Command),
    rest.length < fuel → ∃ cs more status, status ≠ .ok ∧ (∀ c ∈ cs, Canonical c) ∧
      rest = encodeAll cs ++ more ∧
      (∀ out, (between capacity (pre ++ encodeAll cs) more).next out =
        .ok (between capacity (pre ++ encodeAll cs) more, out, status)) ∧
      readFrom fuel (between capacity pre rest) out =
        .ok (between capacity (pre ++ encodeAll cs) more, cs, status) := by
  intro fuel
  induction fuel with
  | zero =>
    intro _ _ _ _ h
    omega
  | succ fuel ih =>
    intro capacity pre rest out hfuel
    rcases next_cases capacity pre rest with ⟨status, hne, hnext⟩ | ⟨c, more, hc, hrest, hnext⟩
    · -- the first call already fails
      refine ⟨[], rest, status, hne, by simp, rfl, ?_, ?_⟩
      · rw [encodeAll_nil, List.append_nil]
        exact hnext
      · rw [readFrom, hnext, ok_bind]
        dsimp only
        rw [if_neg hne, encodeAll_nil, List.append_nil]
        rfl
    · have hlen : more.length < fuel := by
        rw [hrest, List.length_append, length_encode] at hfuel
        omega
      obtain ⟨cs, more', status, hne, hcs, hmore, hstop, hread⟩ :=
        ih capacity (pre ++ encode c) more c hlen
      rw [List.append_assoc] at hstop hread
      refine ⟨c :: cs, more', status, hne, ?_, ?_, hstop, ?_⟩
      · exact List.forall_mem_cons.mpr ⟨hc, hcs⟩
      · rw [hrest, hmore, encodeAll_cons, List.append_assoc]
      · rw [readFrom, hnext, ok_bind]
        dsimp only
        rw [if_pos rfl, hread]
        rfl

/-- There are at least as many bytes as records. -/
theorem length_le_encodeAll (cmds : List Command) : cmds.length ≤ (encodeAll cmds).length := by
  induction cmds with
  | nil => exact le_rfl
  | cons c cmds ih =>
    rw [encodeAll_cons, List.length_cons, List.length_append, length_encode]
    omega

/-- Written records are read up to what does not read. -/
theorem readFrom_encodeAll (capacity : Index) (rest : List UInt8) (hne : status ≠ .ok) :
    ∀ (cmds : List Command) (fuel : ℕ) (pre : List UInt8) (out : Command), cmds.length < fuel →
      (∀ out, (between capacity (pre ++ encodeAll cmds) rest).next out =
        .ok (between capacity (pre ++ encodeAll cmds) rest, out, status)) →
      readFrom fuel (between capacity pre (encodeAll cmds ++ rest)) out =
        .ok (between capacity (pre ++ encodeAll cmds) rest, cmds.map canon, status) := by
  intro cmds
  induction cmds with
  | nil =>
    intro fuel pre out hfuel hstop
    obtain ⟨fuel, rfl⟩ := Nat.exists_eq_add_one_of_ne_zero (by omega : fuel ≠ 0)
    rw [encodeAll_nil, List.append_nil] at hstop
    rw [readFrom, encodeAll_nil, List.nil_append, List.append_nil, hstop, ok_bind]
    exact if_neg hne
  | cons c cmds ih =>
    intro fuel pre out hfuel hstop
    rw [List.length_cons] at hfuel
    obtain ⟨fuel, rfl⟩ := Nat.exists_eq_add_one_of_ne_zero (by omega : fuel ≠ 0)
    rw [encodeAll_cons, ← List.append_assoc] at hstop
    have hread := ih fuel (pre ++ encode c) (canon c) (by omega) hstop
    rw [readFrom, encodeAll_cons, List.append_assoc, next_encode, ok_bind]
    dsimp only
    rw [if_pos rfl, hread, List.append_assoc]
    rfl

/-- Reading a journal that ends in something that does not read. -/
theorem readAll_journal (capacity : Index) (cmds : List Command) (hne : status ≠ .ok)
    (hstop : ∀ out, (between capacity (journalBytes capacity cmds) t).next out =
      .ok (between capacity (journalBytes capacity cmds) t, out, status)) :
    readAll (journalBytes capacity cmds ++ t) =
      .ok (between capacity (journalBytes capacity cmds) t, cmds.map canon, status) := by
  have hfuel : cmds.length < (journalBytes capacity cmds ++ t).length + 1 := by
    have hle := length_le_encodeAll cmds
    rw [journalBytes, List.length_append, List.length_append]
    omega
  have hread := readFrom_encodeAll capacity t hne cmds _ (encodeHeader capacity) {} hfuel hstop
  have hopen := open_encodeHeader capacity (encodeAll cmds ++ t)
  rw [← List.append_assoc] at hopen
  rw [readAll]
  show ((Reader.new (encodeHeader capacity ++ encodeAll cmds ++ t)).openHeader >>= _) = _
  rw [hopen, ok_bind]
  exact hread

theorem map_canon (h : ∀ c ∈ cmds, Canonical c) : cmds.map canon = cmds :=
  (List.map_congr_left h).trans cmds.map_id

/-- Reading a journal to its end. -/
theorem readAll_journalBytes (capacity : Index) (h : ∀ c ∈ cmds, Canonical c) :
    readAll (journalBytes capacity cmds) =
      .ok (between capacity (journalBytes capacity cmds) [], cmds, .end) := by
  have hread := readAll_journal capacity cmds (by decide)
    (next_end capacity (journalBytes capacity cmds))
  rwa [List.append_nil, map_canon h] at hread

/-- A reader that stops at the end of the records stops at what is behind them. -/
theorem stop_of_readAll {cs : List Command}
    (hread : readAll (journalBytes capacity cmds ++ t) = .ok (r, cs, status))
    (hend : r.validBytes = (journalBytes capacity cmds).length) :
    status ≠ .ok ∧ ∀ out, (between capacity (journalBytes capacity cmds) t).next out =
      .ok (between capacity (journalBytes capacity cmds) t, out, status) := by
  obtain ⟨more, rest, status', hne, hmore, rfl, hstop, -⟩ := readFrom_spec (t.length + 1) capacity
    (journalBytes capacity cmds) t {} (Nat.lt_succ_self _)
  have hall : journalBytes capacity cmds ++ encodeAll more =
      journalBytes capacity (cmds ++ more) := by
    rw [journalBytes, journalBytes, encodeAll_append, List.append_assoc]
  rw [hall] at hstop
  have hread' := readAll_journal capacity (cmds ++ more) hne hstop
  rw [← hall, List.append_assoc, hread, Except.ok.injEq, Prod.mk.injEq, Prod.mk.injEq] at hread'
  obtain ⟨rfl, -, rfl⟩ := hread'
  -- it has not read a record behind them
  have hnil : more = [] := by
    rw [validBytes_between, List.length_append] at hend
    have hle := length_le_encodeAll more
    exact List.length_eq_zero_iff.mp (by omega)
  subst hnil
  rw [List.append_nil] at hstop
  rw [encodeAll_nil, List.nil_append]
  exact ⟨hne, hstop⟩

/-- A call that does not read a record changes nothing, and so does the same call again. -/
theorem next_unchanged (r : Reader) (out : Command) :
    ∃ r' out' status, r.next out = .ok (r', out', status) ∧
      (status ≠ .ok → r' = r ∧ out' = out ∧ r'.next out' = .ok (r', out', status)) := by
  obtain ⟨pre, rest, hr⟩ := r.exists_between
  rw [hr]
  rcases next_cases r.capacity pre rest with ⟨status, -, hnext⟩ | ⟨c, more, -, -, hnext⟩
  · exact ⟨_, _, status, hnext out, fun _ => ⟨rfl, rfl, hnext out⟩⟩
  · exact ⟨_, _, .ok, hnext out, fun hne => absurd rfl hne⟩

/-- **The reader accepts only journals.** What it accepts is, byte by byte, what a writer of the
commands it returns would have written. -/
theorem reader_accepts_only_journals (data : List UInt8) (r : Reader)
    (hopen : (Reader.new data).openHeader = .ok (r, .ok)) :
    (∃ r' cs status, readFrom (data.length + 1) r {} = .ok (r', cs, status) ∧ status ≠ .ok ∧
      r'.validBytes ≤ data.length ∧
      data.take r'.validBytes = journalBytes r.poolCapacity cs ∧
      (∃ r'', readAll (data.take r'.validBytes) = .ok (r'', cs, .end)) ∧
      ∀ more, (∀ c ∈ more, Canonical c) →
        ∃ r'', readAll (data.take r'.validBytes ++ encodeAll more) = .ok (r'', cs ++ more, .end)) ∧
    ∀ (r : Reader) (out : Command), ∃ r' out' status, r.next out = .ok (r', out', status) ∧
      (status ≠ .ok → r' = r ∧ out' = out ∧ r'.next out' = .ok (r', out', status)) := by
  refine ⟨?_, next_unchanged⟩
  rcases open_cases data with ⟨status, hne, hopen'⟩ | ⟨capacity, rest, rfl, hopen'⟩
  · rw [hopen, Except.ok.injEq, Prod.mk.injEq] at hopen'
    exact absurd hopen'.2.symm hne
  rw [hopen, Except.ok.injEq, Prod.mk.injEq] at hopen'
  rw [hopen'.1]
  obtain ⟨cs, more, status, hne, hcs, rfl, -, hread⟩ := readFrom_spec
    ((encodeHeader capacity ++ rest).length + 1) capacity (encodeHeader capacity) rest {}
    (by rw [List.length_append]; omega)
  have htake : (encodeHeader capacity ++ (encodeAll cs ++ more)).take
      (encodeHeader capacity ++ encodeAll cs).length = journalBytes capacity cs := by
    rw [← List.append_assoc]
    exact List.take_left
  refine ⟨_, cs, status, hread, hne, ?_, htake, ?_, ?_⟩
  · rw [validBytes_between]
    simp only [List.length_append]
    omega
  · rw [validBytes_between, htake]
    exact ⟨_, readAll_journalBytes capacity hcs⟩
  · intro cs' hcs'
    have hall : ∀ c ∈ cs ++ cs', Canonical c := fun c hc =>
      (List.mem_append.mp hc).elim (hcs c) (hcs' c)
    have happend : journalBytes capacity (cs ++ cs') =
        journalBytes capacity cs ++ encodeAll cs' := by
      rw [journalBytes, journalBytes, encodeAll_append, List.append_assoc]
    rw [validBytes_between, htake, ← happend]
    exact ⟨_, readAll_journalBytes capacity hall⟩

/-- A journal with one record and an unknown kind byte behind it. -/
theorem reader_accepts_only_journals_badKind :
    ∃ r' cs status, readFrom 35 (between 5 (encodeHeader 5) (encodeAll [cancelCommand 1] ++ [7])) {}
        = .ok (r', cs, status) ∧ status ≠ .ok ∧
      (journalBytes 5 [cancelCommand 1] ++ [7]).take r'.validBytes = journalBytes 5 cs := by
  have hopen := open_encodeHeader 5 (encodeAll [cancelCommand 1] ++ [7])
  rw [← List.append_assoc] at hopen
  obtain ⟨⟨r', cs, status, hread, hne, -, htake, -⟩, -⟩ := reader_accepts_only_journals _ _ hopen
  exact ⟨r', cs, status, hread, hne, htake⟩

end Journal

end MatchingEngine
