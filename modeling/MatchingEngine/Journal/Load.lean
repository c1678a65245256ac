import MatchingEngine.Journal.Writer

/-!
# Loading a journal

`load` over `stdio`. Of reading nothing more is assumed than this: `fread` returns the next bytes
of the file, as many as it likes up to what was asked for, and fewer only at the end of the file
or with the error indicator set. A file does not change while it is read.
-/

namespace MatchingEngine

namespace Journal

open Interaction

/-! ## The system -/

/-- A file that is read. -/
structure Input where
  file : List UInt8
  /-- What `fread` has not returned yet. -/
  left : List UInt8 := []
  /-- The error indicator. -/
  error : Bool := false
  /-- Whether the last `fopen` returned a stream. -/
  opened : Bool := false

/-- The calls that `load` makes. -/
inductive ReadCall where
  | fopen
  | fread (n : ℕ)
  | ferror
  | fclose

/-- What a call returns: of `fopen` whether the pointer is not null, of `fread` the bytes. -/
@[reducible] def ReadAnswer : ReadCall → Type
  | .fopen => Bool
  | .fread _ => List UInt8
  | .ferror => Bool
  | .fclose => Unit

/-- `fopen` with mode `rb` reads from the beginning. -/
def readAnswers (s : Input) : (call : ReadCall) → ReadAnswer call → Input → Prop
  | .fopen, opened, s' =>
    s' = if opened then { file := s.file, left := s.file, opened := true }
      else { s with opened := false }
  | .fread n, bytes, s' =>
    s'.file = s.file ∧ s'.opened = s.opened ∧ s.left = bytes ++ s'.left ∧ bytes.length ≤ n ∧
      (s.error = true → s'.error = true) ∧ (bytes.length < n → s'.left = [] ∨ s'.error = true)
  | .ferror, error, s' => s' = s ∧ error = s.error
  | .fclose, _, s' => s' = s

/-- The system that `load` runs on. Nothing happens between its calls. -/
def reading : System ReadAnswer Input where
  answers := readAnswers
  drift s s' := s' = s
  drift_refl _ := rfl
  drift_trans h h' := h'.trans h

/-! ## The function -/

/-- The loop of `load`. It carries a bound, and returns nothing if it runs out. -/
def loadFrom : ℕ → List UInt8 → Prog ReadAnswer (Option (List UInt8))
  | 0, _ => pure none
  | fuel + 1, out => do
    let buf ← Prog.perform (.fread 4096)
    if buf = [] then pure (some out) else loadFrom fuel (out ++ buf)

/-- `load`: what it returns, and what it leaves in `out`. -/
def load (fuel : ℕ) (out : List UInt8) : Prog ReadAnswer (Option (Bool × List UInt8)) := do
  let opened ← Prog.perform .fopen
  if opened = false then pure (some (false, out))
  else
    match ← loadFrom fuel [] with
    | none => pure none
    | some out => do
      let error ← Prog.perform .ferror
      let _ ← Prog.perform .fclose
      pure (some (!error, out))

/-! ## What is loaded -/

variable {s s' : Input} {file out bytes : List UInt8}

/-- A part of the open file was read, and the rest is left. -/
structure Reading (file : List UInt8) (s : Input) (out : List UInt8) : Prop where
  same : s.file = file
  opened : s.opened = true
  parts : file = out ++ s.left

/-- A call of `fread` moves bytes from what is left to what was read. It returns none only at
the end or after an error. -/
theorem Reading.fread (h : Reading file s out) (ha : readAnswers s (.fread 4096) bytes s') :
    Reading file s' (out ++ bytes) ∧ (bytes = [] → s'.left = [] ∨ s'.error = true) := by
  obtain ⟨hfile, hopened, hleft, -, -, hshort⟩ := ha
  refine ⟨⟨hfile.trans h.same, hopened.trans h.opened, ?_⟩, ?_⟩
  · rw [h.parts, hleft, List.append_assoc]
  · rintro rfl
    exact hshort (by decide)

/-- **The loop reads on to the end**, or to an error. -/
theorem loadFrom_wp : ∀ (fuel : ℕ) (s : Input) (out : List UInt8), s.left.length < fuel →
    Reading file s out →
      wp reading (fun s' => s'.file = file) (fun s' r => ∃ data, r = some data ∧
        Reading file s' data ∧ (s'.left = [] ∨ s'.error = true)) (loadFrom fuel out) s := by
  intro fuel
  induction fuel with
  | zero =>
    intro s out hfuel _
    omega
  | succ fuel ih =>
    intro s out hfuel h s₁ hs₁
    have hs₁ : s₁ = s := hs₁
    subst hs₁
    refine ⟨h.same, ?_⟩
    intro buf s₂ ha
    obtain ⟨h₂, hend⟩ := h.fread ha
    by_cases hbuf : buf = []
    · show wp reading _ _ (if buf = [] then _ else _) s₂
      rw [if_pos hbuf]
      rw [hbuf, List.append_nil] at h₂
      intro s₃ hs₃
      have hs₃ : s₃ = s₂ := hs₃
      subst hs₃
      exact ⟨h₂.same, out, rfl, h₂, hend hbuf⟩
    · show wp reading _ _ (if buf = [] then _ else _) s₂
      rw [if_neg hbuf]
      apply ih s₂ (out ++ buf) _ h₂
      -- a round takes at least one byte
      have hlen := congrArg List.length ha.2.2.1
      have hpos := List.length_pos_iff.mpr hbuf
      rw [List.length_append] at hlen
      omega

/-- What `load` returns: false and nothing new if the file could not be opened, and what was read
of it otherwise, which is the whole of it if there was no error. -/
def Loaded (file out : List UInt8) (s : Input) (r : Option (Bool × List UInt8)) : Prop :=
  (s.opened = false → r = some (false, out)) ∧
    (s.opened = true →
      ∃ data, r = some (!s.error, data) ∧ data <+: file ∧ (s.error = false → data = file))

/-- `load` leaves the file alone, wherever it is stopped, and returns what it should. -/
theorem load_wp (fuel : ℕ) (s : Input) (out : List UInt8) (hfuel : s.file.length < fuel) :
    wp reading (fun s' => s'.file = s.file) (Loaded s.file out) (load fuel out) s := by
  intro s₁ hs₁
  have hs₁ : s₁ = s := hs₁
  subst hs₁
  refine ⟨rfl, ?_⟩
  intro opened s₂ hs₂
  have hs₂ : s₂ = if opened then { file := s₁.file, left := s₁.file, opened := true }
    else { s₁ with opened := false } := hs₂
  cases opened with
  | false =>
    intro s₃ hs₃
    have hs₃ : s₃ = { s₁ with opened := false } := hs₃.trans hs₂
    subst hs₃
    exact ⟨rfl, fun _ => rfl, fun h => by cases h⟩
  | true =>
    have hbegin : Reading s₁.file s₂ [] := by
      rw [hs₂]
      exact ⟨rfl, rfl, rfl⟩
    have hleft : s₂.left.length < fuel := by
      rw [hs₂]
      exact hfuel
    show wp reading _ _ (loadFrom fuel [] >>= _) s₂
    apply wp_bind
    apply wp_mono (loadFrom_wp fuel s₂ [] hleft hbegin) (fun _ h => h)
    rintro s₃ r ⟨data, rfl, h, hend⟩
    -- the two calls behind the loop change nothing
    intro s₄ hs₄
    have hs₄ : s₄ = s₃ := hs₄
    subst hs₄
    refine ⟨h.same, ?_⟩
    rintro error s₅ ⟨hs₅, herror⟩ s₆ hs₆
    have hs₆ : s₆ = s₅ := hs₆
    subst hs₆ hs₅
    refine ⟨h.same, ?_⟩
    intro _ s₇ hs₇ s₈ hs₈
    have hs₇ : s₇ = s₆ := hs₇
    have hs₈ : s₈ = s₇ := hs₈
    subst hs₈ hs₇
    refine ⟨h.same, ?_, fun _ => ⟨data, by rw [herror], ?_, ?_⟩⟩
    · intro hclosed
      rw [h.opened] at hclosed
      cases hclosed
    · rw [h.parts]
      exact List.prefix_append ..
    · intro hnone
      rcases hend with hend | hend
      · rw [h.parts, hend, List.append_nil]
      · rw [hnone] at hend
        cases hend

/-- **`load` returns the file**, in whatever pieces it is read, or says that it did not. It ends.
If the file could not be opened, it returns false and leaves `out` as it was. If it could, what it
returns is a part of the file, and true exactly if there was no error, when it is the whole. -/
theorem load_reads_the_file (fuel : ℕ) (s s' : Input) (out : List UInt8)
    (r : Option (Bool × List UInt8)) (hfuel : s.file.length < fuel)
    (hr : Reaches reading s (load fuel out) s' (.ret r)) :
    (s'.opened = false → r = some (false, out)) ∧
      (s'.opened = true →
        ∃ data, r = some (!s'.error, data) ∧ data <+: s.file ∧
          (s'.error = false → data = s.file)) :=
  hr.result (load_wp fuel s out hfuel)

/-- A short file can be read in one piece. -/
theorem exists_loaded (file out : List UInt8) (hne : file ≠ []) (hlen : file.length ≤ 4096) :
    Reaches reading { file } (load (file.length + 1) out) { file, opened := true }
      (.ret (some (true, file))) := by
  obtain ⟨n, hn⟩ := Nat.exists_eq_add_one_of_ne_zero
    (Nat.pos_iff_ne_zero.mp (List.length_pos_iff.mpr hne))
  have hopened : readAnswers { file } .fopen true { file, left := file, opened := true } := rfl
  have hfirst : readAnswers { file, left := file, opened := true } (.fread 4096) file
      { file, opened := true } :=
    ⟨rfl, rfl, (List.append_nil file).symm, hlen, fun h => h, fun _ => Or.inl rfl⟩
  have hlast : readAnswers { file, opened := true } (.fread 4096) [] { file, opened := true } :=
    ⟨rfl, rfl, rfl, Nat.zero_le _, fun h => h, fun _ => Or.inl rfl⟩
  have hloop : Reaches reading { file } (load (n + 1 + 1) out) { file, opened := true }
      (.ret (some (true, file))) := by
    apply Reaches.call hopened
    apply Reaches.call hfirst
    show Reaches reading _ ((if file = [] then _ else _) >>= _) _ _
    rw [if_neg hne]
    apply Reaches.call hlast
    -- nothing was read, so the loop ends
    have herror : readAnswers { file, opened := true } .ferror false { file, opened := true } :=
      ⟨rfl, rfl⟩
    have hclosed : reading.answers { file, opened := true } .fclose () { file, opened := true } :=
      rfl
    exact .call herror (.call hclosed (.refl ..))
  rwa [← hn] at hloop

/-- A read can fail behind the first byte of a file. -/
theorem exists_broken (b : UInt8) (rest out : List UInt8) (n : ℕ) :
    Reaches reading { file := b :: rest } (load (n + 2) out)
      { file := b :: rest, left := rest, error := true, opened := true }
      (.ret (some (false, [b]))) := by
  let broken : Input := { file := b :: rest, left := rest, error := true, opened := true }
  have hopened : readAnswers { file := b :: rest } .fopen true
      { file := b :: rest, left := b :: rest, opened := true } := rfl
  have hfirst : readAnswers { file := b :: rest, left := b :: rest, opened := true } (.fread 4096)
      [b] broken := ⟨rfl, rfl, rfl, by simp, fun _ => rfl, fun _ => Or.inr rfl⟩
  have hlast : readAnswers broken (.fread 4096) [] broken :=
    ⟨rfl, rfl, rfl, Nat.zero_le _, fun h => h, fun _ => Or.inr rfl⟩
  apply Reaches.call hopened
  apply Reaches.call hfirst
  apply Reaches.call hlast
  have herror : readAnswers broken .ferror true broken := ⟨rfl, rfl⟩
  have hclosed : reading.answers broken .fclose () broken := rfl
  exact .call herror (.call hclosed (.refl ..))

/-- A file of three bytes is loaded as a whole, or up to an error behind the first of them, or it
cannot be opened. -/
theorem load_reads_the_file_three_bytes :
    (∃ s', Reaches reading { file := [1, 2, 3] } (load 4 [9]) s' (.ret (some (true, [1, 2, 3]))) ∧
        s'.opened = true ∧ ∃ data : List UInt8, some (true, [1, 2, 3]) = some (!s'.error, data) ∧
          data <+: [1, 2, 3] ∧ (s'.error = false → data = [1, 2, 3])) ∧
      (∃ s', Reaches reading { file := [1, 2, 3] } (load 4 [9]) s' (.ret (some (false, [1]))) ∧
        s'.opened = true ∧ ∃ data : List UInt8, some (false, [1]) = some (!s'.error, data) ∧
          data <+: [1, 2, 3] ∧ (s'.error = false → data = [1, 2, 3])) ∧
      ∃ s', Reaches reading { file := [1, 2, 3] } (load 4 [9]) s' (.ret (some (false, [9]))) ∧
        s'.opened = false := by
  have hwhole := exists_loaded [1, 2, 3] [9] (by decide) (by decide)
  have hbroken := exists_broken 1 [2, 3] [9] 2
  have hrefused : readAnswers { file := [1, 2, 3] } .fopen false { file := [1, 2, 3] } := rfl
  refine ⟨⟨_, hwhole, rfl, ?_⟩, ⟨_, hbroken, rfl, ?_⟩, _, .call hrefused (.refl ..), rfl⟩
  · exact (load_reads_the_file 4 _ _ [9] _ (by decide) hwhole).2 rfl
  · exact (load_reads_the_file 4 _ _ [9] _ (by decide) hbroken).2 rfl

end Journal

end MatchingEngine
