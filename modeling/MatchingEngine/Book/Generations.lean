import MatchingEngine.Book.PoolRuns

/-!
# The order pool — generations

A slot counts how often it was freed, modulo 2 ^ 32, and a handle carries the count it was made
with. So a handle that was freed is dead exactly until its slot has been freed 2 ^ 32 times
(`dead_until_generation_wraps`): then it names what is in the slot by that time
(`freed_handle_comes_back`).
-/

namespace MatchingEngine

open Run

namespace FixedPool

variable {T : Type} {p p' : FixedPool T} {h : Handle} {i : Index}

/-! ## Counting frees -/

/-- This call frees slot `i`. -/
def freesSlot (i : Index) (p : FixedPool T) : PoolCall T → Bool
  | .free h => p.validate h && h.index == i
  | _ => false

/-- How often slot `i` is freed by the calls, as far as they get. -/
def frees (i : Index) : FixedPool T → List (PoolCall T) → ℕ
  | _, [] => 0
  | p, c :: calls =>
    (freesSlot i p c).toNat +
      match p.call c with
      | .ok (p, _) => frees i p calls
      | .error _ => 0

/-- **The generation** of a slot counts its frees. -/
theorem generationAt_free (p : FixedPool T) (h : Handle) (i : Index) :
    (p.free h).generationAt i =
      p.generationAt i + UInt32.ofNat (freesSlot i p (.free h)).toNat := by
  rw [freesSlot, free]
  by_cases hv : p.validate h = true
  · rw [if_pos hv, hv, Bool.true_and]
    have hlt : h.index.toNat < p.generations.size := by
      rw [p.size_generations]
      simp only [validate, Bool.and_eq_true, decide_eq_true_eq] at hv
      exact hv.1.2
    by_cases hi : h.index = i
    · subst hi
      simp only [generationAt, Array.getD_eq_getD_getElem?, beq_self_eq_true]
      rw [Array.getElem?_setIfInBounds_self_of_lt hlt]
      rfl
    · have hne : h.index.toNat ≠ i.toNat := fun e => hi (UInt32.toNat_inj.mp e)
      have hbeq : (h.index == i) = false := by simpa using hi
      simp only [generationAt, Array.getD_eq_getD_getElem?, Array.getElem?_setIfInBounds_ne hne,
        hbeq]
      exact (UInt32.add_zero _).symm
  · have hv' : p.validate h = false := Bool.not_eq_true _ ▸ hv
    rw [if_neg hv, hv', Bool.false_and]
    exact (UInt32.add_zero _).symm

/-- What a call does to the size and to the generations. -/
theorem call_generation {c : PoolCall T} {r : Option Handle} (heq : p.call c = .ok (p', r))
    (i : Index) : p'.slots.size = p.slots.size ∧
      p'.generationAt i = p.generationAt i + UInt32.ofNat (freesSlot i p c).toNat := by
  have hzero : p.generationAt i + UInt32.ofNat false.toNat = p.generationAt i := UInt32.add_zero _
  cases c with
  | allocate v =>
    have hno : freesSlot i p (.allocate v) = false := rfl
    rw [hno, hzero]
    rw [call, bind_eq_ok] at heq
    obtain ⟨⟨h, p₁⟩, hallocate, heq⟩ := heq
    have hp : p₁ = p' := congrArg Prod.fst (Except.ok.inj heq)
    rw [allocate] at hallocate
    split at hallocate
    · have hp₁ : p = p₁ := congrArg Prod.snd (Except.ok.inj hallocate)
      rw [← hp, ← hp₁]
      exact ⟨rfl, rfl⟩
    · rw [bind_eq_ok] at hallocate
      obtain ⟨next, -, hallocate⟩ := hallocate
      have hp₁ : { p.setValue p.freeHead v with freeHead := next } = p₁ :=
        congrArg Prod.snd (Except.ok.inj hallocate)
      rw [← hp, ← hp₁]
      exact ⟨size_setValue, rfl⟩
  | free h =>
    have hp : p.free h = p' := congrArg Prod.fst (Except.ok.inj heq)
    rw [← hp, generationAt_free]
    refine ⟨?_, rfl⟩
    rw [free]
    split
    · exact Array.size_setIfInBounds
    · rfl
  | write h v =>
    have hno : freesSlot i p (.write h v) = false := rfl
    rw [hno, hzero]
    rw [call, bind_eq_ok] at heq
    obtain ⟨o, -, heq⟩ := heq
    rw [bind_eq_ok] at heq
    obtain ⟨-, -, heq⟩ := heq
    rw [bind_eq_ok] at heq
    obtain ⟨p₁, hmodify, heq⟩ := heq
    have hp : p₁ = p' := congrArg Prod.fst (Except.ok.inj heq)
    rw [modify, bind_eq_ok] at hmodify
    obtain ⟨w, -, hmodify⟩ := hmodify
    have hp₁ : p.setValue h.index v = p₁ := Except.ok.inj hmodify
    rw [← hp, ← hp₁]
    exact ⟨size_setValue, rfl⟩

/-- The frees of a slot, one call at a time. -/
theorem frees_cons_of_ok {c : PoolCall T} {r : Option Handle} (heq : p.call c = .ok (p', r))
    (calls : List (PoolCall T)) :
    frees i p (c :: calls) = (freesSlot i p c).toNat + frees i p' calls := by
  rw [frees, heq]

/-- A run of calls moves the generation of a slot on by the number of its frees. -/
theorem run_generation {calls : List (PoolCall T)} {replies : List (Option Handle)}
    (hrun : runM call p calls = .ok (p', replies)) (i : Index) :
    p'.slots.size = p.slots.size ∧
      p'.generationAt i = p.generationAt i + UInt32.ofNat (frees i p calls) := by
  induction calls generalizing p replies with
  | nil =>
    have hp : p = p' := congrArg Prod.fst (Except.ok.inj hrun)
    rw [hp]
    exact ⟨rfl, (UInt32.add_zero _).symm⟩
  | cons c calls ih =>
    rw [runM, bind_eq_ok] at hrun
    obtain ⟨⟨p₁, r⟩, hcall, hrun⟩ := hrun
    rw [bind_eq_ok] at hrun
    obtain ⟨⟨p₂, rs⟩, hrun, heq⟩ := hrun
    have hp : p₂ = p' := congrArg Prod.fst (Except.ok.inj heq)
    rw [hp] at hrun
    obtain ⟨hsize, hgen⟩ := call_generation hcall i
    obtain ⟨hsize', hgen'⟩ := ih hrun
    refine ⟨hsize'.trans hsize, ?_⟩
    rw [hgen', hgen, frees_cons_of_ok hcall, UInt32.ofNat_add, UInt32.add_assoc]

/-- The first calls of a run free a slot no more often than all of them. -/
theorem frees_prefix {before calls : List (PoolCall T)} (hpre : before <+: calls) :
    frees i p before ≤ frees i p calls := by
  obtain ⟨rest, rfl⟩ := hpre
  induction before generalizing p with
  | nil => exact Nat.zero_le _
  | cons c before ih =>
    show frees i p (c :: before) ≤ frees i p (c :: (before ++ rest))
    rw [frees, frees]
    apply Nat.add_le_add_left
    cases p.call c with
    | ok x => exact ih
    | error e => exact le_rfl

/-- A slot is freed at most once by a call. -/
theorem frees_le_length (i : Index) (p : FixedPool T) (calls : List (PoolCall T)) :
    frees i p calls ≤ calls.length := by
  induction calls generalizing p with
  | nil => exact le_rfl
  | cons c calls ih =>
    have hflag : (freesSlot i p c).toNat ≤ 1 := Bool.toNat_le _
    rw [frees, List.length_cons, Nat.add_comm]
    apply Nat.add_le_add _ hflag
    cases p.call c with
    | ok x => exact ih x.1
    | error e => exact Nat.zero_le _

/-- A run passes through every number of frees up to its own. -/
theorem exists_prefix_frees {calls : List (PoolCall T)} {n : ℕ} (hn : n ≤ frees i p calls) :
    ∃ before q replies, before <+: calls ∧ runM call p before = .ok (q, replies) ∧
      frees i p before = n := by
  induction calls generalizing p n with
  | nil =>
    have hzero : n = 0 := Nat.le_zero.mp hn
    exact ⟨[], p, [], List.prefix_rfl, rfl, hzero.symm⟩
  | cons c calls ih =>
    by_cases hzero : n = 0
    · exact ⟨[], p, [], List.nil_prefix, rfl, hzero.symm⟩
    have hflag : (freesSlot i p c).toNat ≤ 1 := Bool.toNat_le _
    rw [frees] at hn
    cases hcall : p.call c with
    | error e =>
      -- only a call that does not free can fail
      have hno : freesSlot i p c = false := by
        cases c with
        | allocate v => rfl
        | free h => cases hcall
        | write h v => rfl
      rw [hcall, hno] at hn
      exact absurd (Nat.le_zero.mp hn) hzero
    | ok x =>
      obtain ⟨p₁, r⟩ := x
      rw [hcall] at hn
      have hrest : n - (freesSlot i p c).toNat ≤ frees i p₁ calls := by
        have hn' : n ≤ (freesSlot i p c).toNat + frees i p₁ calls := hn
        omega
      obtain ⟨before, q, replies, hpre, hrun, hcount⟩ := ih hrest
      refine ⟨c :: before, q, r :: replies, List.prefix_cons_inj c |>.mpr hpre, ?_, ?_⟩
      · exact runM_cons hcall hrun
      · rw [frees_cons_of_ok hcall, hcount]
        omega

/-! ## Freed handles -/

/-- A handle that was freed on `p` stays dead, whatever calls follow: in every state they lead
to it does not validate, `get` returns null and `free` does nothing. -/
def StaysDead (p : FixedPool T) (h : Handle) (calls : List (PoolCall T)) : Prop :=
  ∀ before q replies, before <+: calls → runM call (p.free h) before = .ok (q, replies) →
    q.validate h = false ∧ q.get h = .ok none ∧ q.free h = q

/-- **A freed handle is dead exactly until its slot has been freed 2 ^ 32 times**, from the free
of the handle on. -/
theorem dead_until_generation_wraps (p : FixedPool T) (h : Handle) (hlive : p.validate h = true)
    (calls : List (PoolCall T)) :
    StaysDead p h calls ↔ frees h.index (p.free h) calls + 1 < 2 ^ 32 := by
  have hvalid := hlive
  simp only [validate, Bool.and_eq_true, decide_eq_true_eq, beq_iff_eq] at hvalid
  obtain ⟨⟨hv, hlt⟩, hgen⟩ := hvalid
  have hfree : freesSlot h.index p (.free h) = true := by
    rw [freesSlot, hlive]
    exact beq_self_eq_true _
  have hsize : (p.free h).slots.size = p.slots.size :=
    (call_generation (c := .free h) rfl h.index).1
  have hfirst : (p.free h).generationAt h.index = h.generation + 1 := by
    rw [generationAt_free, hfree, hgen]
    rfl
  -- a handle is dead exactly if the generation of its slot has moved on
  have hdead : ∀ before q replies, runM call (p.free h) before = .ok (q, replies) →
      (q.validate h = false ↔ UInt32.ofNat (frees h.index (p.free h) before + 1) ≠ 0) := by
    intro before q replies hrun
    obtain ⟨hsize', hgen'⟩ := run_generation hrun h.index
    have hlt' : h.index.toNat < q.slots.size := by rwa [hsize', hsize]
    have hcount : q.generationAt h.index =
        h.generation + UInt32.ofNat (frees h.index (p.free h) before + 1) := by
      rw [hgen', hfirst, Nat.add_comm, UInt32.ofNat_add, UInt32.add_assoc]
      rfl
    rw [validate, hv, decide_eq_true hlt', hcount, Bool.true_and, Bool.true_and,
      beq_eq_false_iff_ne]
    exact not_congr UInt32.left_eq_add
  constructor
  · intro hstays
    by_contra hmany
    have hle : 2 ^ 32 - 1 ≤ frees h.index (p.free h) calls := by omega
    obtain ⟨before, q, replies, hpre, hrun, hcount⟩ := exists_prefix_frees hle
    have hno := (hdead before q replies hrun).mp (hstays before q replies hpre hrun).1
    apply hno
    rw [hcount]
    rfl
  · intro hfew before q replies hpre hrun
    have hle := frees_prefix (i := h.index) (p := p.free h) hpre
    have hfalse : q.validate h = false := by
      rw [hdead before q replies hrun]
      intro heq
      have hzero := congrArg UInt32.toNat heq
      rw [UInt32.toNat_ofNat_of_lt' (by show _ < 2 ^ 32; omega)] at hzero
      exact absurd hzero (Nat.succ_ne_zero _)
    refine ⟨hfalse, ?_, ?_⟩
    · rw [get, hfalse]
      rfl
    · rw [free, hfalse]
      rfl

/-- The first handle of a pool with one slot, which two later handles get. -/
theorem dead_until_generation_wraps_reused :
    ∃ p, runM call (new UInt32 1) [.allocate 1] = .ok (p, [some (makeHandle 0 0)]) ∧
      (p.StaysDead (makeHandle 0 0) [.allocate 2, .free (makeHandle 0 1), .allocate 3] ↔
        frees 0 (p.free (makeHandle 0 0)) [.allocate 2, .free (makeHandle 0 1), .allocate 3] + 1
          < 2 ^ 32) ∧
      frees 0 (p.free (makeHandle 0 0)) [.allocate 2, .free (makeHandle 0 1), .allocate 3] = 1 :=
  ⟨_, rfl, dead_until_generation_wraps _ _ (by decide) _, by decide⟩

/-! ## A handle that comes back -/

/-- Use a pool of one slot again and again: `n` times allocate and free, from generation `g` on. -/
def reuse (v : T) : ℕ → UInt32 → List (PoolCall T)
  | 0, _ => []
  | n + 1, g => .allocate v :: .free (makeHandle 0 g) :: reuse v n (g + 1)

/-- A pool of one slot, which is free and has been freed `g` times. -/
structure Idle (p : FixedPool T) (g : UInt32) : Prop where
  repr : p.Repr [0] []
  generation : p.generationAt 0 = g

/-- One use of the slot. -/
theorem Idle.reuse_once {g : UInt32} (hp : p.Idle g) (v : T) :
    ∃ p₁ p₂, p.call (.allocate v) = .ok (p₁, some (makeHandle 0 g)) ∧
      p₁.get (makeHandle 0 g) = .ok (some v) ∧ p₁.validate (makeHandle 0 g) = true ∧
      p₁.call (.free (makeHandle 0 g)) = .ok (p₂, none) ∧ p₂.Idle (g + 1) ∧
      freesSlot 0 p₁ (.free (makeHandle 0 g)) = true := by
  obtain ⟨p₁, hallocate, hrepr, hv, -, hgen, -⟩ := hp.repr.allocate (v := v)
  have hg : p₁.generationAt 0 = g := (hgen 0).trans hp.generation
  have hvalidate : p₁.validate (makeHandle 0 g) = true := by
    rw [← hg]
    exact validate_makeHandle (lt_of_value? hv) hrepr.size_lt
  have hget := hrepr.get_of_mem hv
  rw [hg] at hget
  have hused : p₁.Repr [] ([] ++ 0 :: []) := hrepr
  obtain ⟨p₂, hfree, hrepr', -, -, hself, -⟩ := hused.free
  rw [hg] at hfree hself
  refine ⟨p₁, p₂, ?_, hget, hvalidate, ?_, ⟨hrepr', hself⟩, ?_⟩
  · rw [call, hallocate, hp.generation]
    rfl
  · rw [call, hfree]
    rfl
  · rw [freesSlot, hvalidate, index_makeHandle]
    rfl

/-- Reusing the slot moves its generation on. -/
theorem Idle.reuse {g : UInt32} (hp : p.Idle g) (v : T) (n : ℕ) :
    ∃ q replies, runM call p (reuse v n g) = .ok (q, replies) ∧ q.Idle (g + UInt32.ofNat n) := by
  induction n generalizing p g with
  | zero => exact ⟨p, [], rfl, (UInt32.add_zero g).symm ▸ hp⟩
  | succ n ih =>
    obtain ⟨p₁, p₂, hallocate, -, -, hfree, hp₂, -⟩ := hp.reuse_once v
    obtain ⟨q, replies, hrun, hq⟩ := ih hp₂
    refine ⟨q, some (makeHandle 0 g) :: none :: replies, ?_, ?_⟩
    · exact runM_cons hallocate (runM_cons hfree hrun)
    · rwa [Nat.add_comm, UInt32.ofNat_add, ← UInt32.add_assoc]

/-- After enough uses the generation is 0 again, as for the first handle of the slot. -/
theorem comes_back (v₁ v₂ v₃ : T) (n : ℕ) (hwrap : 1 + UInt32.ofNat n = 0) :
    ∃ p q replies q', runM call (new T 1) [.allocate v₁] = .ok (p, [some (makeHandle 0 0)]) ∧
      p.validate (makeHandle 0 0) = true ∧
      runM call (p.free (makeHandle 0 0)) (reuse v₂ n 1) = .ok (q, replies) ∧
      q.call (.allocate v₃) = .ok (q', some (makeHandle 0 0)) ∧
      q'.get (makeHandle 0 0) = .ok (some v₃) ∧
      ¬ p.StaysDead (makeHandle 0 0) (reuse v₂ n 1) := by
  have hidle : (new T 1).Idle 0 := ⟨repr_new 1, rfl⟩
  obtain ⟨p, p₁, hallocate, -, hlive, hfree, hp₁, -⟩ := hidle.reuse_once v₁
  have hp : p.free (makeHandle 0 0) = p₁ := congrArg Prod.fst (Except.ok.inj hfree)
  obtain ⟨q, replies, hrun, hq⟩ := Idle.reuse (g := 1) hp₁ v₂ n
  rw [hwrap] at hq
  obtain ⟨q', -, hagain, hget, -, -, -, -⟩ := hq.reuse_once v₃
  rw [← hp] at hrun
  refine ⟨p, q, replies, q', ?_, hlive, hrun, hagain, hget, fun hstays => ?_⟩
  · rw [runM, hallocate]
    rfl
  · have hdead := (hstays _ q replies List.prefix_rfl hrun).1
    have hlt : (0 : Index).toNat < q.slots.size := hq.repr.lt_of_mem (by simp)
    have hvalidate := validate_makeHandle hlt hq.repr.size_lt
    rw [hq.generation, hdead] at hvalidate
    cases hvalidate

/-- The first handle of a pool with one slot comes back after 2 ^ 32 frees: it was freed, and
then it reads the order that another handle was made for. -/
theorem freed_handle_comes_back :
    ∃ (p q : FixedPool UInt32) (replies : List (Option Handle)) (q' : FixedPool UInt32),
      runM call (new UInt32 1) [.allocate 1] = .ok (p, [some (makeHandle 0 0)]) ∧
      p.validate (makeHandle 0 0) = true ∧
      runM call (p.free (makeHandle 0 0)) (reuse (2 : UInt32) (2 ^ 32 - 1) 1) =
        .ok (q, replies) ∧
      q.call (.allocate 3) = .ok (q', some (makeHandle 0 0)) ∧
      q'.get (makeHandle 0 0) = .ok (some 3) ∧
      ¬ p.StaysDead (makeHandle 0 0) (reuse (2 : UInt32) (2 ^ 32 - 1) 1) := by
  have hwrap : (1 : UInt32) + UInt32.ofNat (2 ^ 32 - 1) = 0 := by decide
  exact comes_back (1 : UInt32) 2 3 (2 ^ 32 - 1) hwrap

end FixedPool

end MatchingEngine
