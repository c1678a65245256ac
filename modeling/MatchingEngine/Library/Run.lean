import MatchingEngine.Library.Checked

/-!
# Runs

A machine takes one input after another and puts out something at each step. `runM` runs a
machine whose steps can fail, `run` one whose steps cannot. If one step of a failing machine
does what a step of the other does, every run of it succeeds and puts out the same
(`runM_eq_run`). The relation between the two may depend on the number of steps made, and
the steps may have a side condition.
-/

namespace Run

open MatchingEngine

variable {ε σ τ ι ω : Type}

/-- A run of a machine that can fail, with what it puts out. -/
def runM (step : σ → ι → Except ε (σ × ω)) : σ → List ι → Except ε (σ × List ω)
  | s, [] => .ok (s, [])
  | s, i :: is => do
    let (s, o) ← step s i
    let (s, os) ← runM step s is
    return (s, o :: os)

/-- A run makes its first step and goes on from there. -/
theorem runM_cons {step : σ → ι → Except ε (σ × ω)} {s s₁ s' : σ} {i : ι} {is : List ι} {o : ω}
    {os : List ω} (hstep : step s i = .ok (s₁, o)) (hrun : runM step s₁ is = .ok (s', os)) :
    runM step s (i :: is) = .ok (s', o :: os) := by
  rw [runM, hstep, ok_bind]
  dsimp only
  rw [hrun]
  rfl

/-- A run that goes on for one more step. -/
theorem runM_concat {step : σ → ι → Except ε (σ × ω)} {s' s₂ : σ} {i : ι} {o : ω} :
    ∀ {is : List ι} {s : σ} {os : List ω}, runM step s is = .ok (s', os) →
      step s' i = .ok (s₂, o) → runM step s (is ++ [i]) = .ok (s₂, os ++ [o]) := by
  intro is
  induction is with
  | nil =>
    intro s os hrun hstep
    obtain ⟨rfl, rfl⟩ := Prod.mk.inj (Except.ok.inj hrun)
    exact runM_cons hstep rfl
  | cons j is ih =>
    intro s os hrun hstep
    rw [runM] at hrun
    obtain ⟨⟨s₁, o₁⟩, hfirst, hrest⟩ := bind_eq_ok.mp hrun
    obtain ⟨⟨s₃, os₁⟩, hrun₁, heq⟩ := bind_eq_ok.mp hrest
    obtain ⟨rfl, rfl⟩ := Prod.mk.inj (Except.ok.inj heq)
    exact runM_cons hfirst (ih hrun₁ hstep)

/-- A run of a machine that cannot fail, with what it puts out. -/
def run (step : τ → ι → τ × ω) : τ → List ι → τ × List ω
  | t, [] => (t, [])
  | t, i :: is =>
    let (t, o) := step t i
    let (t, os) := run step t is
    (t, o :: os)

/-- The condition `cond` holds before every step of the run, as long as no step fails. -/
def alongM (cond : σ → ι → Bool) (step : σ → ι → Except ε (σ × ω)) : σ → List ι → Bool
  | _, [] => true
  | s, i :: is =>
    cond s i &&
      match step s i with
      | .ok (s, _) => alongM cond step s is
      | .error _ => true

section

variable {step : σ → ι → Except ε (σ × ω)} {step' : τ → ι → τ × ω} {cond : σ → ι → Bool}
  {N : ℕ} {R : ℕ → σ → τ → Prop}

/-- **Simulation.** A step lemma for all steps up to the `N`-th is a lemma about all runs of
at most `N` steps. -/
theorem runM_eq_run
    (hstep : ∀ n s t i, n < N → cond s i = true → R n s t →
      ∃ s', step s i = .ok (s', (step' t i).2) ∧ R (n + 1) s' (step' t i).1) :
    ∀ (is : List ι) (n : ℕ) (s : σ) (t : τ), n + is.length ≤ N → alongM cond step s is = true →
      R n s t →
      ∃ s', runM step s is = .ok (s', (run step' t is).2) ∧
        R (n + is.length) s' (run step' t is).1 := by
  intro is
  induction is with
  | nil =>
    intro n s t _ _ h
    exact ⟨s, rfl, h⟩
  | cons i is ih =>
    intro n s t hn hcond h
    rw [List.length_cons] at hn
    rw [alongM, Bool.and_eq_true] at hcond
    obtain ⟨hi, his⟩ := hcond
    obtain ⟨s₁, heq, h₁⟩ := hstep n s t i (by omega) hi h
    rw [heq] at his
    obtain ⟨s₂, hrun, h₂⟩ := ih (n + 1) s₁ (step' t i).1 (by omega) his h₁
    refine ⟨s₂, ?_, ?_⟩
    · exact runM_cons heq hrun
    · rw [List.length_cons, Nat.add_comm is.length, ← Nat.add_assoc]
      exact h₂

theorem alongM_true (s : σ) (is : List ι) : alongM (fun _ _ => true) step s is = true := by
  induction is generalizing s with
  | nil => rfl
  | cons i is ih =>
    rw [alongM, Bool.true_and]
    split
    · exact ih _
    · rfl

/-- Simulation without a side condition. -/
theorem runM_eq_run_of_forall
    (hstep : ∀ n s t i, n < N → R n s t →
      ∃ s', step s i = .ok (s', (step' t i).2) ∧ R (n + 1) s' (step' t i).1)
    (is : List ι) {s : σ} {t : τ} (hn : is.length ≤ N) (h : R 0 s t) :
    ∃ s', runM step s is = .ok (s', (run step' t is).2) ∧
      R is.length s' (run step' t is).1 := by
  have hrun := runM_eq_run (fun n s t i hn _ => hstep n s t i hn) is 0 s t
    (by omega) (alongM_true s is) h
  rw [Nat.zero_add] at hrun
  exact hrun

end

/-! ## Rules of use

A rule says which inputs a caller may give. It may look at the abstract state
(`KeepsTo`), or at what went in and came out so far (`Obeys`). -/

/-- Every input of the run is allowed by `rule` in the state in which it is given. -/
def KeepsTo (rule : τ → ι → Prop) (step' : τ → ι → τ × ω) : τ → List ι → Prop
  | _, [] => True
  | t, i :: is => rule t i ∧ KeepsTo rule step' (step' t i).1 is

/-- Simulation of the runs that keep to a rule. -/
theorem runM_eq_run_of_keepsTo {step : σ → ι → Except ε (σ × ω)} {step' : τ → ι → τ × ω}
    {rule : τ → ι → Prop} {R : σ → τ → Prop}
    (hstep : ∀ s t i, R s t → rule t i →
      ∃ s', step s i = .ok (s', (step' t i).2) ∧ R s' (step' t i).1) :
    ∀ (is : List ι) (s : σ) (t : τ), R s t → KeepsTo rule step' t is →
      ∃ s', runM step s is = .ok (s', (run step' t is).2) ∧ R s' (run step' t is).1 := by
  intro is
  induction is with
  | nil => exact fun s t h _ => ⟨s, rfl, h⟩
  | cons i is ih =>
    intro s t h hrule
    obtain ⟨s₁, heq, h₁⟩ := hstep s t i h hrule.1
    obtain ⟨s₂, hrun, h₂⟩ := ih s₁ (step' t i).1 h₁ hrule.2
    refine ⟨s₂, ?_, h₂⟩
    exact runM_cons heq hrun

/-- Every input of the run is allowed by `rule` after what went in and came out before it. -/
def Obeys (rule : List (ι × ω) → ι → Prop) (step : σ → ι → Except ε (σ × ω)) :
    List (ι × ω) → σ → List ι → Prop
  | _, _, [] => True
  | h, s, i :: is =>
    rule h i ∧ ∀ s' o, step s i = .ok (s', o) → Obeys rule step (h ++ [(i, o)]) s' is

/-- A run obeys a rule if its first step does and succeeds, and the rest of it does. -/
theorem Obeys.cons {rule : List (ι × ω) → ι → Prop} {step : σ → ι → Except ε (σ × ω)}
    {h : List (ι × ω)} {s s' : σ} {i : ι} {is : List ι} {o : ω} (heq : step s i = .ok (s', o))
    (hi : rule h i) (his : Obeys rule step (h ++ [(i, o)]) s' is) :
    Obeys rule step h s (i :: is) := by
  refine ⟨hi, fun s₁ o₁ heq₁ => ?_⟩
  rw [heq, Except.ok.injEq, Prod.mk.injEq] at heq₁
  obtain ⟨rfl, rfl⟩ := heq₁
  exact his

/-- What every allowed step keeps, every run of allowed steps keeps, and no step of it fails. -/
theorem runM_induction {step : σ → ι → Except ε (σ × ω)} {rule : List (ι × ω) → ι → Prop}
    {P : List (ι × ω) → σ → Prop}
    (hstep : ∀ h s i, P h s → rule h i → ∃ s' o, step s i = .ok (s', o) ∧ P (h ++ [(i, o)]) s') :
    ∀ (is : List ι) (h : List (ι × ω)) (s : σ), P h s → Obeys rule step h s is →
      ∃ s' os, runM step s is = .ok (s', os) ∧ os.length = is.length ∧ P (h ++ is.zip os) s' := by
  intro is
  induction is with
  | nil => exact fun h s hp _ => ⟨s, [], rfl, rfl, by rwa [List.zip_nil_left, List.append_nil]⟩
  | cons i is ih =>
    intro h s hp hobeys
    obtain ⟨s₁, o, heq, hp₁⟩ := hstep h s i hp hobeys.1
    obtain ⟨s₂, os, hrun, hlen, hp₂⟩ := ih (h ++ [(i, o)]) s₁ hp₁ (hobeys.2 s₁ o heq)
    refine ⟨s₂, o :: os, ?_, congrArg (· + 1) hlen, ?_⟩
    · exact runM_cons heq hrun
    · rwa [List.append_assoc] at hp₂

/-! ## What holds of a whole run -/

/-- One output for each input. -/
theorem length_run (step : τ → ι → τ × ω) (is : List ι) :
    ∀ t, (run step t is).2.length = is.length := by
  induction is with
  | nil => exact fun _ => rfl
  | cons i is ih => exact fun t => congrArg (· + 1) (ih (step t i).1)

/-- A run goes on where its first part ended. -/
theorem run_append (step : τ → ι → τ × ω) (is js : List ι) : ∀ t, run step t (is ++ js) =
    ((run step (run step t is).1 js).1,
      (run step t is).2 ++ (run step (run step t is).1 js).2) := by
  induction is with
  | nil => exact fun _ => rfl
  | cons i is ih =>
    intro t
    show ((run step (step t i).1 (is ++ js)).1,
      (step t i).2 :: (run step (step t i).1 (is ++ js)).2) = _
    rw [ih]
    rfl

/-- **Invariants of runs**: what every step keeps, of the state and of what went in and came
out so far, every run keeps. -/
theorem run_induction {step : τ → ι → τ × ω} {P : List (ι × ω) → τ → Prop}
    (hstep : ∀ h t i, P h t → P (h ++ [(i, (step t i).2)]) (step t i).1) :
    ∀ (is : List ι) (h : List (ι × ω)) (t : τ), P h t →
      P (h ++ is.zip (run step t is).2) (run step t is).1 := by
  intro is
  induction is with
  | nil =>
    intro h t hp
    rw [List.zip_nil_left, List.append_nil]
    exact hp
  | cons i is ih =>
    intro h t hp
    have hrun := ih (h ++ [(i, (step t i).2)]) (step t i).1 (hstep h t i hp)
    rw [List.append_assoc] at hrun
    exact hrun

/-- **Homomorphisms of runs**: what a step does to translated states and inputs, a whole run
does. -/
theorem run_map {κ υ χ : Type} {step : τ → ι → τ × ω} {next : υ → κ → υ × χ} {P : τ → Prop}
    {f : τ → υ} {g : ι → κ} {k : ω → χ}
    (hstep : ∀ t i, P t → next (f t) (g i) = (f (step t i).1, k (step t i).2) ∧ P (step t i).1) :
    ∀ (is : List ι) (t : τ), P t →
      run next (f t) (is.map g) = (f (run step t is).1, (run step t is).2.map k) := by
  intro is
  induction is with
  | nil => exact fun t _ => rfl
  | cons i is ih =>
    intro t ht
    obtain ⟨heq, hnext⟩ := hstep t i ht
    have hrun := ih (step t i).1 hnext
    rw [List.map_cons, run, heq]
    dsimp only
    rw [hrun]
    rfl

end Run
