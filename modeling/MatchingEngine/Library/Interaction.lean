import Mathlib.Tactic.Common

/-!
# Programs that can be stopped

A program that calls a system it does not control. The system answers each call, and between
calls its state may drift on by itself. The program can be stopped at any point, so what matters
is not only what it returns but what holds of the state all the way (`wp`): one rule for each
construct, and one theorem that says what the rules are worth (`Reaches.wp`).
-/

namespace Interaction

variable {Op : Type} {Ans : Op → Type} {σ α β : Type}

/-- A program with calls `op : Op`, each of which is answered by an `Ans op`. -/
inductive Prog (Ans : Op → Type) (α : Type) where
  | ret (a : α)
  | call (op : Op) (k : Ans op → Prog Ans α)

namespace Prog

/-- The second program runs on what the first one returns. -/
def bind : Prog Ans α → (α → Prog Ans β) → Prog Ans β
  | .ret a, f => f a
  | .call op k, f => .call op fun a => (k a).bind f

instance : Monad (Prog Ans) where
  pure := .ret
  bind := bind

/-- Make a call and return the answer. -/
def perform (op : Op) : Prog Ans (Ans op) := .call op .ret

end Prog

/-- What the system may do: how it may answer a call, and how its state may drift. -/
structure System (Ans : Op → Type) (σ : Type) where
  answers : σ → (op : Op) → Ans op → σ → Prop
  drift : σ → σ → Prop
  drift_refl : ∀ s, drift s s
  drift_trans : ∀ {s s' s''}, drift s s' → drift s' s'' → drift s s''

/-- From state `s` the program `p` can get to state `s'` with the program `p'` left to run. -/
inductive Reaches (M : System Ans σ) : σ → Prog Ans α → σ → Prog Ans α → Prop where
  | refl (s : σ) (p : Prog Ans α) : Reaches M s p s p
  | drift {s s₁ s' : σ} {p p' : Prog Ans α} (h : M.drift s s₁) (hr : Reaches M s₁ p s' p') :
      Reaches M s p s' p'
  | call {s s₁ s' : σ} {op : Op} {a : Ans op} {k : Ans op → Prog Ans α} {p' : Prog Ans α}
      (h : M.answers s op a s₁) (hr : Reaches M s₁ (k a) s' p') : Reaches M s (.call op k) s' p'

/-- Wherever the program is stopped the state satisfies `I`, and when it returns, the state and
the result satisfy `Q`. -/
def wp (M : System Ans σ) (I : σ → Prop) (Q : σ → α → Prop) : Prog Ans α → σ → Prop
  | .ret a, s => ∀ s', M.drift s s' → I s' ∧ Q s' a
  | .call op k, s => ∀ s', M.drift s s' → I s' ∧ ∀ a s'', M.answers s' op a s'' → wp M I Q (k a) s''

section

variable {M : System Ans σ} {I I' : σ → Prop} {Q Q' : σ → α → Prop} {s s' : σ} {p p' : Prog Ans α}

/-- What is promised holds also after a drift. -/
theorem wp_drift (h : wp M I Q p s) (hd : M.drift s s') : wp M I Q p s' := by
  cases p with
  | ret a => exact fun s'' hd' => h s'' (M.drift_trans hd hd')
  | call op k => exact fun s'' hd' => h s'' (M.drift_trans hd hd')

/-- The invariant holds where a program is stopped at once. -/
theorem wp_stop (h : wp M I Q p s) : I s := by
  cases p with
  | ret a => exact (h s (M.drift_refl s)).1
  | call op k => exact (h s (M.drift_refl s)).1

/-- Weaker promises hold too. -/
theorem wp_mono (h : wp M I Q p s) (hI : ∀ s, I s → I' s) (hQ : ∀ s a, Q s a → Q' s a) :
    wp M I' Q' p s := by
  induction p generalizing s with
  | ret a =>
    intro s' hd
    exact ⟨hI s' (h s' hd).1, hQ s' a (h s' hd).2⟩
  | call op k ih =>
    intro s' hd
    exact ⟨hI s' (h s' hd).1, fun a s'' ha => ih a ((h s' hd).2 a s'' ha)⟩

/-- One program after another. -/
theorem wp_bind {f : α → Prog Ans β} {R : σ → β → Prop}
    (h : wp M I (fun s a => wp M I R (f a) s) p s) : wp M I R (p >>= f) s := by
  induction p generalizing s with
  | ret a => exact (h s (M.drift_refl s)).2
  | call op k ih =>
    intro s' hd
    exact ⟨(h s' hd).1, fun a s'' ha => ih a ((h s' hd).2 a s'' ha)⟩

/-- A program that has returned waits. -/
theorem Reaches.of_ret {a : α} (hr : Reaches M s (.ret a) s' p') :
    p' = .ret a ∧ M.drift s s' := by
  generalize hp : Prog.ret a = p at hr
  induction hr with
  | refl s p => exact ⟨rfl, M.drift_refl s⟩
  | drift hd _ ih => exact ⟨(ih hp).1, M.drift_trans hd (ih hp).2⟩
  | call => cases hp

/-- **Soundness**: what was left to run is still as good as it was promised. -/
theorem Reaches.wp (hr : Reaches M s p s' p') (h : wp M I Q p s) : wp M I Q p' s' := by
  induction hr with
  | refl s p => exact h
  | drift hd _ ih => exact ih (wp_drift h hd)
  | @call s _ _ _ a _ _ ha _ ih => exact ih ((h s (M.drift_refl s)).2 a _ ha)

/-- A program that is stopped has kept the invariant. -/
theorem Reaches.stop (hr : Reaches M s p s' p') (h : Interaction.wp M I Q p s) : I s' :=
  wp_stop (hr.wp h)

/-- A program that has returned has reached what was promised. -/
theorem Reaches.result {a : α} (hr : Reaches M s p s' (.ret a)) (h : Interaction.wp M I Q p s) :
    Q s' a :=
  (hr.wp h s' (M.drift_refl s')).2

end

end Interaction
