import Mathlib.Data.List.Basic

/-!
# Texts with separators

A text made of words can be read in only one way if no word has the separator in it: a word
that ends where the separator or the end of the text is (`word_unique`), a list of words that
each have the separator behind them (`terminated_injective`), and a list of groups that each
begin with an item that is recognised as a first one (`groups_injective`).
-/

namespace Delimited

variable {α : Type*} {sep : α} {as as' bs bs' w w' s s' : List α} {first : α → Prop}

/-- **The front of a list is read in one way**, up to the first item of some kind or to the
end. -/
theorem front_unique (has : ∀ a ∈ as, ¬ first a) (has' : ∀ a ∈ as', ¬ first a)
    (hbs : ∀ b ∈ bs.head?, first b) (hbs' : ∀ b ∈ bs'.head?, first b)
    (h : as ++ bs = as' ++ bs') : as = as' ∧ bs = bs' := by
  induction as generalizing as' with
  | nil =>
    cases as' with
    | nil => exact ⟨rfl, h⟩
    | cons a as' =>
      have ha : first a := hbs a (by rw [show bs = a :: (as' ++ bs') from h]; rfl)
      exact absurd ha (has' a List.mem_cons_self)
  | cons a as ih =>
    cases as' with
    | nil =>
      have ha : first a := hbs' a (by rw [show bs' = a :: (as ++ bs) from h.symm]; rfl)
      exact absurd ha (has a List.mem_cons_self)
    | cons a' as' =>
      obtain ⟨ha, h⟩ := List.cons.inj h
      rw [List.forall_mem_cons] at has has'
      obtain ⟨heq, hrest⟩ := ih has.2 has'.2 h
      exact ⟨congrArg₂ List.cons ha heq, hrest⟩

/-! ## Words -/

/-- The text is at its end, or goes on with the separator. -/
def Ends (sep : α) (s : List α) : Prop := ∀ c ∈ s.head?, c = sep

theorem ends_nil (sep : α) : Ends sep [] := by
  intro c hc
  cases hc

theorem ends_cons (sep : α) (s : List α) : Ends sep (sep :: s) := by
  intro c hc
  exact (Option.some.inj hc).symm

/-- **A word is read in one way**, up to the separator or to the end. -/
theorem word_unique (hw : sep ∉ w) (hw' : sep ∉ w') (hs : Ends sep s) (hs' : Ends sep s')
    (h : w ++ s = w' ++ s') : w = w' ∧ s = s' := by
  apply front_unique _ _ hs hs' h
  · exact fun c hc heq => hw (heq ▸ hc)
  · exact fun c hc heq => hw' (heq ▸ hc)

/-- The words, each with the separator behind it. -/
def terminated (sep : α) (ws : List (List α)) : List α := (ws.map fun w => w ++ [sep]).flatten

theorem terminated_cons (ws : List (List α)) :
    terminated sep (w :: ws) = w ++ sep :: terminated sep ws := by
  rw [terminated, List.map_cons, List.flatten_cons, List.append_assoc]
  rfl

theorem terminated_append (ws ws' : List (List α)) :
    terminated sep (ws ++ ws') = terminated sep ws ++ terminated sep ws' := by
  rw [terminated, List.map_append, List.flatten_append]
  rfl

/-- **A list of words is read in one way.** -/
theorem terminated_injective {ws ws' : List (List α)} (hws : ∀ w ∈ ws, sep ∉ w)
    (hws' : ∀ w ∈ ws', sep ∉ w) (h : terminated sep ws = terminated sep ws') : ws = ws' := by
  induction ws generalizing ws' with
  | nil =>
    cases ws' with
    | nil => rfl
    | cons w' ws' =>
      rw [terminated_cons] at h
      exact absurd h.symm (by simp [terminated])
  | cons w ws ih =>
    cases ws' with
    | nil =>
      rw [terminated_cons] at h
      exact absurd h (by simp [terminated])
    | cons w' ws' =>
      rw [List.forall_mem_cons] at hws hws'
      rw [terminated_cons, terminated_cons] at h
      obtain ⟨heq, hrest⟩ :=
        word_unique hws.1 hws'.1 (ends_cons sep _) (ends_cons sep _) h
      rw [heq, ih hws.2 hws'.2 (List.cons.inj hrest).2]

/-- One word more, with the separator behind it. -/
theorem terminated_concat (ws : List (List α)) (w : List α) :
    terminated sep (ws ++ [w]) = terminated sep ws ++ w ++ [sep] := by
  rw [terminated_append, terminated_cons, List.append_assoc]
  rfl

/-- The separator behind a word is the first one. -/
theorem idxOf?_word [DecidableEq α] (hw : sep ∉ w) (s : List α) :
    (w ++ sep :: s).idxOf? sep = some w.length := by
  induction w with
  | nil => rw [List.nil_append, List.idxOf?_cons, if_pos (beq_self_eq_true sep), List.length_nil]
  | cons c w ih =>
    rw [List.mem_cons, not_or] at hw
    have hc : ¬ (c == sep) = true := fun h => hw.1 (eq_of_beq h).symm
    rw [List.cons_append, List.idxOf?_cons, if_neg hc, ih hw.2]
    rfl

/-- A text begins with a word. -/
theorem exists_word [DecidableEq α] (sep : α) (s : List α) :
    ∃ w rest, s = w ++ rest ∧ sep ∉ w ∧ Ends sep rest := by
  induction s with
  | nil => exact ⟨[], [], rfl, List.not_mem_nil, ends_nil sep⟩
  | cons c s ih =>
    by_cases hc : c = sep
    · exact ⟨[], c :: s, rfl, List.not_mem_nil, hc ▸ ends_cons sep s⟩
    · obtain ⟨w, rest, rfl, hw, hrest⟩ := ih
      refine ⟨c :: w, rest, rfl, ?_, hrest⟩
      rw [List.mem_cons, not_or]
      exact ⟨Ne.symm hc, hw⟩

/-- A text is words that each have the separator behind them, and a last word. -/
theorem exists_terminated [DecidableEq α] (sep : α) (s : List α) :
    ∃ ws w, s = terminated sep ws ++ w ∧ (∀ v ∈ ws, sep ∉ v) ∧ sep ∉ w ∧
      s.count sep = ws.length := by
  induction s with
  | nil => exact ⟨[], [], rfl, by simp, List.not_mem_nil, rfl⟩
  | cons c s ih =>
    obtain ⟨ws, w, rfl, hws, hw, hcount⟩ := ih
    by_cases hc : c = sep
    · refine ⟨[] :: ws, w, by rw [terminated_cons, hc]; rfl, ?_, hw, ?_⟩
      · exact List.forall_mem_cons.mpr ⟨List.not_mem_nil, hws⟩
      · rw [hc, List.count_cons_self, hcount, List.length_cons]
    · -- the item goes to the first word
      have hcount' : (c :: (terminated sep ws ++ w)).count sep = ws.length := by
        rw [List.count_cons_of_ne hc, hcount]
      cases ws with
      | nil =>
        refine ⟨[], c :: w, rfl, by simp, ?_, hcount'⟩
        rw [List.mem_cons, not_or]
        exact ⟨Ne.symm hc, hw⟩
      | cons v ws =>
        rw [List.forall_mem_cons] at hws
        refine ⟨(c :: v) :: ws, w, by rw [terminated_cons, terminated_cons]; rfl, ?_, hw, hcount'⟩
        rw [List.forall_mem_cons, List.mem_cons, not_or]
        exact ⟨⟨Ne.symm hc, hws.1⟩, hws.2⟩

/-! ## Groups -/

/-- Groups of a first item and others, one behind the other. -/
def groups (gs : List (α × List α)) : List α := gs.flatMap fun g => g.1 :: g.2

theorem groups_cons (g : α × List α) (gs : List (α × List α)) :
    groups (g :: gs) = g.1 :: (g.2 ++ groups gs) := List.flatMap_cons

/-- A group in which only the first item begins a group. -/
def Group (first : α → Prop) (g : α × List α) : Prop := first g.1 ∧ ∀ a ∈ g.2, ¬ first a

/-- A list of groups begins with a first item, if with anything. -/
theorem first_of_mem_head? {gs : List (α × List α)}
    (hgs : ∀ g ∈ gs, Group first g) : ∀ b ∈ (groups gs).head?, first b := by
  intro b hb
  cases gs with
  | nil => cases hb
  | cons g gs =>
    rw [groups_cons, List.head?_cons, Option.mem_some_iff] at hb
    rw [← hb]
    exact (hgs g List.mem_cons_self).1

/-- **A list of groups is read in one way.** -/
theorem groups_injective {gs gs' : List (α × List α)}
    (hgs : ∀ g ∈ gs, Group first g) (hgs' : ∀ g ∈ gs', Group first g)
    (h : groups gs = groups gs') : gs = gs' := by
  induction gs generalizing gs' with
  | nil =>
    cases gs' with
    | nil => rfl
    | cons g gs' => cases h
  | cons g gs ih =>
    cases gs' with
    | nil => cases h
    | cons g' gs' =>
      rw [groups_cons, groups_cons] at h
      obtain ⟨hfirst, h⟩ := List.cons.inj h
      rw [List.forall_mem_cons] at hgs hgs'
      obtain ⟨hbody, hrest⟩ := front_unique hgs.1.2 hgs'.1.2 (first_of_mem_head? hgs.2)
        (first_of_mem_head? hgs'.2) h
      rw [ih hgs.2 hgs'.2 hrest, Prod.ext hfirst hbody]

end Delimited
