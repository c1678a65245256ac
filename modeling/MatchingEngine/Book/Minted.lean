import MatchingEngine.Book.Generations

/-!
# The order pool — handles that were returned

A caller that is only honest may keep handles for ever, and free them again and again, but has
no others than those that `allocate` returned. As long as no slot is freed 2 ^ 32 times, such a
handle validates exactly as long as it is live (`Tracks.mem_live`).
-/

namespace MatchingEngine

open Run

namespace FixedPool

variable {T : Type} {p p' : FixedPool T} {h : Handle} {i : Index} {capacity : Index}
  {history : List (PoolCall T × Option Handle)} {c : PoolCall T} {r : Option Handle}

/-- `allocate` returned the handle. -/
def Minted (history : List (PoolCall T × Option Handle)) (h : Handle) : Prop :=
  ∃ v, (PoolCall.allocate v, some h) ∈ history

/-- The rule of an honest caller: what it frees was returned to it, however long ago. -/
def Honest (history : List (PoolCall T × Option Handle)) : PoolCall T → Prop
  | .allocate _ => True
  | .free h => h = {} ∨ Minted history h
  | .write h _ => h ∈ (live history).map Prod.fst

/-- A handle that was minted was so before, or by the last call. -/
theorem minted_append (hm : Minted (history ++ [(c, r)]) h) :
    Minted history h ∨ ∃ v, c = .allocate v ∧ r = some h := by
  obtain ⟨v, hm⟩ := hm
  rw [List.mem_append, List.mem_singleton, Prod.mk.injEq] at hm
  apply hm.imp
  · intro hm
    exact ⟨v, hm⟩
  · intro heq
    exact ⟨v, heq.1.symm, heq.2.symm⟩

/-- A live handle stays live until it is freed. -/
theorem live_append_of_live (hl : h ∈ (live history).map Prod.fst) (hc : c ≠ .free h) :
    h ∈ (live (history ++ [(c, r)])).map Prod.fst := by
  rw [live_append]
  obtain ⟨e, he, rfl⟩ := List.mem_map.mp hl
  cases c with
  | allocate v =>
    apply List.mem_map_of_mem
    cases r with
    | none => exact he
    | some h' =>
      show e ∈ if h'.valid then (h', v) :: live history else live history
      split
      · exact List.mem_cons_of_mem _ he
      · exact he
  | free h' =>
    apply List.mem_map_of_mem
    have hne : e.1 ≠ h' := fun heq => hc (congrArg PoolCall.free heq.symm)
    exact List.mem_filter.mpr ⟨he, bne_iff_ne.mpr hne⟩
  | write h' v =>
    show e.1 ∈ ((live history).map fun e => if e.1 = h' then (h', v) else e).map Prod.fst
    rw [List.map_map, List.mem_map]
    refine ⟨e, he, ?_⟩
    show (if e.1 = h' then (h', v) else e).1 = e.1
    split
    · next heq => exact heq.symm
    · rfl

/-- A free of a valid handle frees its slot. -/
theorem freesSlot_self (hv : p.validate h = true) : freesSlot h.index p (.free h) = true := by
  rw [freesSlot, hv]
  exact beq_self_eq_true _

/-- A call moves the generation of a slot by what it frees of it. -/
theorem toNat_generationAt_call (heq : p.call c = .ok (p', r))
    (hroom : (p.generationAt i).toNat + (freesSlot i p c).toNat < 2 ^ 32) :
    (p'.generationAt i).toNat = (p.generationAt i).toNat + (freesSlot i p c).toNat := by
  have hflag : (freesSlot i p c).toNat ≤ 1 := Bool.toNat_le _
  have hsmall : (freesSlot i p c).toNat < 2 ^ 32 := by omega
  rw [(call_generation heq i).2, UInt32.toNat_add, UInt32.toNat_ofNat_of_lt' hsmall]
  exact Nat.mod_eq_of_lt hroom

/-- The caller knows what is live, and of the handles it was given no others are valid. -/
structure Tracks (capacity : Index) (history : List (PoolCall T × Option Handle))
    (p : FixedPool T) : Prop where
  serves : p.Serves capacity (live history)
  minted : ∀ h, Minted history h → h = {} ∨
    (h.generation.toNat ≤ (p.generationAt h.index).toNat ∧
      (h.generation = p.generationAt h.index → h ∈ (live history).map Prod.fst))

/-- A new pool has minted nothing. -/
theorem tracks_new (T : Type) (capacity : Index) : Tracks capacity [] (new T capacity) where
  serves := serves_new T capacity
  minted h hm := by
    obtain ⟨v, hm⟩ := hm
    exact absurd hm List.not_mem_nil

namespace Tracks

/-- **A handle that was returned and validates** is live. -/
theorem mem_live (ht : Tracks capacity history p) (hm : Minted history h)
    (hv : p.validate h = true) : h ∈ (live history).map Prod.fst := by
  rcases ht.minted h hm with hnil | ⟨-, hlive⟩
  · have hinvalid : p.validate {} = false := rfl
    rw [hnil, hinvalid] at hv
    cases hv
  · apply hlive
    simp only [validate, Bool.and_eq_true, beq_iff_eq] at hv
    exact hv.2

/-- An honest caller is careful, but for frees of handles that are dead. -/
theorem careful (ht : Tracks capacity history p) (hc : Honest history c) :
    Careful history c ∨ ∃ h, c = .free h ∧ p.validate h = false := by
  cases c with
  | allocate v => exact Or.inl trivial
  | free h =>
    by_cases hv : p.validate h = true
    · rcases hc with hnil | hm
      · exact Or.inl (Or.inl hnil)
      · exact Or.inl (Or.inr (ht.mem_live hm hv))
    · exact Or.inr ⟨h, rfl, Bool.not_eq_true _ ▸ hv⟩
  | write h v => exact Or.inl hc

/-- Every honest call succeeds. -/
theorem call_serves (ht : Tracks capacity history p) (hc : Honest history c) :
    ∃ p' r, p.call c = .ok (p', r) ∧ p'.Serves capacity (live (history ++ [(c, r)])) := by
  rcases ht.careful hc with hcareful | ⟨h, rfl, hdead⟩
  · exact ht.serves.call c hcareful
  · -- a free of a dead handle does nothing, and drops no live one
    have hkeep : ((live history).filter fun e => e.1 != h) = live history := by
      rw [List.filter_eq_self]
      intro e he
      rw [bne_iff_ne]
      rintro rfl
      rw [ht.serves.validate he] at hdead
      cases hdead
    refine ⟨p.free h, none, rfl, ?_⟩
    rw [live_append, free, hdead, if_neg Bool.false_ne_true]
    show p.Serves capacity ((live history).filter fun e => e.1 != h)
    rw [hkeep]
    exact ht.serves

/-- A handle that was returned just now is live. -/
theorem minted_now (ht : Tracks capacity history p) {v : T}
    (heq : p.call (.allocate v) = .ok (p', some h)) :
    h = {} ∨ (h.generation = p'.generationAt h.index ∧
      h ∈ (live (history ++ [(.allocate v, some h)])).map Prod.fst) := by
  obtain ⟨h', p₁, hallocate, -, -, hgen, hmint⟩ := ht.serves.allocate v
  rw [call, hallocate] at heq
  obtain ⟨rfl, hh⟩ := Prod.mk.inj (Except.ok.inj heq)
  rw [Option.some_inj] at hh
  subst hh
  by_cases hv : h'.valid = true
  · right
    constructor
    · rw [hgen]
      conv_lhs => rw [hmint hv]
      exact generation_makeHandle _ _
    · rw [live_append]
      show h' ∈ (if h'.valid then (h', v) :: live history else live history).map Prod.fst
      rw [if_pos hv]
      exact List.mem_cons_self
  · left
    rw [Handle.valid, bne_iff_ne, not_not] at hv
    cases h'
    exact congrArg Handle.mk hv

/-- **Every honest call** keeps the caller informed, as long as no generation wraps around. -/
theorem call (ht : Tracks capacity history p) (hc : Honest history c)
    (hroom : ∀ i, (p.generationAt i).toNat + (freesSlot i p c).toNat < 2 ^ 32) :
    ∃ p' r, p.call c = .ok (p', r) ∧ Tracks capacity (history ++ [(c, r)]) p' := by
  obtain ⟨p', r, heq, hserves⟩ := ht.call_serves hc
  refine ⟨p', r, heq, hserves, ?_⟩
  intro h hm
  rcases minted_append hm with hm | ⟨v, rfl, rfl⟩
  · rcases ht.minted h hm with hnil | ⟨hle, hlive⟩
    · exact Or.inl hnil
    · right
      have hnow := toNat_generationAt_call heq (hroom h.index)
      constructor
      · omega
      · intro hsame
        rw [← hsame] at hnow
        have hold : h.generation = p.generationAt h.index := by
          apply UInt32.toNat_inj.mp
          omega
        have hmem := hlive hold
        -- had this call freed the handle, the generation would have moved on
        apply live_append_of_live hmem
        rintro rfl
        obtain ⟨e, he, rfl⟩ := List.mem_map.mp hmem
        rw [freesSlot_self (ht.serves.validate he), ← hold, Bool.toNat_true] at hnow
        omega
  · apply (ht.minted_now heq).imp id
    intro hnow
    exact ⟨le_of_eq (congrArg UInt32.toNat hnow.1), fun _ => hnow.2⟩

/-- **A run of honest calls**, none of whose slots is freed too often. -/
theorem run (calls : List (PoolCall T)) (ht : Tracks capacity history p)
    (hobeys : Obeys Honest FixedPool.call history p calls)
    (hfew : ∀ i, (p.generationAt i).toNat + frees i p calls < 2 ^ 32) :
    ∃ p' replies, runM FixedPool.call p calls = .ok (p', replies) ∧
      Tracks capacity (history ++ calls.zip replies) p' := by
  induction calls generalizing history p with
  | nil =>
    refine ⟨p, [], rfl, ?_⟩
    rwa [List.zip_nil_left, List.append_nil]
  | cons c calls ih =>
    have hroom : ∀ i, (p.generationAt i).toNat + (freesSlot i p c).toNat < 2 ^ 32 := by
      intro i
      have hle : (freesSlot i p c).toNat ≤ frees i p (c :: calls) := Nat.le_add_right _ _
      have := hfew i
      omega
    obtain ⟨p₁, r, heq, ht₁⟩ := ht.call hobeys.1 hroom
    have hfew₁ : ∀ i, (p₁.generationAt i).toNat + frees i p₁ calls < 2 ^ 32 := by
      intro i
      have hi := hfew i
      rw [frees_cons_of_ok heq, ← Nat.add_assoc] at hi
      rwa [toNat_generationAt_call heq (hroom i)]
    obtain ⟨p', replies, hrun, ht'⟩ := ih ht₁ (hobeys.2 p₁ r heq) hfew₁
    refine ⟨p', r :: replies, ?_, ?_⟩
    · exact runM_cons heq hrun
    · rwa [List.append_assoc] at ht'

end Tracks

/-- The slots of a new pool are of generation 0. -/
theorem generationAt_new (T : Type) (capacity i : Index) : (new T capacity).generationAt i = 0 := by
  rw [generationAt, new, Array.getD_eq_getD_getElem?, Array.getElem?_replicate]
  split <;> rfl

/-- **After any run of honest calls** on a new pool, a handle that was returned and validates is
live, as long as no slot was freed 2 ^ 32 times. -/
theorem tracks_run (calls : List (PoolCall T))
    (hobeys : Obeys Honest call [] (new T capacity) calls)
    (hfew : ∀ i, frees i (new T capacity) calls < 2 ^ 32) :
    ∃ p replies, runM call (new T capacity) calls = .ok (p, replies) ∧
      Tracks capacity (calls.zip replies) p := by
  apply (tracks_new T capacity).run calls hobeys
  intro i
  rw [generationAt_new, UInt32.toNat_zero, Nat.zero_add]
  exact hfew i

end FixedPool

end MatchingEngine
