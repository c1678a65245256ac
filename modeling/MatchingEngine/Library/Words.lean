import Mathlib.Algebra.BigOperators.Group.Finset.Basic
import Mathlib.Algebra.BigOperators.Intervals
import Mathlib.Algebra.BigOperators.Ring.Finset
import Mathlib.Data.List.Nodup
import Mathlib.Tactic.Ring

/-!
# Words up to a length

`words alphabet n` are the words of 1 to `n` letters, in the order in which a depth-first walk
meets them: a word, and then its continuations. Each is met once (`nodup_words`), none is left
out (`mem_words`), and their number is a geometric sum (`length_words`).
-/

namespace Words

variable {α : Type} {alphabet : List α} {n : ℕ} {a : α} {w : List α}

/-- The words of 1 to `n` letters. -/
def words (alphabet : List α) : ℕ → List (List α)
  | 0 => []
  | n + 1 => alphabet.flatMap fun a => [a] :: (words alphabet n).map (List.cons a)

theorem words_succ (alphabet : List α) (n : ℕ) :
    words alphabet (n + 1) =
      alphabet.flatMap fun a => [a] :: (words alphabet n).map (List.cons a) := rfl

/-- A property of all words is one of every first letter, and of what follows it. -/
theorem forall_words {P : List α → Prop} :
    (∀ w ∈ words alphabet (n + 1), P w) ↔
      ∀ a ∈ alphabet, P [a] ∧ ∀ w ∈ words alphabet n, P (a :: w) := by
  rw [words_succ]
  constructor
  · intro h a ha
    have hword : ∀ w ∈ [a] :: (words alphabet n).map (List.cons a), P w := fun w hw =>
      h w (List.mem_flatMap.mpr ⟨a, ha, hw⟩)
    rw [List.forall_mem_cons, List.forall_mem_map] at hword
    exact hword
  · intro h w hw
    obtain ⟨a, ha, hw⟩ := List.mem_flatMap.mp hw
    rcases List.mem_cons.mp hw with rfl | hw
    · exact (h a ha).1
    · obtain ⟨w', hw', rfl⟩ := List.mem_map.mp hw
      exact (h a ha).2 w' hw'

/-- A word has a letter. -/
theorem nil_notMem_words : [] ∉ words alphabet n := by
  cases n with
  | zero => exact List.not_mem_nil
  | succ n =>
    intro hnil
    rw [words_succ] at hnil
    obtain ⟨a, -, hnil⟩ := List.mem_flatMap.mp hnil
    rcases List.mem_cons.mp hnil with heq | hnil
    · cases heq
    · obtain ⟨w, -, heq⟩ := List.mem_map.mp hnil
      cases heq

/-- **No word is left out.** -/
theorem mem_words : w ∈ words alphabet n ↔
    w ≠ [] ∧ w.length ≤ n ∧ ∀ a ∈ w, a ∈ alphabet := by
  induction n generalizing w with
  | zero =>
    constructor
    · exact fun h => absurd h List.not_mem_nil
    · exact fun h => absurd (List.length_eq_zero_iff.mp (Nat.le_zero.mp h.2.1)) h.1
  | succ n ih =>
    rw [words_succ, List.mem_flatMap]
    constructor
    · rintro ⟨a, ha, hw⟩
      rcases List.mem_cons.mp hw with rfl | hw
      · refine ⟨List.cons_ne_nil _ _, ?_, List.forall_mem_singleton.mpr ha⟩
        rw [List.length_singleton]
        omega
      · obtain ⟨w', hw', rfl⟩ := List.mem_map.mp hw
        obtain ⟨-, hlen, hletters⟩ := ih.mp hw'
        exact ⟨List.cons_ne_nil _ _, Nat.succ_le_succ hlen, List.forall_mem_cons.mpr ⟨ha, hletters⟩⟩
    · rintro ⟨hne, hlen, hletters⟩
      cases w with
      | nil => exact absurd rfl hne
      | cons a w =>
        obtain ⟨ha, hletters⟩ := List.forall_mem_cons.mp hletters
        refine ⟨a, ha, ?_⟩
        by_cases hnil : w = []
        · rw [hnil]
          exact List.mem_cons_self
        · exact List.mem_cons_of_mem _
            (List.mem_map_of_mem (ih.mpr ⟨hnil, Nat.le_of_succ_le_succ hlen, hletters⟩))

/-- **No word is met twice.** -/
theorem nodup_words (h : alphabet.Nodup) : (words alphabet n).Nodup := by
  induction n with
  | zero => exact List.nodup_nil
  | succ n ih =>
    rw [words_succ, List.nodup_flatMap]
    constructor
    · intro a _
      rw [List.nodup_cons]
      refine ⟨?_, ih.map (List.cons_injective)⟩
      intro hmem
      obtain ⟨w, hw, heq⟩ := List.mem_map.mp hmem
      rw [List.cons.injEq] at heq
      rw [heq.2] at hw
      exact nil_notMem_words hw
    · -- words with different first letters are different
      refine h.imp fun {a b} hab => ?_
      rw [Function.onFun, List.disjoint_left]
      intro w hwa hwb
      have hhead : ∀ c, w ∈ [c] :: (words alphabet n).map (List.cons c) → w.head? = some c := by
        intro c hw
        rcases List.mem_cons.mp hw with rfl | hw
        · rfl
        · obtain ⟨w', -, rfl⟩ := List.mem_map.mp hw
          rfl
      exact hab (Option.some.inj ((hhead a hwa).symm.trans (hhead b hwb)))

/-- **The number of words.** -/
theorem length_words :
    (words alphabet n).length = ∑ k ∈ Finset.range n, alphabet.length ^ (k + 1) := by
  induction n with
  | zero => rfl
  | succ n ih =>
    have hlen : (words alphabet (n + 1)).length =
        alphabet.length * ((words alphabet n).length + 1) := by
      rw [words_succ, List.length_flatMap]
      simp
    rw [hlen, ih, Finset.sum_range_succ', Nat.mul_add, Finset.mul_sum, Nat.zero_add, Nat.pow_one,
      Nat.mul_one]
    congr 1
    refine Finset.sum_congr rfl fun k _ => ?_
    ring

end Words
