import MatchingEngine.Book.Refinement
import MatchingEngine.Spec.Effect

/-!
# What a book shows

A book as a machine that puts out the reply to a command and the orders it shows after it.
From any state that represents an abstract book it runs as that one does (`run_step_spec`),
so what is proved about all runs of the abstract book holds of the book.

Slots, generations, the free list and the hash table are not part of an abstract book. Two
books that show the same represent the same one, and can never be told apart again
(`snapshot_is_the_state`).
-/

namespace MatchingEngine

open Run

/-- What is seen of a command: the reply, and the orders shown after it. -/
abbrev Observed := Reply × List RestingOrder

/-- A command, with its reply and the snapshot after it. -/
def Book.step (b : Book) (c : Command) : Checked (Book × Observed) := do
  let (b, reply) ← b.exec c
  let shown ← b.snapshot
  return (b, reply, shown)

/-- The same of the abstract book, with the book's counter. -/
def PriorityBook.observe (s : PriorityBook) (c : Command) : PriorityBook × Observed :=
  ((s.exec counter32 c).1, (s.exec counter32 c).2, (s.exec counter32 c).1.orders)

/-- What is shown comes on top of what is replied. -/
theorem PriorityBook.run_exec (s : PriorityBook) (cmds : List Command) :
    run (PriorityBook.exec counter32) s cmds =
      ((run observe s cmds).1, (run observe s cmds).2.map Prod.fst) := by
  have hstep : ∀ (s : PriorityBook) (c : Command), True →
      (id s).exec counter32 (id c) = (id (s.observe c).1, (s.observe c).2.1) ∧ True :=
    fun _ _ _ => ⟨rfl, trivial⟩
  have hmap := run_map (P := fun _ => True) (k := Prod.fst) hstep cmds s trivial
  rw [List.map_id] at hmap
  exact hmap

/-- The capacity of a book never changes. -/
theorem PriorityBook.capacity_observe (capacity : ℕ) (cmds : List Command) :
    (run observe (.new capacity) cmds).1.capacity = capacity := by
  have hrun : (run observe (.new capacity) cmds).1.Ok ∧
      (run observe (.new capacity) cmds).1.capacity = capacity := by
    refine run_induction (P := fun _ (s : PriorityBook) => s.Ok ∧ s.capacity = capacity)
      (fun _ s c h => ?_) cmds [] _ ⟨PriorityBook.ok_new capacity, rfl⟩
    have heff := PriorityBook.exec_effect h.1 counter32 c
    exact ⟨h.1.exec counter32 c, heff.capacity.trans h.2⟩
  exact hrun.2

namespace Book

variable {b : Book} {s : PriorityBook}

/-- The book and the abstract book put out the same. -/
theorem observe_spec (h : b.Represents s) (hok : s.Ok) (c : Command) :
    ∃ b', b.step c = .ok (b', (s.observe c).2) ∧ b'.Represents (s.observe c).1 := by
  obtain ⟨b', heq, hrep⟩ := exec_spec h hok c
  refine ⟨b', ?_, hrep⟩
  unfold step
  rw [heq, ok_bind]
  dsimp only
  rw [snapshot_spec hrep]
  rfl

/-- **Every run from here on** shows what the abstract book says. -/
theorem run_step_spec (h : b.Represents s) (hok : s.Ok) (cmds : List Command) :
    ∃ b', runM step b cmds = .ok (b', (run PriorityBook.observe s cmds).2) ∧
      b'.Represents (run PriorityBook.observe s cmds).1 ∧
      (run PriorityBook.observe s cmds).1.Ok := by
  refine runM_eq_run_of_forall (N := cmds.length)
    (R := fun _ (b : Book) (s : PriorityBook) => b.Represents s ∧ s.Ok) ?_ cmds le_rfl ⟨h, hok⟩
  intro n b s c _ h
  obtain ⟨b', heq, hrep⟩ := observe_spec h.1 h.2 c
  exact ⟨b', heq, hrep, h.2.exec counter32 c⟩

/-! ## Hidden state -/

/-- A book represents one abstract book only: what it shows, its capacity and its counters. -/
theorem represents_unique {b₁ b₂ : Book} {s₁ s₂ : PriorityBook} (h₁ : b₁.Represents s₁)
    (h₂ : b₂.Represents s₂) (hok₁ : s₁.Ok) (hok₂ : s₂.Ok)
    (hcap : b₁.pool.slots.size = b₂.pool.slots.size) (hsnap : b₁.snapshot = b₂.snapshot)
    (hseq : b₁.nextSeq = b₂.nextSeq) (htrade : b₁.nextTradeId = b₂.nextTradeId) : s₁ = s₂ := by
  have horders : s₁.orders = s₂.orders := by
    rw [snapshot_spec h₁, snapshot_spec h₂] at hsnap
    exact Except.ok.inj hsnap
  -- a snapshot can be taken apart into the two sides
  have hresting : s₁.resting = s₂.resting := by
    funext side
    rw [← PriorityBook.ofSide_orders hok₁, ← PriorityBook.ofSide_orders hok₂, horders]
  obtain ⟨L₁, vacant₁, -, hs₁⟩ := h₁
  obtain ⟨L₂, vacant₂, -, hs₂⟩ := h₂
  rw [← hs₁.capacity, ← hs₂.capacity] at hcap
  rw [← hs₁.nextSeq, ← hs₂.nextSeq] at hseq
  rw [← hs₁.nextTradeId, ← hs₂.nextTradeId] at htrade
  cases s₁
  cases s₂
  congr

/-- The pool has as many slots as the abstract book has capacity. -/
theorem size_of_represents {s : PriorityBook} (h : b.Represents s) :
    b.pool.slots.size = s.capacity := by
  obtain ⟨L, vacant, -, hs⟩ := h
  exact hs.capacity.symm

/-- **The snapshot is the whole state**: two books of one capacity, made by any commands, that
show the same and have the same counters show the same ever after. -/
theorem snapshot_is_the_state {capacity : Index} {cmds₁ cmds₂ : List Command} {b₁ b₂ : Book}
    {replies₁ replies₂ : List Reply} (h₁ : runM exec (new capacity) cmds₁ = .ok (b₁, replies₁))
    (h₂ : runM exec (new capacity) cmds₂ = .ok (b₂, replies₂))
    (hsnap : b₁.snapshot = b₂.snapshot) (hseq : b₁.nextSeq = b₂.nextSeq)
    (htrade : b₁.nextTradeId = b₂.nextTradeId) (cmds : List Command) :
    ∃ b₁' b₂' log, runM step b₁ cmds = .ok (b₁', log) ∧ runM step b₂ cmds = .ok (b₂', log) := by
  obtain ⟨c₁, hrun₁, hrep₁, hok₁⟩ := run_spec capacity cmds₁
  obtain ⟨c₂, hrun₂, hrep₂, hok₂⟩ := run_spec capacity cmds₂
  obtain ⟨rfl, -⟩ := Prod.mk.inj (Except.ok.inj (h₁.symm.trans hrun₁))
  obtain ⟨rfl, -⟩ := Prod.mk.inj (Except.ok.inj (h₂.symm.trans hrun₂))
  have hcap : b₁.pool.slots.size = b₂.pool.slots.size := by
    rw [size_of_represents hrep₁, size_of_represents hrep₂, PriorityBook.run_exec,
      PriorityBook.run_exec, PriorityBook.capacity_observe, PriorityBook.capacity_observe]
  have hsame := represents_unique hrep₁ hrep₂ hok₁ hok₂ hcap hsnap hseq htrade
  obtain ⟨b₁', hlog₁, -⟩ := run_step_spec hrep₁ hok₁ cmds
  obtain ⟨b₂', hlog₂, -⟩ := run_step_spec hrep₂ hok₂ cmds
  rw [← hsame] at hlog₂
  exact ⟨b₁', b₂', _, hlog₁, hlog₂⟩

/-- A run ends in the book after its commands. -/
theorem runM_after (capacity : Index) (cmds : List Command) :
    ∃ replies, runM exec (new capacity) cmds = .ok (after capacity cmds, replies) := by
  obtain ⟨b, hrun, -⟩ := run_spec capacity cmds
  unfold after
  rw [hrun]
  exact ⟨_, rfl⟩

/-- An order in a slot that was used before, and the same one in a fresh slot. -/
theorem snapshot_is_the_state_usedSlot :
    ∃ b₁' b₂' log,
      runM step (after 2 [limitCommand 1 .buy 5 7 1, cancelCommand 1, limitCommand 2 .buy 4 7 1])
        [limitCommand 3 .sell 4 9 2] = .ok (b₁', log) ∧
      runM step (after 2 [cancelCommand 1, cancelCommand 1, limitCommand 2 .buy 4 7 1])
        [limitCommand 3 .sell 4 9 2] = .ok (b₂', log) := by
  obtain ⟨replies₁, h₁⟩ := runM_after 2
    [limitCommand 1 .buy 5 7 1, cancelCommand 1, limitCommand 2 .buy 4 7 1]
  obtain ⟨replies₂, h₂⟩ :=
    runM_after 2 [cancelCommand 1, cancelCommand 1, limitCommand 2 .buy 4 7 1]
  exact snapshot_is_the_state h₁ h₂ (by decide +kernel) (by decide +kernel) (by decide +kernel)
    [limitCommand 3 .sell 4 9 2]

end Book

end MatchingEngine
