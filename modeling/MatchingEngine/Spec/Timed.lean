import MatchingEngine.Spec.PriorityBookTheorems

/-!
# The abstract book — time

The sequence numbers of the resting orders are those of past commands, and within a price
they increase, as long as the counter has not wrapped around.
-/

namespace MatchingEngine

open PriorityList

namespace RestingOrder

/-- Price priority, then time priority. -/
def before (side : Side) (a b : RestingOrder) : Prop :=
  rank side a < rank side b ∨ rank side a = rank side b ∧ a.seqNo < b.seqNo

end RestingOrder

namespace PriorityBook

variable {s s' : PriorityBook} {side taker : Side} {o : RestingOrder} {id : OrderId} {m n : ℕ}

/-- The invariant of a book that has seen `n` commands. -/
structure Timed (s : PriorityBook) (n : ℕ) : Prop where
  past : ∀ side, ∀ o ∈ s.resting side, o.seqNo.toNat < n
  ordered : ∀ side, (s.resting side).Pairwise (RestingOrder.before side)

theorem timed_new (capacity n : ℕ) : (new capacity).Timed n where
  past _ _ ho := absurd ho List.not_mem_nil
  ordered _ := List.Pairwise.nil

namespace Timed

/-- A later bound holds if an earlier one does. -/
theorem mono (h : s.Timed m) (hle : m ≤ n) : s.Timed n where
  past side o ho := (h.past side o ho).trans_le hle
  ordered := h.ordered

/-- Removing orders and changing quantities keeps the rest in order. -/
theorem of_sublist (h : s.Timed n)
    (hsub : ∀ side, (s'.identities side).Sublist (s.identities side)) : s'.Timed n where
  past side o ho := by
    obtain ⟨o', ho', he⟩ := List.mem_map.mp ((hsub side).subset (mem_identities ho))
    have hseq : o.seqNo = o'.seqNo :=
      RestingOrder.eq_of_identity RestingOrder.seqNo (fun _ => rfl) he.symm
    rw [hseq]
    exact h.past side o' ho'
  ordered side := by
    have hmap : (s.identities side).Pairwise (RestingOrder.before side) :=
      List.pairwise_map.mpr (h.ordered side)
    have hmap' : (s'.identities side).Pairwise (RestingOrder.before side) :=
      hmap.sublist (hsub side)
    rw [identities, List.pairwise_map] at hmap'
    exact hmap'

/-- The order of the present command goes behind all others at its price or better. -/
theorem insert (h : s.Timed n) (hseq : o.seqNo.toNat = n) : (s.insert o).Timed (n + 1) where
  past side o' ho' := by
    rcases mem_resting_insert ho' with ⟨rfl, -⟩ | ho'
    · omega
    · have := h.past side o' ho'
      omega
  ordered side := by
    by_cases hs : side = o.side
    · subst hs
      rw [resting_insert]
      refine pairwise_enqueue ((h.ordered o.side).imp fun hab => ?_) (h.ordered o.side)
        (fun a ha hle => ?_) fun a _ hlt => Or.inl hlt
      · rcases hab with hab | hab
        · exact hab.le
        · exact hab.1.le
      · rcases hle.lt_or_eq with hlt | heq
        · exact Or.inl hlt
        · refine Or.inr ⟨heq, UInt64.lt_iff_toNat_lt.mpr ?_⟩
          rw [hseq]
          exact h.past _ a ha
    · rw [resting_insert_of_ne hs]
      exact h.ordered side

/-- A sweep gives out no number. -/
theorem afterSweep (h : s.Timed n) (taker : Side) (limit : Option Price) (account : Account)
    (q : ℕ) : (s.afterSweep taker (s.sweep taker limit account q)).Timed n :=
  h.of_sublist (identities_afterSweep s taker limit account q)

theorem remove (h : s.Timed n) (o : RestingOrder) : (s.remove o).Timed n :=
  h.of_sublist (identities_remove s o)

theorem setQty (h : s.Timed n) (o : RestingOrder) (qty : Qty) : (s.setQty o qty).Timed n :=
  h.of_sublist fun side => by rw [identities_setQty]

theorem tick (h : s.Timed n) : s.tick.Timed n := ⟨h.past, h.ordered⟩

/-- A limit order rests, if at all, under the number `n`, the last to come. -/
theorem addLimit (h : s.Timed n) (hseq : s.nextSeq.toNat = n) (gate : ℕ → ℕ) (id : OrderId)
    (side : Side) (price : Price) (qty : Qty) (account : Account) (tif : TimeInForce) :
    (s.addLimit gate id side price qty account tif).1.Timed (n + 1) := by
  have hswept := h.tick.afterSweep side (some price) account qty.toNat
  simp only [PriorityBook.addLimit]
  split_ifs
  · exact h.tick.mono n.le_succ
  · exact h.tick.mono n.le_succ
  · rw [restResidual]
    split
    · exact hswept.insert hseq
    · exact hswept.mono n.le_succ
  · exact hswept.mono n.le_succ

theorem addMarket (h : s.Timed n) (id : OrderId) (side : Side) (qty : Qty) (account : Account) :
    (s.addMarket id side qty account).1.Timed n := by
  simp only [PriorityBook.addMarket]
  split_ifs
  · exact h.tick
  · exact h.tick.afterSweep side none account qty.toNat

theorem cancel (h : s.Timed n) (id : OrderId) : (s.cancel id).1.Timed n := by
  rw [PriorityBook.cancel]
  split
  · exact h.tick
  · exact h.tick.remove _

/-- A modify that requeues gives the order the number `n`. -/
theorem modify (h : s.Timed n) (hseq : s.nextSeq.toNat = n) (id : OrderId) (newPrice : Price)
    (newQty : Qty) : (s.modify id newPrice newQty).1.Timed (n + 1) := by
  rw [PriorityBook.modify]
  by_cases hq : newQty = 0
  · rw [if_pos hq]
    exact h.tick.mono n.le_succ
  rw [if_neg hq]
  split
  · exact h.tick.mono n.le_succ
  · split_ifs
    · exact (h.tick.setQty _ _).mono n.le_succ
    · exact h.tick.mono n.le_succ
    · exact (h.tick.remove _).insert hseq

/-- **Every command** keeps the order in time. -/
theorem exec (h : s.Timed n) (hseq : s.nextSeq.toNat = n) (gate : ℕ → ℕ) (c : Command) :
    (s.exec gate c).1.Timed (n + 1) := by
  rw [PriorityBook.exec]
  cases c.kind with
  | limit => exact h.addLimit hseq gate c.id c.side c.price c.qty c.account c.tif
  | market => exact (h.addMarket c.id c.side c.qty c.account).mono n.le_succ
  | cancel => exact (h.cancel c.id).mono n.le_succ
  | modify => exact h.modify hseq c.id c.price c.qty

end Timed

/-- Every command takes one sequence number. -/
theorem nextSeq_exec (s : PriorityBook) (gate : ℕ → ℕ) (c : Command) :
    (s.exec gate c).1.nextSeq = s.nextSeq + 1 := by
  rw [exec]
  cases c.kind with
  | limit =>
    simp only [addLimit, restResidual]
    split_ifs <;> rfl
  | market =>
    simp only [addMarket]
    split_ifs <;> rfl
  | cancel =>
    simp only [cancel]
    split <;> rfl
  | modify =>
    simp only [modify]
    split_ifs
    · rfl
    · split
      · rfl
      · split_ifs <;> rfl

end PriorityBook

end MatchingEngine
