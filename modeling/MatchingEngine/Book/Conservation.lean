import MatchingEngine.Book.Refinement
import MatchingEngine.Spec.Ledger

/-!
# Conservation of quantity

In every run from an empty book, quantity is neither made nor lost: not by a command, and not
by an order over its life in the book.
-/

namespace MatchingEngine

open Run

namespace Book

/-- The subtractions of a trade do not wrap around. -/
theorem fillMaker_subtracts {seq : SeqNo} {level level' : Level} {s s' : Sweep} {i : Index}
    {maker : Order} (h : fillMaker seq level s i maker = .ok (level', s')) :
    ∃ t, s'.trades = s.trades ++ [t] ∧ t.qty ≤ s.incoming.qty ∧ t.qty ≤ maker.qty ∧
      s'.incoming.qty.toNat = s.incoming.qty.toNat - t.qty.toNat ∧
      (maker.qty - t.qty).toNat = maker.qty.toNat - t.qty.toNat := by
  have hmin := toNat_min s.incoming.qty maker.qty
  have htaker : min s.incoming.qty maker.qty ≤ s.incoming.qty := by
    rw [UInt32.le_iff_toNat_le, hmin]
    exact Nat.min_le_left _ _
  have hmaker : min s.incoming.qty maker.qty ≤ maker.qty := by
    rw [UInt32.le_iff_toNat_le, hmin]
    exact Nat.min_le_right _ _
  have hleft := UInt32.toNat_sub_of_le _ _ htaker
  unfold fillMaker at h
  obtain ⟨pool, -, h⟩ := bind_eq_ok.mp h
  dsimp only at h
  split at h
  · -- the maker is filled
    obtain ⟨r₁, -, h⟩ := bind_eq_ok.mp h
    obtain ⟨r₂, -, h⟩ := bind_eq_ok.mp h
    obtain ⟨r₃, -, h⟩ := bind_eq_ok.mp h
    obtain ⟨-, rfl⟩ := Prod.mk.inj (Except.ok.inj h)
    exact ⟨_, rfl, htaker, hmaker, hleft, UInt32.toNat_sub_of_le _ _ hmaker⟩
  · obtain ⟨-, rfl⟩ := Prod.mk.inj (Except.ok.inj h)
    exact ⟨_, rfl, htaker, hmaker, hleft, UInt32.toNat_sub_of_le _ _ hmaker⟩

/-- What holds of every run of the abstract book. -/
structure Conserved (history : List (Command × Reply)) (s : PriorityBook) : Prop where
  ok : s.Ok
  accounted : ∀ c r, (c, .added r) ∈ history → r.accepted = true → Accounted c r
  trades : ∀ p ∈ history, ∀ t ∈ p.2.trades, 1 ≤ t.qty.toNat
  balanced : ∀ id, Balanced id s.orders (ledger id history)

/-- One command more keeps the accounts. -/
theorem Conserved.step {history : List (Command × Reply)} {s : PriorityBook}
    (h : Conserved history s) (c : Command) :
    Conserved (history ++ [(c, (s.exec counter32 c).2)]) (s.exec counter32 c).1 := by
  have heff := PriorityBook.exec_effect h.ok counter32 c
  refine ⟨h.ok.exec counter32 c, fun c' r hmem hacc => ?_, fun p hmem => ?_, fun id => ?_⟩
  · rcases List.mem_append.mp hmem with hmem | hmem
    · exact h.accounted c' r hmem hacc
    · obtain ⟨rfl, hreply⟩ := Prod.mk.inj (List.mem_singleton.mp hmem)
      rw [← hreply] at heff
      exact heff.accounted h.ok hacc
  · rcases List.mem_append.mp hmem with hmem | hmem
    · exact h.trades p hmem
    · rw [List.mem_singleton.mp hmem]
      exact heff.trades_pos h.ok
  · unfold ledger
    rw [List.foldl_append]
    exact (h.balanced id).step h.ok heff

/-- The accounts of a new book. -/
theorem conserved_new (capacity : ℕ) : Conserved [] (.new capacity) where
  ok := PriorityBook.ok_new capacity
  accounted _ _ hmem := absurd hmem List.not_mem_nil
  trades _ hmem := absurd hmem List.not_mem_nil
  balanced _ := .unknown fun _ ho => absurd ho List.not_mem_nil

/-- **Quantity is conserved over whole runs.** -/
theorem quantity_is_conserved (capacity : Index) (cmds : List Command) :
    ∃ b replies l, runM exec (new capacity) cmds = .ok (b, replies) ∧ b.snapshot = .ok l ∧
      (∀ c r, (c, .added r) ∈ cmds.zip replies → r.accepted = true → Accounted c r) ∧
      (∀ o ∈ l, ∃ e, ledger o.orderId (cmds.zip replies) = some e ∧
        o.qty.toNat + e.traded = e.value) ∧
      (∀ id e, ledger id (cmds.zip replies) = some e → (∀ o ∈ l, o.orderId ≠ id) →
        e.cancelled = false → e.traded = e.value) ∧
      (∀ p ∈ cmds.zip replies, ∀ t ∈ p.2.trades, 1 ≤ t.qty.toNat) ∧
      ∀ seq level s i maker level' s', fillMaker seq level s i maker = .ok (level', s') →
        ∃ t, s'.trades = s.trades ++ [t] ∧ t.qty ≤ s.incoming.qty ∧ t.qty ≤ maker.qty ∧
          s'.incoming.qty.toNat = s.incoming.qty.toNat - t.qty.toNat ∧
          (maker.qty - t.qty).toNat = maker.qty.toNat - t.qty.toNat := by
  obtain ⟨b, hrun, hrep, -⟩ := run_spec capacity cmds
  have hall := run_induction (P := Conserved) (fun _ _ c h => h.step c) cmds [] _
    (conserved_new capacity.toNat)
  rw [List.nil_append] at hall
  refine ⟨b, _, _, hrun, snapshot_spec hrep, hall.accounted, fun o ho => ?_,
    fun id e he hno hkept => ?_, hall.trades, fun _ _ _ _ _ _ _ h => fillMaker_subtracts h⟩
  · have hbal := hall.balanced o.orderId
    generalize ledger o.orderId _ = e at hbal
    -- the order rests, so its account is open
    cases hbal with
    | unknown hno => exact absurd rfl (hno o ho)
    | left e hno => exact absurd rfl (hno o ho)
    | resting e o' ho' hid hsum =>
      have hsame : o' = o := hall.ok.eq_of_orderId ho' ho hid
      rw [hsame] at hsum
      exact ⟨e, rfl, hsum⟩
  · have hbal := hall.balanced id
    rw [he] at hbal
    cases hbal with
    | left _ _ hsum => exact hsum hkept
    | resting _ o ho hid => exact absurd hid (hno o ho)

end Book

end MatchingEngine
