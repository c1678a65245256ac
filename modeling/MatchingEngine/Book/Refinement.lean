import MatchingEngine.Book.AmendTheorems
import MatchingEngine.Library.Run

/-!
# The book refines the abstract book

Every command, and after it every snapshot, does without a fault what the abstract book says
(`exec_spec`, `snapshot_spec`). So does every run of commands (`run_spec`), and every book
that a run reaches represents an abstract one (`Reachable.represents`).
-/

namespace MatchingEngine

open FixedPool IntrusiveList Run

namespace Book

variable {b : Book} {s : PriorityBook} {L : Side → Ladder} {vacant : List Index} {side : Side}

/-! ## Snapshots -/

section Snapshot

variable {p : FixedPool Order} {levels : PriceLevels} {room : ℕ}

/-- The inner walk copies the orders of one level. -/
theorem appendLevel_spec : ∀ (ys : List Index) (fuel : ℕ) (before : Index)
    (out : List RestingOrder), ys.length < fuel → Seg p.nxt p.prv before ys kNilIndex →
    kNilIndex ∉ ys → p.Holds ys →
    appendLevel p fuel (ys.headD kNilIndex) out = .ok (out ++ ys.map p.restingAt) := by
  intro ys
  induction ys with
  | nil =>
    intro fuel before out hf _ _ _
    obtain ⟨fuel, rfl⟩ := Nat.exists_eq_add_one_of_ne_zero (by omega : fuel ≠ 0)
    simp [appendLevel]
  | cons i ys ih =>
    intro fuel before out hf hseg hnil hh
    obtain ⟨fuel, rfl⟩ := Nat.exists_eq_add_one_of_ne_zero (by omega : fuel ≠ 0)
    rw [List.length_cons] at hf
    rw [List.mem_cons, not_or] at hnil
    obtain ⟨o, ho⟩ := hh i List.mem_cons_self
    obtain ⟨-, hn, hseg⟩ := hseg
    rw [nxt_of_value? ho] at hn
    rw [appendLevel, List.headD_cons, if_neg (Ne.symm hnil.1), unchecked_of_value? ho, ok_bind, hn,
      ih fuel i _ (by omega) hseg hnil.2 fun j hj => hh j (List.mem_cons_of_mem _ hj),
      List.map_cons, restingAt_of_value? ho, List.append_assoc]
    rfl

/-- The outer walk copies the orders of the levels it has left, best first. -/
theorem appendSide_spec : ∀ (B A : Ladder) (out : List RestingOrder),
    SideRepr p room side levels (A ++ B) → B.slots.length ≤ p.slots.size →
    appendSide p levels B.length out = .ok (out ++ B.slots.map p.restingAt) := by
  intro B
  induction B with
  | nil =>
    intro A out _ _
    exact congrArg _ (List.append_nil out).symm
  | cons l B ih =>
    obtain ⟨price, xs⟩ := l
    intro A out h hlen
    have hchain : Chain p side price xs := h.chain
    have hrank : levels.size - (B.length + 1) = A.length := by
      rw [h.size_eq, List.length_append, List.length_cons]
      omega
    rw [Ladder.slots_cons, List.length_append] at hlen
    have hlevel := appendLevel_spec xs (p.slots.size + 1) kNilIndex out (by omega)
      hchain.list.seg hchain.list.nil_notMem hchain.orders.holds
    rw [List.length_cons, appendSide, hrank, h.byRank, ok_bind, Level.head_ofList, hlevel, ok_bind,
      ih (A ++ [(price, xs)]) _ (by simpa using h) (by omega), Ladder.slots_cons, List.map_append,
      List.append_assoc]

end Snapshot

/-- A side has no more orders than the pool has slots. -/
theorem Repr.length_slots_le (h : b.Repr L vacant) (side : Side) :
    (L side).slots.length ≤ b.pool.slots.size := by
  have h1 := h.pool.length_add
  have h2 := (allSlots_perm L side).length_eq
  rw [List.length_append] at h2
  omega

/-- **The snapshot** shows the abstract book. -/
theorem snapshot_spec (h : b.Represents s) : b.snapshot = .ok s.orders := by
  obtain ⟨L, vacant, hrepr, hs⟩ := h
  have hbids := appendSide_spec (L .buy) [] [] (hrepr.sides .buy) (hrepr.length_slots_le .buy)
  have hasks := appendSide_spec (L .sell) [] ([] ++ (L .buy).slots.map b.pool.restingAt)
    (hrepr.sides .sell) (hrepr.length_slots_le .sell)
  rw [← (hrepr.sides .buy).size_eq] at hbids
  rw [← (hrepr.sides .sell).size_eq] at hasks
  rw [snapshot]
  show (appendSide b.pool (b.levels .buy) (b.levels .buy).size [] >>= fun out =>
    appendSide b.pool (b.levels .sell) (b.levels .sell).size out) = _
  rw [hbids, ok_bind, hasks, PriorityBook.orders, hs.resting, hs.resting, List.nil_append]

/-! ## Commands -/

/-- **Every command** does what it means. -/
theorem exec_spec (h : b.Represents s) (hok : s.Ok) (c : Command) :
    ∃ b', b.exec c = .ok (b', (s.exec counter32 c).2) ∧
      b'.Represents (s.exec counter32 c).1 := by
  rw [exec, PriorityBook.exec]
  cases c.kind with
  | limit =>
    obtain ⟨b', heq, hrep⟩ := addLimitOrder_spec h {} c.id c.side c.price c.qty c.account c.tif
    exact ⟨b', by simp only [heq]; rfl, hrep⟩
  | market =>
    obtain ⟨b', heq, hrep⟩ := addMarketOrder_spec h {} c.id c.side c.qty c.account
    exact ⟨b', by simp only [heq]; rfl, hrep⟩
  | cancel =>
    obtain ⟨b', heq, hrep⟩ := cancelOrder_spec h c.id
    exact ⟨b', by simp only [heq]; rfl, hrep⟩
  | modify =>
    obtain ⟨b', heq, hrep⟩ := modifyOrder_spec h hok c.id c.price c.qty
    exact ⟨b', by simp only [heq]; rfl, hrep⟩

/-! ## Runs -/

/-- A book that some commands make out of an empty one. -/
def Reachable (b : Book) : Prop :=
  ∃ capacity cmds replies, runM exec (new capacity) cmds = .ok (b, replies)

/-- **Every run** does what the abstract book says. -/
theorem run_spec (capacity : Index) (cmds : List Command) :
    ∃ b, runM exec (new capacity) cmds =
        .ok (b, (run (PriorityBook.exec counter32) (.new capacity.toNat) cmds).2) ∧
      b.Represents (run (PriorityBook.exec counter32) (.new capacity.toNat) cmds).1 ∧
      (run (PriorityBook.exec counter32) (.new capacity.toNat) cmds).1.Ok := by
  refine runM_eq_run_of_forall (N := cmds.length)
    (R := fun _ (b : Book) (s : PriorityBook) => b.Represents s ∧ s.Ok) ?_ cmds le_rfl
    ⟨represents_new capacity, PriorityBook.ok_new _⟩
  intro n b s c _ h
  obtain ⟨b', heq, hrep⟩ := exec_spec h.1 h.2 c
  exact ⟨b', heq, hrep, h.2.exec counter32 c⟩

/-- A reachable book represents an abstract book that is in order. -/
theorem Reachable.represents (h : b.Reachable) : ∃ s : PriorityBook, b.Represents s ∧ s.Ok := by
  obtain ⟨capacity, cmds, replies, hrun⟩ := h
  obtain ⟨b', heq, hrep⟩ := run_spec capacity cmds
  rw [hrun] at heq
  cases heq
  exact ⟨_, hrep⟩

/-- What a reachable book shows are the orders of an abstract book. -/
theorem Reachable.shows (h : b.Reachable) {l : List RestingOrder} (hl : b.snapshot = .ok l) :
    ∃ s : PriorityBook, b.Represents s ∧ s.Ok ∧ s.orders = l := by
  obtain ⟨s, hrep, hok⟩ := h.represents
  rw [snapshot_spec hrep, Except.ok.injEq] at hl
  exact ⟨s, hrep, hok, hl⟩

/-- **No command runs into a fault**: no assertion fails, no access is out of range or goes to
a free slot, no guarantee of a caller is broken. And an id that is found names a live order. -/
theorem commands_are_safe (capacity : Index) (cmds : List Command) :
    ∃ b replies, runM exec (new capacity) cmds = .ok (b, replies) ∧
      ∀ id h, b.idMap.find id = .ok (some h) → ∃ o, b.pool.get h = .ok (some o) := by
  obtain ⟨b, hrun, hrep, -⟩ := run_spec capacity cmds
  refine ⟨b, _, hrun, fun id h hfind => ?_⟩
  obtain ⟨L, vacant, hrepr, hs⟩ := hrep
  rcases find_cases hrepr hs id with ⟨hnone, -⟩ | ⟨i, o, -, ho, -, hsome, -⟩
  · rw [hfind, Except.ok.injEq] at hnone
    cases hnone
  · rw [hfind, Except.ok.injEq, Option.some_inj] at hsome
    rw [hsome]
    exact ⟨o, hrepr.pool.get_of_mem ho⟩

/-- The book that some commands make out of an empty one. -/
def after (capacity : Index) (cmds : List Command) : Book :=
  match runM exec (new capacity) cmds with
  | .ok (b, _) => b
  | .error _ => new capacity

/-- The book after some commands is reachable. -/
theorem reachable_after (capacity : Index) (cmds : List Command) :
    (after capacity cmds).Reachable := by
  obtain ⟨b, hrun, -⟩ := run_spec capacity cmds
  rw [after, hrun]
  exact ⟨capacity, cmds, _, hrun⟩

end Book

end MatchingEngine
