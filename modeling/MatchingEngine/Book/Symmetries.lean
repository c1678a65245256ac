import MatchingEngine.Book.Observed
import MatchingEngine.Spec.Symmetry

/-!
# Renaming and mirroring

Two families of symmetries, and what they say about the runs of a book: injective renamings
of ids and accounts (`renamed_runs`), and the mirror of buy and sell (`mirrored_runs`).
-/

namespace MatchingEngine

open Run

/-- Rename order ids by `r` and accounts by `a`. -/
def renameBy (r : OrderId → OrderId) (a : Account → Account) (hr : Function.Injective r)
    (ha : Function.Injective a) : Symmetry where
  side side := side
  price price := price
  orderId := r
  account := a
  side_opposite _ := rfl
  side_side _ := rfl
  rank_le _ _ _ := Iff.rfl
  orderId_injective := hr
  account_injective := ha

/-- `-1 - p` does not wrap around. -/
theorem toInt_mirror (p : Price) : (-1 - p).toInt = -1 - p.toInt := by
  have hlo := p.le_toInt
  have hhi := p.toInt_lt
  have hone : (-1 : Price).toInt = -1 := by decide
  rw [Int64.toInt_sub, hone]
  exact Int.bmod_eq_of_le (by omega) (by omega)

/-- Buy for sell and sell for buy, and every price `p` at `-1 - p`. -/
def mirror : Symmetry where
  side := Side.opposite
  price p := -1 - p
  orderId id := id
  account account := account
  side_opposite _ := rfl
  side_side := Side.opposite_opposite
  rank_le side p q := by
    have hp := toInt_mirror p
    have hq := toInt_mirror q
    cases side with
    | buy =>
      show (-1 - p).toInt ≤ (-1 - q).toInt ↔ -p.toInt ≤ -q.toInt
      omega
    | sell =>
      show -(-1 - p).toInt ≤ -(-1 - q).toInt ↔ p.toInt ≤ q.toInt
      omega
  orderId_injective := Function.injective_id
  account_injective := Function.injective_id

namespace Symmetry

variable (σ : Symmetry)

/-- A new book is symmetric. -/
theorem book_new (capacity : ℕ) : σ.book (.new capacity) = .new capacity := rfl

/-- A run on renamed commands shows the same, renamed: `shown` says how a snapshot is. -/
theorem run_symmetry {shown : List RestingOrder → List RestingOrder}
    (hshown : ∀ s : PriorityBook, s.Ok → (σ.book s).orders = shown s.orders) (capacity : Index)
    (cmds : List Command) :
    ∃ b b' log, runM Book.step (Book.new capacity) cmds = .ok (b, log) ∧
      runM Book.step (Book.new capacity) (cmds.map σ.command) =
        .ok (b', log.map fun p => (σ.reply p.1, shown p.2)) := by
  obtain ⟨b, hrun, -⟩ := Book.run_step_spec (Book.represents_new capacity)
    (PriorityBook.ok_new _) cmds
  obtain ⟨b', hrun', -⟩ := Book.run_step_spec (Book.represents_new capacity)
    (PriorityBook.ok_new _) (cmds.map σ.command)
  refine ⟨b, b', _, hrun, ?_⟩
  have hstep : ∀ (s : PriorityBook) (c : Command), s.Ok →
      (σ.book s).observe (σ.command c) = (σ.book (s.observe c).1,
        σ.reply (s.observe c).2.1, shown (s.observe c).2.2) ∧ (s.observe c).1.Ok := by
    intro s c hok
    have hok' : (s.exec counter32 c).1.Ok := hok.exec counter32 c
    refine ⟨?_, hok'⟩
    unfold PriorityBook.observe
    rw [σ.exec_symmetry hok]
    dsimp only
    rw [hshown _ hok']
  have hmap := run_map (P := PriorityBook.Ok)
    (k := fun p : Observed => (σ.reply p.1, shown p.2)) hstep cmds (.new capacity.toNat)
    (PriorityBook.ok_new _)
  rw [σ.book_new] at hmap
  rw [hrun', hmap]

end Symmetry

namespace Book

/-- **Outputs are equivariant under renaming** of ids and accounts. -/
theorem renamed_runs (capacity : Index) (cmds : List Command) (r : OrderId → OrderId)
    (a : Account → Account) (hr : Function.Injective r) (ha : Function.Injective a) :
    ∃ b b' log, runM step (new capacity) cmds = .ok (b, log) ∧
      runM step (new capacity) (cmds.map (renameBy r a hr ha).command) =
        .ok (b', log.map fun p =>
          ((renameBy r a hr ha).reply p.1, p.2.map (renameBy r a hr ha).order)) := by
  apply (renameBy r a hr ha).run_symmetry
  intro s _
  unfold PriorityBook.orders
  rw [List.map_append]
  rfl

/-- Adding 1 to an id, round the 64-bit numbers, is injective. -/
theorem succ_orderId_injective : Function.Injective fun id : OrderId => id + 1 :=
  fun _ _ => (UInt64.add_left_inj 1).mp

/-- Adding 1 to an account, round the 32-bit numbers, is injective. -/
theorem succ_account_injective : Function.Injective fun account : Account => account + 1 :=
  fun _ _ => (UInt32.add_left_inj 1).mp

/-- A trade, with all ids and accounts moved up by one. -/
theorem renamed_runs_succ : ∃ b b' log,
    runM step (new 2) [limitCommand 1 .sell 100 5 1, limitCommand 2 .buy 101 3 2] = .ok (b, log) ∧
    runM step (new 2) [limitCommand 2 .sell 100 5 2, limitCommand 3 .buy 101 3 3] =
      .ok (b', log.map fun p =>
        ((renameBy _ _ succ_orderId_injective succ_account_injective).reply p.1,
          p.2.map (renameBy _ _ succ_orderId_injective succ_account_injective).order)) :=
  renamed_runs 2 [limitCommand 1 .sell 100 5 1, limitCommand 2 .buy 101 3 2] _ _
    succ_orderId_injective succ_account_injective

/-- What is seen of a command and of its mirror image. -/
structure Mirrored (p p' : Observed) : Prop where
  reply : p'.1 = mirror.reply p.1
  bids : ofSide .buy p'.2 = (ofSide .sell p.2).map mirror.order
  asks : ofSide .sell p'.2 = (ofSide .buy p.2).map mirror.order

/-- The mirror image of a snapshot: bids for asks, in their order. -/
def mirrorShown (l : List RestingOrder) : List RestingOrder :=
  (ofSide .sell l).map mirror.order ++ (ofSide .buy l).map mirror.order

/-- Orders of one side stand on the other side in the mirror. -/
theorem ofSide_map_mirror (side side' : Side) (l : List RestingOrder) :
    ofSide side ((ofSide side' l).map mirror.order) =
      if side = side'.opposite then (ofSide side' l).map mirror.order else [] := by
  have hall : ∀ o ∈ (ofSide side' l).map mirror.order, o.side = side'.opposite := by
    intro o ho
    obtain ⟨o', ho', rfl⟩ := List.mem_map.mp ho
    have hside : o'.side = side' := beq_iff_eq.mp (List.mem_filter.mp ho').2
    show o'.side.opposite = side'.opposite
    rw [hside]
  unfold ofSide at hall ⊢
  split
  · next heq =>
    rw [List.filter_eq_self]
    intro o ho
    rw [hall o ho, heq, beq_self_eq_true]
  · next hne =>
    rw [List.filter_eq_nil_iff]
    intro o ho heq
    exact hne ((beq_iff_eq.mp heq).symm.trans (hall o ho))

/-- A side of the mirrored snapshot is the mirrored other side. -/
theorem ofSide_mirrorShown (side : Side) (l : List RestingOrder) :
    ofSide side (mirrorShown l) = (ofSide side.opposite l).map mirror.order := by
  have happend : ofSide side (mirrorShown l) = ofSide side ((ofSide .sell l).map mirror.order) ++
      ofSide side ((ofSide .buy l).map mirror.order) := List.filter_append ..
  rw [happend, ofSide_map_mirror, ofSide_map_mirror]
  cases side with
  | buy => exact List.append_nil _
  | sell => exact List.nil_append _

/-- **Buy and sell are mirror images**, command by command. -/
theorem mirrored_runs (capacity : Index) (cmds : List Command) :
    ∃ b b' log log', runM step (new capacity) cmds = .ok (b, log) ∧
      runM step (new capacity) (cmds.map mirror.command) = .ok (b', log') ∧
      List.Forall₂ Mirrored log log' := by
  have hshown : ∀ s : PriorityBook, s.Ok → (mirror.book s).orders = mirrorShown s.orders := by
    intro s hok
    unfold mirrorShown
    rw [PriorityBook.ofSide_orders hok, PriorityBook.ofSide_orders hok]
    rfl
  obtain ⟨b, b', log, hrun, hrun'⟩ := mirror.run_symmetry hshown capacity cmds
  refine ⟨b, b', log, _, hrun, hrun', List.forall₂_map_right_iff.mpr (List.forall₂_same.mpr ?_)⟩
  intro p _
  exact ⟨rfl, ofSide_mirrorShown .buy p.2, ofSide_mirrorShown .sell p.2⟩

end Book

end MatchingEngine
