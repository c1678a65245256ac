import MatchingEngine.Book.PriceLevelsTheorems
import MatchingEngine.Library.Run

/-!
# One side's price levels — runs

A run of calls on a `PriceLevels`, with the writes made through the reference that the call
before returned. Next to it runs what the container is for: a map from prices to levels, kept as
a list in no particular order (`LevelMap`), in which the best level is one with no better one.
Both return the same as long as the caller keeps to the rules (`levels_are_a_sorted_map`).
-/

namespace MatchingEngine

open PriorityList Run

/-! ## Calls -/

/-- A call on the levels. -/
inductive LevelsCall where
  | getOrInsert (price : Price)
  | find (price : Price)
  | best
  | byRank (rank : ℕ)
  /-- Write the head and the tail through the reference that was just returned. -/
  | write (head tail : Index)
  | erase (price : Price)
  | popBest
deriving DecidableEq

/-- One call on the levels and the reference that the last call returned, if it did. The reply
is the level that the returned reference leads to. -/
def PriceLevels.call (B : Best) :
    PriceLevels × Option ℕ → LevelsCall → Checked ((PriceLevels × Option ℕ) × Option Level)
  | (p, _), .getOrInsert price => do
    let (p, pos) ← p.getOrInsert B price
    return ((p, some pos), some (← p.read pos))
  | (p, _), .find price => do
    match ← p.find B price with
    | some pos => return ((p, some pos), some (← p.read pos))
    | none => return ((p, none), none)
  | (p, _), .best => do
    let pos ← p.best
    return ((p, some pos), some (← p.read pos))
  | (p, _), .byRank rank => do return ((p, none), some (← p.byRank rank))
  | (p, current), .write head tail => do
    let pos ← orFault current .nullPointer
    let level ← p.read pos
    return ((p.write pos { level with head, tail }, current), none)
  | (p, _), .erase price => do return ((← p.erase B price, none), none)
  | (p, _), .popBest => do return ((← p.popBest, none), none)

/-! ## The map -/

/-- The levels in no particular order, and the price of the one that was just returned. -/
structure LevelMap where
  levels : List Level := []
  current : Option Price := none
deriving DecidableEq

namespace LevelMap

/-- The level at a price. -/
def level? (m : LevelMap) (price : Price) : Option Level := m.levels.find? fun l => l.price == price

/-- How many levels are better than `l`. -/
def better (B : Best) (m : LevelMap) (l : Level) : ℕ :=
  m.levels.countP fun l' => B.better l'.price l.price

/-- The level that as many others are better than. -/
def ranked (B : Best) (m : LevelMap) (rank : ℕ) : Option Level :=
  m.levels.find? fun l => m.better B l == rank

/-- A call on the map of levels, with the level it returns a reference to. -/
def call (B : Best) (m : LevelMap) : LevelsCall → LevelMap × Option Level
  | .getOrInsert price =>
    match m.level? price with
    | some l => ({ m with current := some price }, some l)
    | none =>
      (⟨⟨price, kNilIndex, kNilIndex⟩ :: m.levels, some price⟩,
        some ⟨price, kNilIndex, kNilIndex⟩)
  | .find price => ({ m with current := (m.level? price).map Level.price }, m.level? price)
  | .best => ({ m with current := (m.ranked B 0).map Level.price }, m.ranked B 0)
  | .byRank rank => ({ m with current := none }, m.ranked B rank)
  | .write head tail =>
    ({ m with
        levels := m.levels.map fun l =>
          if some l.price = m.current then { l with head, tail } else l },
      none)
  | .erase price => (⟨m.levels.filter fun l => l.price != price, none⟩, none)
  | .popBest => (⟨m.levels.filter fun l => m.better B l != 0, none⟩, none)

/-- The rules: there is room for a new price, what is erased is present, `best` and `pop_best`
find a level, a rank is below the size, and what is written through was just returned. -/
def Allowed (maxLevels : ℕ) (m : LevelMap) : LevelsCall → Prop
  | .getOrInsert price => m.level? price = none → m.levels.length < maxLevels
  | .find _ => True
  | .best => m.levels ≠ []
  | .byRank rank => rank < m.levels.length
  | .write _ _ => m.current.isSome
  | .erase price => (m.level? price).isSome
  | .popBest => m.levels ≠ []

instance (maxLevels : ℕ) (m : LevelMap) (c : LevelsCall) : Decidable (m.Allowed maxLevels c) :=
  match c with
  | .getOrInsert price =>
    inferInstanceAs (Decidable (m.level? price = none → m.levels.length < maxLevels))
  | .find _ => .isTrue trivial
  | .best => inferInstanceAs (Decidable (m.levels ≠ []))
  | .byRank rank => inferInstanceAs (Decidable (rank < m.levels.length))
  | .write _ _ => inferInstanceAs (Decidable (m.current.isSome = true))
  | .erase price => inferInstanceAs (Decidable ((m.level? price).isSome = true))
  | .popBest => inferInstanceAs (Decidable (m.levels ≠ []))

end LevelMap

/-! ## The array holds the map -/

namespace PriceLevels

variable {B : Best} {p : PriceLevels} {m : LevelMap} {as bs ls : List Level} {l : Level}
  {price : Price} {maxLevels : ℕ}

/-- The levels of a side, best first. -/
def Ladder (B : Best) (ls : List Level) : Prop :=
  ls.Pairwise fun a b => B.rank a.price < B.rank b.price

/-- A position in the array and the price of the level there. -/
def Points (ls : List Level) : Option ℕ → Option Price → Prop
  | none, none => True
  | some pos, some price => ∃ as l bs, ls = as ++ l :: bs ∧ pos = bs.length ∧ l.price = price
  | _, _ => False

/-- The live levels are those of the map, best first. -/
structure Holds (B : Best) (maxLevels : ℕ) (s : PriceLevels × Option ℕ) (m : LevelMap)
    (ls : List Level) : Prop where
  repr : s.1.Repr maxLevels ls
  ladder : Ladder B ls
  perm : ls.Perm m.levels
  points : Points ls s.2 m.current

namespace Ladder

/-- What is in front in a ladder is better. -/
theorem lt_of_mem_front (h : Ladder B (as ++ l :: bs)) :
    ∀ a ∈ as, B.rank a.price < B.rank l.price := fun a ha =>
  (List.pairwise_append.mp h).2.2 a ha l List.mem_cons_self

/-- What is behind in a ladder is worse. -/
theorem lt_of_mem_back (h : Ladder B (as ++ l :: bs)) : ∀ b ∈ bs, B.rank l.price < B.rank b.price :=
  fun _ hb => List.rel_of_pairwise_cons (List.pairwise_append.mp h).2.1 hb

/-- Levels of one price are one level. -/
theorem eq_of_price (h : Ladder B ls) {l l' : Level} (hl : l ∈ ls) (hl' : l' ∈ ls)
    (heq : l.price = l'.price) : l = l' := by
  have hkeys : (ls.map fun l => B.rank l.price).Nodup :=
    List.pairwise_map.mpr (h.imp fun hlt => hlt.ne)
  exact List.inj_on_of_nodup_map hkeys hl hl' (congrArg B.rank heq)

/-- The level at a price is found whatever the order of the levels. -/
theorem level?_eq (h : Ladder B ls) (hperm : ls.Perm m.levels) (hl : l ∈ ls) :
    m.level? l.price = some l := by
  apply find?_of_unique (hperm.mem_iff.mp hl)
  · exact beq_self_eq_true _
  · intro l' hl' heq
    exact h.eq_of_price (hperm.mem_iff.mpr hl') hl (beq_iff_eq.mp heq)

/-- A price has no level if no level has the price. -/
theorem level?_eq_none (hperm : ls.Perm m.levels) :
    m.level? price = none ↔ ∀ l ∈ ls, l.price ≠ price := by
  rw [LevelMap.level?, List.find?_eq_none]
  constructor
  · intro hno l hl heq
    exact hno l (hperm.mem_iff.mp hl) (beq_iff_eq.mpr heq)
  · intro hno l hl heq
    exact hno l (hperm.mem_iff.mpr hl) (beq_iff_eq.mp heq)

/-- The levels that are better than `l` are those in front of it. -/
theorem better_eq (h : Ladder B (as ++ l :: bs)) (hperm : (as ++ l :: bs).Perm m.levels) :
    m.better B l = as.length := by
  have hcount : (as ++ l :: bs).countP (fun l' => decide (B.rank l'.price < B.rank l.price)) =
      as.length := countP_lt h
  rw [LevelMap.better, ← hperm.countP_eq, ← hcount]
  apply List.countP_congr
  intro l' _
  rw [Best.better_iff, decide_eq_true_iff]

/-- The rank of a level is its place in the ladder. -/
theorem ranked_eq (h : Ladder B (as ++ l :: bs)) (hperm : (as ++ l :: bs).Perm m.levels) :
    m.ranked B as.length = some l := by
  apply find?_of_unique (hperm.mem_iff.mp (by simp))
  · rw [h.better_eq hperm]
    exact beq_self_eq_true _
  · intro l' hl' heq
    obtain ⟨as', bs', hsplit⟩ := List.append_of_mem (hperm.mem_iff.mpr hl')
    have hlen : as'.length = as.length := by
      have h' := hsplit ▸ h
      rw [← h'.better_eq (hsplit ▸ hperm)]
      exact beq_iff_eq.mp heq
    exact (List.cons.inj (List.append_inj_right hsplit hlen.symm)).1.symm

/-- The best level is the one that no other is better than. -/
theorem filter_better (h : Ladder B (l :: bs)) (hperm : (l :: bs).Perm m.levels) :
    (l :: bs).filter (fun l => m.better B l != 0) = bs := by
  have hbest : m.better B l = 0 := @better_eq B m [] bs l h hperm
  rw [List.filter_cons, hbest, if_neg (by decide), List.filter_eq_self]
  intro b hb
  obtain ⟨cs, ds, rfl⟩ := List.append_of_mem hb
  have hrank : m.better B b = (l :: cs).length := @better_eq B m (l :: cs) ds b h hperm
  rw [hrank]
  rfl

/-- Erasing a price takes its level out of the ladder. -/
theorem filter_price (h : Ladder B (as ++ l :: bs)) :
    (as ++ l :: bs).filter (fun l' => l'.price != l.price) = as ++ bs := by
  have hne : ∀ l' ∈ as ++ bs, (l'.price != l.price) = true := by
    intro l' hl'
    rw [bne_iff_ne]
    intro heq
    rcases List.mem_append.mp hl' with hl' | hl'
    · exact (h.lt_of_mem_front l' hl').ne (congrArg B.rank heq)
    · exact (h.lt_of_mem_back l' hl').ne' (congrArg B.rank heq)
  have has : as.filter (fun l' => l'.price != l.price) = as :=
    List.filter_eq_self.mpr fun l' hl' => hne l' (List.mem_append_left _ hl')
  have hbs : bs.filter (fun l' => l'.price != l.price) = bs :=
    List.filter_eq_self.mpr fun l' hl' => hne l' (List.mem_append_right _ hl')
  rw [List.filter_append, List.filter_cons, has, hbs]
  simp

/-- A level in its place is replaced by one of the same price. -/
theorem replace (h : Ladder B (as ++ l :: bs)) {l' : Level} (heq : l'.price = l.price) :
    Ladder B (as ++ l' :: bs) ∧
      (as ++ l :: bs).map (fun x => if some x.price = some l.price then
        { x with head := l'.head, tail := l'.tail } else x) = as ++ l' :: bs := by
  have hne : ∀ x ∈ as ++ bs, x.price ≠ l.price := by
    intro x hx heq
    rcases List.mem_append.mp hx with hx | hx
    · exact (h.lt_of_mem_front x hx).ne (congrArg B.rank heq)
    · exact (h.lt_of_mem_back x hx).ne' (congrArg B.rank heq)
  have hmap : ∀ xs : List Level, (∀ x ∈ xs, x.price ≠ l.price) →
      xs.map (fun x => if some x.price = some l.price then
        { x with head := l'.head, tail := l'.tail } else x) = xs := by
    intro xs hxs
    conv_rhs => rw [← List.map_id xs]
    apply List.map_congr_left
    intro x hx
    rw [if_neg fun e => hxs x hx (Option.some.inj e)]
    rfl
  constructor
  · rw [Ladder, List.pairwise_append, List.pairwise_cons] at h ⊢
    rw [heq]
    refine ⟨h.1, h.2.1, fun a ha b hb => ?_⟩
    rcases List.mem_cons.mp hb with rfl | hb
    · rw [heq]
      exact h.2.2 a ha l List.mem_cons_self
    · exact h.2.2 a ha b (List.mem_cons_of_mem _ hb)
  · rw [List.map_append, List.map_cons, if_pos rfl,
      hmap as fun x hx => hne x (List.mem_append_left _ hx),
      hmap bs fun x hx => hne x (List.mem_append_right _ hx), ← heq]

end Ladder

/-! ## One call -/

/-- One call does to the levels and to the map the same, and replies the same. -/
def Served (B : Best) (maxLevels : ℕ) (s : PriceLevels × Option ℕ) (m : LevelMap)
    (c : LevelsCall) : Prop :=
  ∃ s' ls', PriceLevels.call B s c = .ok (s', (m.call B c).2) ∧
    Holds B maxLevels s' (m.call B c).1 ls'

namespace Holds

variable {s : PriceLevels × Option ℕ}

/-- The place of a price: between two levels, or at its own. -/
theorem place (h : Holds B maxLevels s m ls) (price : Price) :
    ∃ as bs, (∀ a ∈ as, B.rank a.price < B.rank price) ∧ (∀ b ∈ bs, B.rank price < B.rank b.price) ∧
      (ls = as ++ bs ∧ m.level? price = none ∨
        ∃ l, l.price = price ∧ ls = as ++ l :: bs ∧ m.level? price = some l) := by
  obtain ⟨as, bs, has, hbs, heq | ⟨l, hl, heq⟩⟩ := split h.ladder (B.rank price)
  · refine ⟨as, bs, has, hbs, Or.inl ⟨heq, ?_⟩⟩
    rw [Ladder.level?_eq_none h.perm, heq]
    intro l hl hprice
    rcases List.mem_append.mp hl with hl | hl
    · exact (has l hl).ne (congrArg B.rank hprice)
    · exact (hbs l hl).ne' (congrArg B.rank hprice)
  · rw [Best.rank_inj] at hl
    refine ⟨as, bs, has, hbs, Or.inr ⟨l, hl, heq, ?_⟩⟩
    rw [← hl]
    apply h.ladder.level?_eq h.perm
    rw [heq]
    simp

/-- **Get or insert** finds the level of the price or makes an empty one. -/
theorem getOrInsert (h : Holds B maxLevels s m ls)
    (hc : m.Allowed maxLevels (.getOrInsert price)) :
    Served B maxLevels s m (.getOrInsert price) := by
  obtain ⟨as, bs, has, hbs, ⟨rfl, hno⟩ | ⟨l, rfl, rfl, hsome⟩⟩ := h.place price
  · have hroom := hc hno
    rw [← h.perm.length_eq, List.length_append] at hroom
    obtain ⟨p', heq, hrepr⟩ := h.repr.getOrInsert_new has hbs hroom
    have hladder : Ladder B (as ++ ⟨price, kNilIndex, kNilIndex⟩ :: bs) := by
      obtain ⟨h1, h2, h3⟩ := List.pairwise_append.mp h.ladder
      rw [Ladder, List.pairwise_append, List.pairwise_cons]
      refine ⟨h1, ⟨hbs, h2⟩, fun a ha b hb => ?_⟩
      rcases List.mem_cons.mp hb with rfl | hb
      · exact has a ha
      · exact h3 a ha b hb
    have hmap : m.call B (.getOrInsert price) =
        (⟨⟨price, kNilIndex, kNilIndex⟩ :: m.levels, some price⟩,
          some ⟨price, kNilIndex, kNilIndex⟩) := by
      simp only [LevelMap.call, hno]
    refine ⟨(p', some bs.length), as ++ ⟨price, kNilIndex, kNilIndex⟩ :: bs, ?_, ?_⟩
    · simp only [PriceLevels.call, heq, ok_bind, hrepr.read, hmap]
      rfl
    · rw [hmap]
      exact ⟨hrepr, hladder, List.perm_middle.trans (h.perm.cons _), as, _, bs, rfl, rfl, rfl⟩
  · have hmap : m.call B (.getOrInsert l.price) = ({ m with current := some l.price }, some l) := by
      simp only [LevelMap.call, hsome]
    refine ⟨(s.1, some bs.length), as ++ l :: bs, ?_, ?_⟩
    · simp only [PriceLevels.call, h.repr.getOrInsert_old has hbs, ok_bind, h.repr.read, hmap]
      rfl
    · rw [hmap]
      exact ⟨h.repr, h.ladder, h.perm, as, l, bs, rfl, rfl, rfl⟩

/-- **Find** finds the level of the price, if there is one. -/
theorem find (h : Holds B maxLevels s m ls) (price : Price) :
    Served B maxLevels s m (.find price) := by
  obtain ⟨as, bs, has, hbs, ⟨rfl, hno⟩ | ⟨l, rfl, rfl, hsome⟩⟩ := h.place price
  · refine ⟨(s.1, none), as ++ bs, ?_, ?_⟩
    · simp only [PriceLevels.call, h.repr.find_new has hbs, ok_bind, LevelMap.call, hno]
      rfl
    · rw [LevelMap.call, hno]
      exact ⟨h.repr, h.ladder, h.perm, trivial⟩
  · refine ⟨(s.1, some bs.length), as ++ l :: bs, ?_, ?_⟩
    · simp only [PriceLevels.call, h.repr.find_old has hbs, ok_bind, h.repr.read, LevelMap.call,
        hsome]
      rfl
    · rw [LevelMap.call, hsome]
      exact ⟨h.repr, h.ladder, h.perm, as, l, bs, rfl, rfl, rfl⟩

/-- A map with levels has a best one. -/
theorem ladder_ne_nil (h : Holds B maxLevels s m ls) (hc : m.levels ≠ []) :
    ∃ l bs, ls = l :: bs := by
  apply List.exists_cons_of_ne_nil
  intro hnil
  apply hc
  rw [← List.nil_perm, ← hnil]
  exact h.perm

/-- **Best** is the level of rank 0. -/
theorem best (h : Holds B maxLevels s m ls) (hc : m.levels ≠ []) :
    Served B maxLevels s m .best := by
  obtain ⟨l, bs, rfl⟩ := h.ladder_ne_nil hc
  have hrank : m.ranked B 0 = some l := @Ladder.ranked_eq B m [] bs l h.ladder h.perm
  have hrepr : s.1.Repr maxLevels ([] ++ l :: bs) := h.repr
  have hread := hrepr.read
  refine ⟨(s.1, some bs.length), l :: bs, ?_, ?_⟩
  · simp only [PriceLevels.call, h.repr.best, ok_bind, hread, LevelMap.call, hrank]
    rfl
  · rw [LevelMap.call, hrank]
    exact ⟨h.repr, h.ladder, h.perm, [], l, bs, rfl, rfl, rfl⟩

/-- The level of a rank has as many levels in front of it. -/
theorem at_rank (h : Holds B maxLevels s m ls) {rank : ℕ} (hc : rank < ls.length) :
    m.ranked B rank = some ls[rank] ∧ s.1.byRank rank = .ok ls[rank] := by
  have hsplit : ls.take rank ++ ls[rank] :: ls.drop (rank + 1) = ls := by
    rw [← List.drop_eq_getElem_cons hc, List.take_append_drop]
  have hlen : (ls.take rank).length = rank := List.length_take_of_le hc.le
  have h' : Holds B maxLevels s m (ls.take rank ++ ls[rank] :: ls.drop (rank + 1)) := by
    rw [hsplit]
    exact h
  have hrank := h'.ladder.ranked_eq h'.perm
  have hread := h'.repr.byRank
  rw [hlen] at hrank hread
  exact ⟨hrank, hread⟩

/-- **By rank** counts the better levels. -/
theorem byRank (h : Holds B maxLevels s m ls) {rank : ℕ} (hc : rank < m.levels.length) :
    Served B maxLevels s m (.byRank rank) := by
  rw [← h.perm.length_eq] at hc
  obtain ⟨hrank, hread⟩ := h.at_rank hc
  refine ⟨(s.1, none), ls, ?_, h.repr, h.ladder, h.perm, trivial⟩
  simp only [PriceLevels.call, hread, ok_bind, LevelMap.call, hrank]
  rfl

/-- **A write** changes the head and the tail of the level that was just returned. -/
theorem write (h : Holds B maxLevels s m ls) (head tail : Index) (hc : m.current.isSome) :
    Served B maxLevels s m (.write head tail) := by
  obtain ⟨p, current⟩ := s
  obtain ⟨levels, at?⟩ := m
  cases at? with
  | none => cases hc
  | some price =>
    cases current with
    | none => exact absurd h.points id
    | some pos =>
      obtain ⟨as, l, bs, rfl, rfl, rfl⟩ := h.points
      obtain ⟨hladder, hmap⟩ := h.ladder.replace (rfl : { l with head, tail : Level }.price = _)
      refine ⟨(p.write bs.length { l with head, tail }, some bs.length), _, ?_, h.repr.write,
        hladder, ?_, as, _, bs, rfl, rfl, rfl⟩
      · simp only [PriceLevels.call, orFault_some, ok_bind, h.repr.read]
        rfl
      · rw [← hmap]
        exact h.perm.map _

/-- **Erase** removes the level of the price. -/
theorem erase (h : Holds B maxLevels s m ls) (hc : (m.level? price).isSome) :
    Served B maxLevels s m (.erase price) := by
  obtain ⟨as, bs, has, hbs, ⟨rfl, hno⟩ | ⟨l, rfl, rfl, -⟩⟩ := h.place price
  · rw [hno] at hc
    cases hc
  · obtain ⟨p', heq, hrepr⟩ := h.repr.erase has hbs
    refine ⟨(p', none), as ++ bs, ?_, hrepr, ?_, ?_, trivial⟩
    · simp only [PriceLevels.call, heq, ok_bind]
      rfl
    · exact h.ladder.sublist (List.Sublist.append_left (List.sublist_cons_self l bs) as)
    · rw [← h.ladder.filter_price]
      exact h.perm.filter _

/-- **Pop best** removes the level that no other is better than. -/
theorem popBest (h : Holds B maxLevels s m ls) (hc : m.levels ≠ []) :
    Served B maxLevels s m .popBest := by
  obtain ⟨l, bs, rfl⟩ := h.ladder_ne_nil hc
  obtain ⟨p', heq, hrepr⟩ := h.repr.popBest
  refine ⟨(p', none), bs, ?_, hrepr, h.ladder.of_cons, ?_, trivial⟩
  · simp only [PriceLevels.call, heq, ok_bind]
    rfl
  · rw [← Ladder.filter_better h.ladder h.perm]
    exact h.perm.filter _

/-- **Every allowed call** is served. -/
theorem call (h : Holds B maxLevels s m ls) (c : LevelsCall) (hc : m.Allowed maxLevels c) :
    Served B maxLevels s m c := by
  cases c with
  | getOrInsert price => exact h.getOrInsert hc
  | find price => exact h.find price
  | best => exact h.best hc
  | byRank rank => exact h.byRank hc
  | write head tail => exact h.write head tail hc
  | erase price => exact h.erase hc
  | popBest => exact h.popBest hc

end Holds

/-! ## The claim of the container -/

/-- What `find` leads to. -/
def level? (B : Best) (p : PriceLevels) (price : Price) : Checked (Option Level) := do
  match ← p.find B price with
  | some pos => return some (← p.read pos)
  | none => return none

/-- The level of a price is the one of the map. -/
theorem Holds.level?_eq {s : PriceLevels × Option ℕ} (h : Holds B maxLevels s m ls)
    (price : Price) : s.1.level? B price = .ok (m.level? price) := by
  obtain ⟨as, bs, has, hbs, ⟨rfl, hno⟩ | ⟨l, rfl, rfl, hsome⟩⟩ := h.place price
  · simp only [PriceLevels.level?, h.repr.find_new has hbs, ok_bind, hno]
    rfl
  · simp only [PriceLevels.level?, h.repr.find_old has hbs, h.repr.read, ok_bind, hsome]
    rfl

/-- The price whose level a call is about. -/
def touched (B : Best) (m : LevelMap) : LevelsCall → Option Price
  | .getOrInsert price => some price
  | .find _ => none
  | .best => none
  | .byRank _ => none
  | .write _ _ => m.current
  | .erase price => some price
  | .popBest => (m.ranked B 0).map Level.price

/-- The level of a price is the one that has it. -/
theorem Holds.level?_eq_some {s : PriceLevels × Option ℕ} (h : Holds B maxLevels s m ls) :
    m.level? price = some l ↔ l ∈ m.levels ∧ l.price = price := by
  constructor
  · intro heq
    rw [LevelMap.level?, List.find?_eq_some_iff_append] at heq
    obtain ⟨hprice, as, bs, heq, -⟩ := heq
    rw [heq]
    exact ⟨by simp, beq_iff_eq.mp hprice⟩
  · rintro ⟨hmem, rfl⟩
    exact h.ladder.level?_eq h.perm (h.perm.mem_iff.mpr hmem)

/-- The levels at the other prices are the same after a call. -/
theorem Holds.mem_call {s : PriceLevels × Option ℕ} {c : LevelsCall}
    (h : Holds B maxLevels s m ls) (hother : touched B m c ≠ some l.price) :
    l ∈ (m.call B c).1.levels ↔ l ∈ m.levels := by
  cases c with
  | getOrInsert price =>
    have hne : l ≠ ⟨price, kNilIndex, kNilIndex⟩ := by
      rintro rfl
      exact hother rfl
    rw [LevelMap.call]
    split
    · rfl
    · rw [List.mem_cons, or_iff_right hne]
  | find price => rfl
  | best => rfl
  | byRank rank => rfl
  | write head tail =>
    have hkeep : ∀ x : Level, (if some x.price = m.current then { x with head, tail } else x) = l ↔
        x = l := by
      intro x
      constructor
      · rintro rfl
        split at hother
        · next hx => exact absurd hx.symm hother
        · next hx => rw [if_neg hx]
      · rintro rfl
        exact if_neg fun hx => hother hx.symm
    show l ∈ m.levels.map _ ↔ _
    rw [List.mem_map]
    constructor
    · rintro ⟨x, hx, heq⟩
      rwa [← (hkeep x).mp heq]
    · exact fun hl => ⟨l, hl, (hkeep l).mpr rfl⟩
  | erase price =>
    have hne : (l.price != price) = true :=
      bne_iff_ne.mpr fun heq => hother (congrArg some heq.symm)
    show l ∈ m.levels.filter _ ↔ _
    rw [List.mem_filter, hne, and_iff_left rfl]
  | popBest =>
    show l ∈ m.levels.filter _ ↔ _
    rw [List.mem_filter, and_iff_left_iff_imp, bne_iff_ne]
    intro hl hbest
    obtain ⟨as, bs, rfl⟩ := List.append_of_mem (h.perm.mem_iff.mpr hl)
    rw [h.ladder.better_eq h.perm] at hbest
    have hrank := h.ladder.ranked_eq h.perm
    rw [hbest] at hrank
    apply hother
    rw [touched, hrank]
    rfl

/-- **Frame**: a call changes no level but the one it is about. -/
theorem Holds.frame {s s' : PriceLevels × Option ℕ} {ls' : List Level} {c : LevelsCall}
    (h : Holds B maxLevels s m ls) (h' : Holds B maxLevels s' (m.call B c).1 ls')
    (hother : touched B m c ≠ some price) : s'.1.level? B price = s.1.level? B price := by
  rw [h'.level?_eq, h.level?_eq]
  congr 1
  ext l
  rw [h'.level?_eq_some, h.level?_eq_some]
  constructor
  · rintro ⟨hl, rfl⟩
    exact ⟨(h.mem_call hother).mp hl, rfl⟩
  · rintro ⟨hl, rfl⟩
    exact ⟨(h.mem_call hother).mpr hl, rfl⟩

/-- New levels hold an empty map. -/
theorem holds_new (B : Best) (maxLevels : ℕ) : Holds B maxLevels (new maxLevels, none) {} [] where
  repr := repr_new maxLevels
  ladder := .nil
  perm := .nil
  points := trivial

/-- `best` is `by_rank` of rank 0, also in that both assert that there is a level. -/
theorem best_eq_byRank (p : PriceLevels) : (p.best >>= p.read) = p.byRank 0 := by
  rw [best, byRank]
  by_cases hpos : 0 < p.count
  · rw [require_of hpos]
    rfl
  · rw [require, if_neg hpos]
    rfl

/-- **`PriceLevels` is a best-first sorted map**: every call replies what the map replies, `find`
leads to the level of the map, the ranks go through all levels from the best to the worst, and a
call changes no level but the one it is about. -/
theorem levels_are_a_sorted_map (B : Best) (maxLevels : ℕ) (calls : List LevelsCall)
    (hallowed : KeepsTo (LevelMap.Allowed maxLevels) (LevelMap.call B) {} calls) :
    ∃ (s : PriceLevels × Option ℕ) (m : LevelMap) (ls : List Level),
      runM (call B) (new maxLevels, none) calls = .ok (s, (run (LevelMap.call B) {} calls).2) ∧
      m = (run (LevelMap.call B) {} calls).1 ∧
      (∀ price, s.1.level? B price = .ok (m.level? price)) ∧
      ls.Perm m.levels ∧ (ls.Pairwise fun a b => B.better a.price b.price = true) ∧
      s.1.size = ls.length ∧ (∀ rank l, ls[rank]? = some l → s.1.byRank rank = .ok l) ∧
      (s.1.best >>= s.1.read) = s.1.byRank 0 ∧
      ∀ c, m.Allowed maxLevels c → ∃ s', call B s c = .ok (s', (m.call B c).2) ∧
        ∀ price, touched B m c ≠ some price → s'.1.level? B price = s.1.level? B price := by
  have hstep : ∀ s m c, (∃ ls, Holds B maxLevels s m ls) → LevelMap.Allowed maxLevels m c →
      ∃ s', call B s c = .ok (s', (m.call B c).2) ∧
        ∃ ls, Holds B maxLevels s' (m.call B c).1 ls := by
    intro s m c h hc
    obtain ⟨ls, h⟩ := h
    obtain ⟨s', ls', heq, h'⟩ := h.call c hc
    exact ⟨s', heq, ls', h'⟩
  obtain ⟨s, hrun, ls, h⟩ :=
    runM_eq_run_of_keepsTo hstep calls _ _ ⟨[], holds_new B maxLevels⟩ hallowed
  refine ⟨s, _, ls, hrun, rfl, h.level?_eq, h.perm, ?_, h.repr.count, fun rank l hl => ?_,
    best_eq_byRank s.1, fun c hc => ?_⟩
  · exact h.ladder.imp Best.better_iff.mpr
  · obtain ⟨hlt, rfl⟩ := List.getElem?_eq_some_iff.mp hl
    exact (h.at_rank hlt).2
  · obtain ⟨s', ls', heq, h'⟩ := h.call c hc
    exact ⟨s', heq, fun price hother => h.frame h' hother⟩

/-- Three levels in an array for three, at the ends of the range of prices and between them. -/
theorem levels_are_a_sorted_map_bids :
    ∃ (s : PriceLevels × Option ℕ) (m : LevelMap) (ls : List Level),
      runM (call .high) (new 3, none) [.getOrInsert 5, .write 1 2, .getOrInsert Int64.maxValue,
          .getOrInsert Int64.minValue, .find 5, .popBest, .getOrInsert 5, .write 3 3, .erase 5] =
        .ok (s, (run (LevelMap.call .high) {} [.getOrInsert 5, .write 1 2,
          .getOrInsert Int64.maxValue, .getOrInsert Int64.minValue, .find 5, .popBest,
          .getOrInsert 5, .write 3 3, .erase 5]).2) ∧
      m = (run (LevelMap.call .high) {} [.getOrInsert 5, .write 1 2, .getOrInsert Int64.maxValue,
        .getOrInsert Int64.minValue, .find 5, .popBest, .getOrInsert 5, .write 3 3, .erase 5]).1 ∧
      (∀ price, s.1.level? .high price = .ok (m.level? price)) ∧
      ls.Perm m.levels ∧ (ls.Pairwise fun a b => Best.better .high a.price b.price = true) ∧
      s.1.size = ls.length ∧ (∀ rank l, ls[rank]? = some l → s.1.byRank rank = .ok l) ∧
      (s.1.best >>= s.1.read) = s.1.byRank 0 ∧
      ∀ c, m.Allowed 3 c → ∃ s', call .high s c = .ok (s', (m.call .high c).2) ∧
        ∀ price, touched .high m c ≠ some price →
          s'.1.level? .high price = s.1.level? .high price := by
  apply levels_are_a_sorted_map
  exact ⟨by decide, by decide, by decide, by decide, trivial, by decide, by decide, by decide,
    by decide, trivial⟩

end PriceLevels

end MatchingEngine
