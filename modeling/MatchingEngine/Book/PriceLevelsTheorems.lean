import MatchingEngine.Book.PriceLevels
import MatchingEngine.Library.PriorityList

/-!
# One side's price levels — a best-first list

The array is sorted worst to best, so that the best level can be popped from its end.
`PriceLevels.Repr p room ls` says that the live levels are `ls`, best first, and that the
array has `room` elements. A position in the array counts the levels that are worse.

Prices are compared through `Best.rank`: a better price has a lower rank.
-/

namespace MatchingEngine

open PriorityList

namespace Best

variable {B : Best} {a b : Price}

/-- The place of a price on the axis that starts at the best end. -/
def rank : Best → Price → ℤ
  | .high, price => -price.toInt
  | .low, price => price.toInt

/-- Better is of a lower rank. -/
theorem better_iff : B.better a b = true ↔ B.rank a < B.rank b := by
  cases B with
  | high => simp [better, rank, Int64.lt_iff_toInt_lt]
  | low => simp [better, rank, Int64.lt_iff_toInt_lt]

/-- A price has a rank of its own. -/
theorem rank_inj : B.rank a = B.rank b ↔ a = b := by
  cases B with
  | high => simp [rank, Int64.toInt_inj]
  | low => simp [rank, Int64.toInt_inj]

end Best

namespace PriceLevels

variable {B : Best} {p : PriceLevels} {room : ℕ} {as bs ls : List Level} {l l' : Level}
  {price : Price}

/-- The live levels are `ls`, best first, and the array has `room` elements. -/
structure Repr (p : PriceLevels) (room : ℕ) (ls : List Level) : Prop where
  live : ∃ stale, p.levels = ls.reverse ++ stale
  count : p.count = ls.length
  room : p.levels.length = room

/-- A new array holds no levels. -/
theorem repr_new (maxLevels : ℕ) : (new maxLevels).Repr maxLevels [] :=
  ⟨⟨_, rfl⟩, rfl, List.length_replicate ..⟩

namespace Repr

theorem empty_iff (h : p.Repr room ls) : p.empty = true ↔ ls = [] := by
  rw [empty, h.count, beq_iff_eq, List.length_eq_zero_iff]

/-- The levels are held from worst to best. -/
theorem take_count (h : p.Repr room ls) : p.levels.take p.count = ls.reverse := by
  obtain ⟨stale, hlive⟩ := h.live
  rw [hlive]
  exact List.take_left' (by rw [List.length_reverse, h.count])

/-- The level in front of the levels `bs` is at the position `bs.length`. -/
theorem read (h : p.Repr room (as ++ l :: bs)) : p.read bs.length = .ok l := by
  obtain ⟨stale, hlive⟩ := h.live
  rw [PriceLevels.read, hlive]
  simp

/-- The best level is the last one. -/
theorem best (h : p.Repr room (l :: bs)) : p.best = .ok bs.length := by
  have hpos : 0 < p.count := by rw [h.count, List.length_cons]; omega
  rw [PriceLevels.best, require_of hpos, ok_bind, h.count, List.length_cons]
  rfl

/-- `pop_best` drops the best level. -/
theorem popBest (h : p.Repr room (l :: bs)) : ∃ p', p.popBest = .ok p' ∧ p'.Repr room bs := by
  have hpos : 0 < p.count := by rw [h.count, List.length_cons]; omega
  obtain ⟨stale, hlive⟩ := h.live
  refine ⟨{ p with count := p.count - 1 }, ?_, ⟨⟨l :: stale, ?_⟩, ?_, h.room⟩⟩
  · rw [PriceLevels.popBest, require_of hpos]
    rfl
  · rw [hlive, List.reverse_cons, List.append_assoc]
    rfl
  · show p.count - 1 = bs.length
    rw [h.count, List.length_cons]
    omega

/-- A write replaces one level. -/
theorem write (h : p.Repr room (as ++ l :: bs)) :
    (p.write bs.length l').Repr room (as ++ l' :: bs) := by
  obtain ⟨stale, hlive⟩ := h.live
  refine ⟨⟨stale, ?_⟩, ?_, ?_⟩
  · simp [PriceLevels.write, hlive]
  · show p.count = _
    rw [h.count, List.length_append, List.length_append, List.length_cons, List.length_cons]
  · rw [PriceLevels.write, List.length_set, h.room]

/-- A level is found by its rank. -/
theorem byRank (h : p.Repr room (as ++ l :: bs)) : p.byRank as.length = .ok l := by
  have hc : p.count = as.length + (bs.length + 1) := by
    rw [h.count, List.length_append, List.length_cons]
  rw [PriceLevels.byRank, require_of (by omega), ok_bind]
  have hpos : p.count - 1 - as.length = bs.length := by omega
  rw [hpos, h.read]

/-! ## Searching -/

/-- The search ends behind the levels that are worse. -/
theorem lower (h : p.Repr room (as ++ bs)) (has : ∀ a ∈ as, B.rank a.price ≤ B.rank price)
    (hbs : ∀ b ∈ bs, B.rank price < B.rank b.price) : p.lower B price = bs.length := by
  have hworse : ∀ b ∈ bs.reverse, (!B.better price b.price) = false := fun b hb => by
    rw [Best.better_iff.mpr (hbs b (List.mem_reverse.mp hb))]
    rfl
  have hskip : bs.reverse.findIdx (fun b => !B.better price b.price) = bs.reverse.length :=
    List.findIdx_eq_length.mpr hworse
  rw [PriceLevels.lower, lowerBound, h.take_count, List.reverse_append, List.findIdx_append, hskip,
    if_neg (lt_irrefl _), List.length_reverse]
  -- the first level of `as` from the worse end is not worse
  suffices as.reverse.findIdx (fun a => !B.better price a.price) = 0 by rw [this, Nat.zero_add]
  rcases List.eq_nil_or_concat as with rfl | ⟨as', a, rfl⟩
  · rfl
  · have hnot : B.better price a.price = false := by
      rw [← Bool.not_eq_true, Best.better_iff, not_lt]
      exact has a (by simp)
    rw [List.concat_eq_append, List.reverse_append]
    simp [List.findIdx_cons, hnot]

/-- The level in front of `bs` has the price that is searched for. -/
theorem isLevelAt_old (h : p.Repr room (as ++ l :: bs)) :
    p.isLevelAt bs.length l.price = .ok true := by
  have hne : bs.length ≠ p.count := by
    rw [h.count, List.length_append, List.length_cons]
    omega
  rw [isLevelAt, if_neg hne, h.read]
  simp

/-- The search for a price without a level ends at the end or at a better level. -/
theorem isLevelAt_new (h : p.Repr room (as ++ bs))
    (has : ∀ a ∈ as, B.rank a.price < B.rank price) :
    p.isLevelAt bs.length price = .ok false := by
  rw [isLevelAt]
  rcases List.eq_nil_or_concat as with rfl | ⟨as', a, rfl⟩
  · have he : bs.length = p.count := h.count.symm
    rw [if_pos he]
    rfl
  · rw [List.concat_eq_append, List.append_assoc] at h
    replace h : p.Repr room (as' ++ a :: bs) := h
    have hne : bs.length ≠ p.count := by
      rw [h.count, List.length_append, List.length_cons]
      omega
    have hpne : a.price ≠ price := fun e => by
      have := has a (by simp)
      rw [e] at this
      exact lt_irrefl _ this
    rw [if_neg hne, h.read]
    simp [hpne]

/-- The search for a price that is there ends at its level. -/
theorem lower_old (h : p.Repr room (as ++ l :: bs))
    (has : ∀ a ∈ as, B.rank a.price < B.rank l.price)
    (hbs : ∀ b ∈ bs, B.rank l.price < B.rank b.price) : p.lower B l.price = bs.length := by
  have h' : p.Repr room ((as ++ [l]) ++ bs) := by simpa using h
  refine h'.lower (fun a ha => ?_) hbs
  rcases List.mem_append.mp ha with ha | ha
  · exact (has a ha).le
  · rw [List.mem_singleton.mp ha]

/-- A price that is there is found. -/
theorem find_old (h : p.Repr room (as ++ l :: bs))
    (has : ∀ a ∈ as, B.rank a.price < B.rank l.price)
    (hbs : ∀ b ∈ bs, B.rank l.price < B.rank b.price) :
    p.find B l.price = .ok (some bs.length) := by
  simp only [PriceLevels.find, h.lower_old has hbs, h.isLevelAt_old, ok_bind, if_true]
  rfl

/-- A price that is not there is not found. -/
theorem find_new (h : p.Repr room (as ++ bs))
    (has : ∀ a ∈ as, B.rank a.price < B.rank price)
    (hbs : ∀ b ∈ bs, B.rank price < B.rank b.price) : p.find B price = .ok none := by
  simp only [PriceLevels.find, h.lower (fun a ha => (has a ha).le) hbs, h.isLevelAt_new has,
    ok_bind]
  rfl

/-- A level is found by its price. -/
theorem atPrice (h : p.Repr room (as ++ l :: bs))
    (has : ∀ a ∈ as, B.rank a.price < B.rank l.price)
    (hbs : ∀ b ∈ bs, B.rank l.price < B.rank b.price) :
    p.atPrice B l.price = .ok bs.length := by
  rw [PriceLevels.atPrice, h.find_old has hbs]
  rfl

/-! ## Inserting and erasing -/

/-- **Get or insert** of a price that has a level. -/
theorem getOrInsert_old (h : p.Repr room (as ++ l :: bs))
    (has : ∀ a ∈ as, B.rank a.price < B.rank l.price)
    (hbs : ∀ b ∈ bs, B.rank l.price < B.rank b.price) :
    p.getOrInsert B l.price = .ok (p, bs.length) := by
  simp only [PriceLevels.getOrInsert, h.lower_old has hbs, h.isLevelAt_old, ok_bind, if_true]
  rfl

/-- **Get or insert** of a price that has none makes an empty level in its place. -/
theorem getOrInsert_new (h : p.Repr room (as ++ bs))
    (has : ∀ a ∈ as, B.rank a.price < B.rank price)
    (hbs : ∀ b ∈ bs, B.rank price < B.rank b.price) (hroom : as.length + bs.length < room) :
    ∃ p', p.getOrInsert B price = .ok (p', bs.length) ∧
      p'.Repr room (as ++ ⟨price, kNilIndex, kNilIndex⟩ :: bs) := by
  have hlow : p.lower B price = bs.length := h.lower (fun a ha => (has a ha).le) hbs
  have hc : p.count = as.length + bs.length := by rw [h.count, List.length_append]
  obtain ⟨stale, hlive⟩ := h.live
  have hlen := h.room
  rw [hlive, List.length_append, List.length_reverse, List.length_append] at hlen
  -- there is a stale element behind the live ones, which the shift overwrites
  obtain ⟨z, stale, rfl⟩ := List.exists_cons_of_length_pos (by omega : 0 < stale.length)
  have hlevels : p.levels = bs.reverse ++ (as.reverse ++ z :: stale) := by
    rw [hlive, List.reverse_append, List.append_assoc]
  have hshift : (copyBackward p.levels bs.length p.count (p.count + 1)).set bs.length
      ⟨price, kNilIndex, kNilIndex⟩
        = bs.reverse ++ ⟨price, kNilIndex, kNilIndex⟩ :: (as.reverse ++ stale) := by
    obtain ⟨y, ys, hy⟩ := List.exists_cons_of_ne_nil
      (by simp : as.reverse ++ z :: stale ≠ [])
    have h1 : p.count + 1 - (p.count - bs.length) = bs.reverse.length + 1 := by
      rw [List.length_reverse]
      omega
    have h2 : p.levels.take (bs.reverse.length + 1) = bs.reverse ++ [y] := by
      rw [hlevels, hy, List.take_length_add_append]
      rfl
    have h3 : (p.levels.take p.count).drop bs.length = as.reverse := by
      rw [h.take_count, List.reverse_append]
      exact List.drop_left' (List.length_reverse ..)
    have h4 : p.levels.drop (p.count + 1) = stale := by
      rw [hlive, List.append_cons]
      refine List.drop_left' ?_
      rw [List.length_append, List.length_reverse, List.length_append, hc]
      rfl
    rw [copyBackward, h1, h2, h3, h4]
    simp
  refine ⟨⟨(copyBackward p.levels bs.length p.count (p.count + 1)).set bs.length
    ⟨price, kNilIndex, kNilIndex⟩, p.count + 1⟩, ?_, ⟨⟨stale, ?_⟩, ?_, ?_⟩⟩
  · simp only [PriceLevels.getOrInsert, hlow, h.isLevelAt_new has, ok_bind]
    rw [require_of (by rw [h.room]; omega)]
    rfl
  · show (copyBackward p.levels bs.length p.count (p.count + 1)).set bs.length _ = _
    rw [hshift]
    simp
  · show p.count + 1 = _
    rw [hc, List.length_append, List.length_cons]
    omega
  · show ((copyBackward p.levels bs.length p.count (p.count + 1)).set bs.length _).length = _
    rw [hshift]
    simp at hlen ⊢
    omega

/-- **Erase** takes the level out. -/
theorem erase (h : p.Repr room (as ++ l :: bs))
    (has : ∀ a ∈ as, B.rank a.price < B.rank l.price)
    (hbs : ∀ b ∈ bs, B.rank l.price < B.rank b.price) :
    ∃ p', p.erase B l.price = .ok p' ∧ p'.Repr room (as ++ bs) := by
  have hc : p.count = as.length + bs.length + 1 := by
    rw [h.count, List.length_append, List.length_cons]
    omega
  obtain ⟨stale, hlive⟩ := h.live
  have hlevels : p.levels = bs.reverse ++ (l :: as.reverse ++ stale) := by
    rw [hlive, List.reverse_append, List.reverse_cons]
    simp
  have hshift : ∃ z, copyForward p.levels (bs.length + 1) p.count bs.length
      = bs.reverse ++ as.reverse ++ z :: stale := by
    have h1 : p.levels.take bs.length = bs.reverse := by
      rw [hlevels]
      exact List.take_left' (List.length_reverse ..)
    have h2 : (p.levels.take p.count).drop (bs.length + 1) = as.reverse := by
      have hsplit : (as ++ l :: bs).reverse = (bs.reverse ++ [l]) ++ as.reverse := by simp
      rw [h.take_count, hsplit]
      exact List.drop_left' (by simp)
    have h3 : ∃ z, p.levels.drop (bs.length + (p.count - (bs.length + 1))) = z :: stale := by
      -- one element more than the live ones is left
      have hle : bs.length + (p.count - (bs.length + 1)) + 1 = (as ++ l :: bs).reverse.length := by
        rw [List.length_reverse, ← h.count]
        omega
      rw [hlive, List.drop_append_of_le_length (by omega)]
      obtain ⟨z, hz⟩ := List.length_eq_one_iff.mp
        (show ((as ++ l :: bs).reverse.drop (bs.length + (p.count - (bs.length + 1)))).length = 1 by
          rw [List.length_drop]
          omega)
      exact ⟨z, by rw [hz]; rfl⟩
    obtain ⟨z, h3⟩ := h3
    exact ⟨z, by rw [copyForward, h1, h2, h3]⟩
  obtain ⟨z, hz⟩ := hshift
  have hlen := h.room
  rw [hlevels] at hlen
  refine ⟨⟨copyForward p.levels (bs.length + 1) p.count bs.length, p.count - 1⟩, ?_,
    ⟨⟨z :: stale, ?_⟩, ?_, ?_⟩⟩
  · rw [PriceLevels.erase, h.find_old has hbs]
    rfl
  · show copyForward p.levels (bs.length + 1) p.count bs.length = _
    rw [hz, List.reverse_append]
  · show p.count - 1 = _
    rw [hc, List.length_append]
    omega
  · show (copyForward p.levels (bs.length + 1) p.count bs.length).length = _
    rw [hz]
    simp at hlen ⊢
    omega

end Repr

end PriceLevels

end MatchingEngine
