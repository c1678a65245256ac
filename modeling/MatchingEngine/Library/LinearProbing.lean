import Mathlib.Logic.Function.Basic
import Mathlib.Tactic.Common

/-!
# Linear probing with backward-shift deletion

An open-addressing table of `n` slots is a map `t : ℕ → Option (K × V)` on the positions
below `n`, in which a key `k` is looked for from `home k` on, cyclically, up to the first
empty slot. `Valid` is the invariant that makes this right: no key twice, and no empty
slot between the home of an entry and the entry.

* `scan` is the probe loop. It ends as soon as some slot stops it (`scan_eq`), and the slot
  it returns is the first one.
* `Valid.insert` puts an absent key into the first empty slot of its probe.
* Deletion opens a hole and shifts later entries back. `Gap` is the invariant of that loop:
  `Gap.start` begins it, `Gap.stay` and `Gap.move` are its two steps, and `Gap.close`
  leaves a valid table.

Cyclic distance is by case distinction, so that `omega` and `grind` see through it.
-/

namespace LinearProbing

/-! ## Cyclic positions -/

/-- The number of steps from `a` forward to `b`, among `n` positions. -/
def dist (n a b : ℕ) : ℕ := if a ≤ b then b - a else b + n - a

/-- The next position. -/
def succ (n i : ℕ) : ℕ := if i + 1 = n then 0 else i + 1

variable {n i j a b c p q hole : ℕ}

theorem dist_self : dist n a a = 0 := by simp [dist]

/-- A distance is shorter than the table. -/
theorem dist_lt (ha : a < n) (hb : b < n) : dist n a b < n := by
  unfold dist
  split <;> omega

theorem succ_lt (h : i < n) : succ n i < n := by
  unfold succ
  split <;> omega

/-- The distance from a slot tells where a slot is. -/
theorem eq_of_dist_eq (ha : a < n) (hb : b < n) (hc : c < n) (h : dist n a b = dist n a c) :
    b = c := by
  unfold dist at h
  split_ifs at h <;> omega

theorem dist_pos (ha : a < n) (h : b ≠ a) : 0 < dist n a b := by
  unfold dist
  split <;> omega

/-- A step forward is one step closer to everything but the position it leaves. -/
theorem dist_succ_left (hi : i < n) (hj : j < n) (h : j ≠ i) :
    dist n (succ n i) j + 1 = dist n i j := by
  unfold dist succ
  split_ifs <;> omega

/-- A step forward is one step farther from everything but the position it reaches. -/
theorem dist_succ_right (ha : a < n) (h : succ n i ≠ a) :
    dist n a (succ n i) = dist n a i + 1 := by
  unfold dist succ at *
  split_ifs at * <;> omega

/-! ## Probing -/

/-- The first position from `i` on, cyclically, that `stop` accepts. -/
def scan (n : ℕ) (stop : ℕ → Bool) : ℕ → ℕ → Option ℕ
  | 0, _ => none
  | fuel + 1, i => if stop i then some i else scan n stop fuel (succ n i)

/-- If some position stops the scan, it ends at the first one that does. -/
theorem scan_eq (stop : ℕ → Bool) (hj : j < n) (hstop : stop j = true) :
    ∀ fuel i, i < n → dist n i j < fuel →
      ∃ k, scan n stop fuel i = some k ∧ k < n ∧ stop k = true ∧
        ∀ q, q < n → dist n i q < dist n i k → stop q = false := by
  intro fuel
  induction fuel with
  | zero => intro i _ h; omega
  | succ fuel ih =>
    intro i hi hd
    rw [scan]
    by_cases hs : stop i = true
    · refine ⟨i, by rw [if_pos hs], hi, hs, fun q _ hq => ?_⟩
      rw [dist_self] at hq
      omega
    · have hji : j ≠ i := fun e => hs (e ▸ hstop)
      have hstep := dist_succ_left hi hj hji
      obtain ⟨k, hk, hkn, hks, hfirst⟩ := ih (succ n i) (succ_lt hi) (by omega)
      have hki : k ≠ i := fun e => hs (e ▸ hks)
      refine ⟨k, by rw [if_neg hs, hk], hkn, hks, fun q hq hlt => ?_⟩
      by_cases hqi : q = i
      · rw [hqi]
        simpa using hs
      · refine hfirst q hq ?_
        have := dist_succ_left hi hq hqi
        have := dist_succ_left hi hkn hki
        omega

/-! ## Tables -/

variable {K V : Type*} {home : K → ℕ} {t : ℕ → Option (K × V)} {k k' : K} {v v' : V}

/-- The table stores `v` under `k`. -/
def Holds (n : ℕ) (t : ℕ → Option (K × V)) (k : K) (v : V) : Prop :=
  ∃ p, p < n ∧ t p = some (k, v)

/-- A table in which every key is found: it is in one slot, with no empty slot on the way there. -/
structure Valid (n : ℕ) (home : K → ℕ) (t : ℕ → Option (K × V)) : Prop where
  home_lt : ∀ k, home k < n
  unique : ∀ p q k v w, p < n → q < n → t p = some (k, v) → t q = some (k, w) → p = q
  reach : ∀ p k v, p < n → t p = some (k, v) →
    ∀ q, q < n → dist n (home k) q < dist n (home k) p → t q ≠ none

namespace Valid

/-- A key has one value. -/
theorem holds_unique (h : Valid n home t) (hv : Holds n t k v) (hv' : Holds n t k v') :
    v = v' := by
  obtain ⟨p, hp, ht⟩ := hv
  obtain ⟨q, hq, ht'⟩ := hv'
  have := h.unique p q k v v' hp hq ht ht'
  subst this
  rw [ht] at ht'
  cases ht'
  rfl

/-- **Lookup.** A probe for `k` ends at the entry of `k`, or at an empty slot if there is
none. -/
theorem probe (h : Valid n home t) (room : ∃ e, e < n ∧ t e = none) {stop : ℕ → Bool}
    (hstop : ∀ i, i < n → (stop i = true ↔ t i = none ∨ ∃ v, t i = some (k, v))) :
    ∃ p, scan n stop n (home k) = some p ∧ p < n ∧
      (t p = none ∧ (∀ v, ¬ Holds n t k v) ∨ ∃ v, t p = some (k, v)) := by
  obtain ⟨e, he, hte⟩ := room
  obtain ⟨p, hp, hpn, hps, hfirst⟩ :=
    scan_eq stop he ((hstop e he).mpr (Or.inl hte)) n (home k) (h.home_lt k)
      (dist_lt (h.home_lt k) he)
  refine ⟨p, hp, hpn, ?_⟩
  refine ((hstop p hpn).mp hps).imp_left fun htp => ⟨htp, ?_⟩
  rintro v ⟨q, hq, htq⟩
  -- an entry of `k` would have to lie before the empty slot or behind it
  have hpq : p ≠ q := by
    rintro rfl
    rw [htp] at htq
    cases htq
  rcases Nat.lt_trichotomy (dist n (home k) q) (dist n (home k) p) with hlt | heq | hgt
  · have := hfirst q hq hlt
    rw [(hstop q hq).mpr (Or.inr ⟨v, htq⟩)] at this
    cases this
  · exact hpq (eq_of_dist_eq (h.home_lt k) hpn hq heq.symm)
  · exact h.reach q k v hq htq p hpn hgt htp

/-- **Insert.** The first empty slot of its probe can take an absent key. -/
theorem insert (h : Valid n home t) (habsent : ∀ v, ¬ Holds n t k v)
    (hpath : ∀ q, q < n → dist n (home k) q < dist n (home k) p → t q ≠ none) (v : V) :
    Valid n home (Function.update t p (some (k, v))) where
  home_lt := h.home_lt
  unique a b k' w w' ha hb hta htb := by
    by_cases hap : a = p <;> by_cases hbp : b = p
    · rw [hap, hbp]
    · rw [hap, Function.update_self] at hta
      rw [Function.update_of_ne hbp] at htb
      cases hta
      exact absurd ⟨b, hb, htb⟩ (habsent w')
    · rw [hbp, Function.update_self] at htb
      rw [Function.update_of_ne hap] at hta
      cases htb
      exact absurd ⟨a, ha, hta⟩ (habsent w)
    · rw [Function.update_of_ne hap] at hta
      rw [Function.update_of_ne hbp] at htb
      exact h.unique a b k' w w' ha hb hta htb
  reach a k' w ha hta q hq hlt := by
    by_cases hqp : q = p
    · rw [hqp, Function.update_self]
      exact Option.some_ne_none _
    · rw [Function.update_of_ne hqp]
      by_cases hap : a = p
      · rw [hap, Function.update_self] at hta
        cases hta
        exact hpath q hq (hap ▸ hlt)
      · rw [Function.update_of_ne hap] at hta
        exact h.reach a k' w ha hta q hq hlt

end Valid

/-- A table holds what was put into it, and what it held before. -/
theorem holds_insert (hp : p < n) (htp : t p = none) :
    Holds n (Function.update t p (some (k, v))) k' v' ↔ (k' = k ∧ v' = v) ∨ Holds n t k' v' := by
  constructor
  · rintro ⟨q, hq, ht⟩
    by_cases hqp : q = p
    · rw [hqp, Function.update_self] at ht
      cases ht
      exact Or.inl ⟨rfl, rfl⟩
    · rw [Function.update_of_ne hqp] at ht
      exact Or.inr ⟨q, hq, ht⟩
  · rintro (⟨rfl, rfl⟩ | ⟨q, hq, ht⟩)
    · exact ⟨p, hp, Function.update_self ..⟩
    · refine ⟨q, hq, ?_⟩
      rw [Function.update_of_ne, ht]
      rintro rfl
      rw [htp] at ht
      cases ht

/-! ## Deletion -/

/-- The table stores `v` under `k` outside the hole. What the hole still contains is stale. -/
def HoldsOff (n : ℕ) (hole : ℕ) (t : ℕ → Option (K × V)) (k : K) (v : V) : Prop :=
  ∃ p, p < n ∧ p ≠ hole ∧ t p = some (k, v)

/-- The table between two steps of a deletion: the entry at `hole` is to go, and every entry
between `hole` and `i` has its home behind the hole. -/
structure Gap (n : ℕ) (home : K → ℕ) (t : ℕ → Option (K × V)) (hole i : ℕ) : Prop where
  hole_lt : hole < n
  i_lt : i < n
  ne : i ≠ hole
  home_lt : ∀ k, home k < n
  stale : t hole ≠ none
  unique : ∀ p q k v w, p < n → q < n → p ≠ hole → q ≠ hole →
    t p = some (k, v) → t q = some (k, w) → p = q
  reach : ∀ p k v, p < n → p ≠ hole → t p = some (k, v) →
    ∀ q, q < n → dist n (home k) q < dist n (home k) p → t q ≠ none
  scanned : ∀ p, p < n → p ≠ hole → dist n hole p < dist n hole i →
    ∃ k v, t p = some (k, v) ∧ dist n (home k) p < dist n hole p

namespace Gap

/-- The gap that a removal leaves, before the first step behind it. -/
theorem start (h : Valid n home t) (hn : 2 ≤ n) (hp : p < n) (ht : t p ≠ none) :
    Gap n home t p (succ n p) where
  hole_lt := hp
  i_lt := succ_lt hp
  ne := by unfold succ; split <;> omega
  home_lt := h.home_lt
  stale := ht
  unique a b k v w ha hb _ _ := h.unique a b k v w ha hb
  reach a k v ha _ := h.reach a k v ha
  scanned q hq hqp hlt := by
    have := dist_pos hp hqp
    have : dist n p (succ n p) ≤ 1 := by unfold dist succ; split_ifs <;> omega
    omega

/-- The scan has not come round to the hole while there is an empty slot ahead. -/
theorem succ_ne (h : Gap n home t hole i) (ht : t i ≠ none) (hj : j < n) (htj : t j = none) :
    succ n i ≠ hole := by
  intro e
  have hjh : j ≠ hole := fun e' => h.stale (e' ▸ htj)
  have hji : j ≠ i := fun e' => ht (e' ▸ htj)
  have hlt : dist n hole j < dist n hole i := by
    have h1 := h.hole_lt
    have h2 := h.i_lt
    have h3 := h.ne
    unfold dist succ at *
    split_ifs at * <;> omega
  obtain ⟨k, v, hkv, _⟩ := h.scanned j hj hjh hlt
  rw [htj] at hkv
  cases hkv

/-- The entry at `i` has its home behind the hole and stays. -/
theorem stay (h : Gap n home t hole i) (ht : t i = some (k, v))
    (hd : ¬ dist n hole i ≤ dist n (home k) i) (hne : succ n i ≠ hole) :
    Gap n home t hole (succ n i) where
  hole_lt := h.hole_lt
  i_lt := succ_lt h.i_lt
  ne := hne
  home_lt := h.home_lt
  stale := h.stale
  unique := h.unique
  reach := h.reach
  scanned p hp hph hlt := by
    rw [dist_succ_right h.hole_lt hne] at hlt
    rcases Nat.lt_succ_iff_lt_or_eq.mp hlt with hlt | heq
    · exact h.scanned p hp hph hlt
    · rw [eq_of_dist_eq h.hole_lt hp h.i_lt heq]
      exact ⟨k, v, ht, by omega⟩

/-- The entry at `i` has the hole on its probe path and moves into it. -/
theorem move (h : Gap n home t hole i) (ht : t i = some (k, v))
    (hd : dist n hole i ≤ dist n (home k) i) :
    Gap n home (Function.update t hole (some (k, v))) i (succ n i) where
  hole_lt := h.i_lt
  i_lt := succ_lt h.i_lt
  ne := by
    have := h.i_lt
    have := h.hole_lt
    have := h.ne
    unfold succ
    split <;> omega
  home_lt := h.home_lt
  stale := by
    rw [Function.update_of_ne h.ne, ht]
    exact Option.some_ne_none _
  unique a b k' w w' ha hb hai hbi hta htb := by
    by_cases hah : a = hole <;> by_cases hbh : b = hole
    · rw [hah, hbh]
    · rw [hah, Function.update_self] at hta
      rw [Function.update_of_ne hbh] at htb
      cases hta
      exact absurd (h.unique b i k w' v hb h.i_lt hbh h.ne htb ht) hbi
    · rw [hbh, Function.update_self] at htb
      rw [Function.update_of_ne hah] at hta
      cases htb
      exact absurd (h.unique a i k w v ha h.i_lt hah h.ne hta ht) hai
    · rw [Function.update_of_ne hah] at hta
      rw [Function.update_of_ne hbh] at htb
      exact h.unique a b k' w w' ha hb hah hbh hta htb
  reach a k' w ha hai hta q hq hlt := by
    by_cases hqh : q = hole
    · rw [hqh, Function.update_self]
      exact Option.some_ne_none _
    · rw [Function.update_of_ne hqh]
      by_cases hah : a = hole
      · rw [hah, Function.update_self] at hta
        cases hta
        -- the path to the hole is the first part of the path to `i`
        refine h.reach i k v h.i_lt h.ne ht q hq ?_
        have h1 := h.home_lt k
        have h2 := h.hole_lt
        have h3 := h.i_lt
        have h4 := h.ne
        subst hah
        unfold dist at *
        split_ifs at * <;> omega
      · rw [Function.update_of_ne hah] at hta
        exact h.reach a k' w ha hah hta q hq hlt
  scanned q hq hqi hlt := by
    have := dist_pos h.i_lt hqi
    have : dist n i (succ n i) ≤ 1 := by unfold dist succ; split_ifs <;> omega
    omega

/-- Moving an entry into the hole changes nothing else. -/
theorem holdsOff_move (h : Gap n home t hole i) (ht : t i = some (k, v)) :
    HoldsOff n i (Function.update t hole (some (k, v))) k' v' ↔ HoldsOff n hole t k' v' := by
  constructor
  · rintro ⟨p, hp, hpi, hkv⟩
    by_cases hph : p = hole
    · rw [hph, Function.update_self] at hkv
      exact ⟨i, h.i_lt, h.ne, ht.trans hkv⟩
    · rw [Function.update_of_ne hph] at hkv
      exact ⟨p, hp, hph, hkv⟩
  · rintro ⟨p, hp, hph, hkv⟩
    by_cases hpi : p = i
    · refine ⟨hole, h.hole_lt, Ne.symm h.ne, ?_⟩
      rw [Function.update_self, ← ht, ← hpi, hkv]
    · exact ⟨p, hp, hpi, by rw [Function.update_of_ne hph, hkv]⟩

/-- At the end of the run the hole can be left empty. -/
theorem close (h : Gap n home t hole i) (ht : t i = none) :
    Valid n home (Function.update t hole none) where
  home_lt := h.home_lt
  unique a b k w w' ha hb hta htb := by
    have hah : a ≠ hole := by rintro rfl; simp at hta
    have hbh : b ≠ hole := by rintro rfl; simp at htb
    rw [Function.update_of_ne hah] at hta
    rw [Function.update_of_ne hbh] at htb
    exact h.unique a b k w w' ha hb hah hbh hta htb
  reach a k w ha hta q hq hlt := by
    have hah : a ≠ hole := by rintro rfl; simp at hta
    rw [Function.update_of_ne hah] at hta
    have hreach := h.reach a k w ha hah hta
    have hqh : q ≠ hole := by
      rintro rfl
      -- an entry that needs the hole is not among the scanned ones, and `i` would cut it off
      have h1 := h.home_lt k
      have h2 := h.i_lt
      have hai : a ≠ i := by
        rintro rfl
        rw [ht] at hta
        cases hta
      by_cases hsc : dist n q a < dist n q i
      · obtain ⟨k', w', hkw, hd⟩ := h.scanned a ha hah hsc
        rw [hta] at hkw
        cases hkw
        unfold dist at *
        split_ifs at * <;> omega
      · refine hreach i h2 ?_ ht
        have h3 := h.ne
        unfold dist at *
        split_ifs at * <;> omega
    rw [Function.update_of_ne hqh]
    exact hreach q hq hlt

end Gap

/-- A table that is closed holds what it held outside of the hole. -/
theorem holds_close : Holds n (Function.update t hole none) k v ↔ HoldsOff n hole t k v := by
  constructor
  · rintro ⟨p, hp, hkv⟩
    have hph : p ≠ hole := by rintro rfl; simp at hkv
    rw [Function.update_of_ne hph] at hkv
    exact ⟨p, hp, hph, hkv⟩
  · rintro ⟨p, hp, hph, hkv⟩
    exact ⟨p, hp, by rw [Function.update_of_ne hph, hkv]⟩

/-- Off the slot of `k`, a valid table holds exactly the other keys. -/
theorem Valid.holdsOff (h : Valid n home t) (hp : p < n) (ht : t p = some (k, v)) :
    HoldsOff n p t k' v' ↔ k' ≠ k ∧ Holds n t k' v' := by
  constructor
  · rintro ⟨q, hq, hqp, hkv⟩
    refine ⟨?_, q, hq, hkv⟩
    rintro rfl
    exact hqp (h.unique q p k' v' v hq hp hkv ht)
  · rintro ⟨hne, q, hq, hkv⟩
    refine ⟨q, hq, ?_, hkv⟩
    rintro rfl
    rw [ht] at hkv
    cases hkv
    exact hne rfl

end LinearProbing
