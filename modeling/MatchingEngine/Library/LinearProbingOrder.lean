import MatchingEngine.Library.LinearProbing
import Mathlib.Order.WellFounded

/-!
# Linear probing — first come, first served

An entry ends up behind its home slot only because entries that came before it were in the
way. `Settled` says so of every entry. Entries and the order in which they came then determine
the whole table (`Settled.unique`), so a table has no other history than that of the entries
it stores. Insertion keeps it (`Settled.insert`), and so does a deletion, whose loop is
described by `Closes`, step by step (`Closes.settled`).
-/

namespace LinearProbing

variable {K V : Type*} {n hole i hole' p : ℕ} {home : K → ℕ} {t t' : ℕ → Option (K × V)}
  {before before' : K → K → Prop} {k : K} {v : V}

/-! ## Paths -/

section Paths

variable {a b c : ℕ}

/-- The way over another slot is not shorter. -/
theorem dist_triangle (ha : a < n) (hc : c < n) :
    dist n c b ≤ dist n c a + dist n a b := by
  unfold LinearProbing.dist
  split_ifs <;> omega

/-- If `a` lies on the way from `c` to `b`, the way leads first to `a` and then on. -/
theorem dist_add (ha : a < n) (hb : b < n) (hc : c < n) (h : dist n c a ≤ dist n c b) :
    dist n c a + dist n a b = dist n c b := by
  unfold LinearProbing.dist at *
  split_ifs at * <;> omega

/-- The same, measured from the end of the way. -/
theorem dist_add' (ha : a < n) (hc : c < n) (h : dist n a b ≤ dist n c b) :
    dist n c a + dist n a b = dist n c b := by
  unfold LinearProbing.dist at *
  split_ifs at * <;> omega

end Paths

/-- Every slot that an entry was turned away from holds an entry that came before it. -/
def Settled (n : ℕ) (home : K → ℕ) (before : K → K → Prop) (t : ℕ → Option (K × V)) : Prop :=
  ∀ p k v, p < n → t p = some (k, v) → ∀ q, q < n → dist n (home k) q < dist n (home k) p →
    ∃ k' v', t q = some (k', v') ∧ before k' k

/-! ## Uniqueness -/

/-- If everything that came before `k` has the same slot in both tables, then `k` is not
farther from its home in the second one. -/
theorem Settled.not_farther (hwf : WellFounded before) (h' : Settled n home before t')
    (hsub : ∀ k v, Holds n t' k v → Holds n t k v)
    (ih : ∀ j, before j k → ∀ p p' v v', p < n → p' < n → t p = some (j, v) →
      t' p' = some (j, v') → p = p') {p' : ℕ} {v' : V} (hp : p < n) (hp' : p' < n)
    (ht : t p = some (k, v)) (ht' : t' p' = some (k, v')) :
    ¬ dist n (home k) p < dist n (home k) p' := by
  intro hlt
  obtain ⟨j, w, htj, hj⟩ := h' p' k v' hp' ht' p hp hlt
  obtain ⟨q, hq, htq⟩ := hsub j w ⟨p, hp, htj⟩
  have hqp : q = p := ih j hj q p w w hq hp htq htj
  rw [hqp, ht] at htq
  have hjk : k = j := congrArg Prod.fst (Option.some.inj htq)
  rw [← hjk] at hj
  exact hwf.irrefl.irrefl k hj

/-- A key has the same slot in both tables. -/
theorem Settled.same_slot (hwf : WellFounded before) (hv : Valid n home t)
    (h : Settled n home before t) (h' : Settled n home before t')
    (hsame : ∀ k v, Holds n t k v ↔ Holds n t' k v) (k : K) :
    ∀ p p' v v', p < n → p' < n → t p = some (k, v) → t' p' = some (k, v') → p = p' := by
  induction k using hwf.induction with
  | _ k ih =>
    intro p p' v v' hp hp' ht ht'
    have hle := h'.not_farther hwf (fun k v => (hsame k v).mpr) ih hp hp' ht ht'
    have hge := h.not_farther hwf (fun k v => (hsame k v).mp)
      (fun j hj p p' v v' hp hp' hjp hjp' => (ih j hj p' p v' v hp' hp hjp' hjp).symm) hp' hp ht' ht
    apply eq_of_dist_eq (hv.home_lt k) hp hp'
    omega

/-- **Uniqueness.** The entries and the order in which they came determine the table. -/
theorem Settled.unique (hwf : WellFounded before) (hv : Valid n home t)
    (h : Settled n home before t) (h' : Settled n home before t')
    (hsame : ∀ k v, Holds n t k v ↔ Holds n t' k v) (hp : p < n) : t p = t' p := by
  have hslot := Settled.same_slot hwf hv h h' hsame
  cases ht : t p with
  | some e =>
    obtain ⟨k, v⟩ := e
    obtain ⟨q, hq, htq⟩ := (hsame k v).mp ⟨p, hp, ht⟩
    rw [hslot k p q v v hp hq ht htq, htq]
  | none =>
    cases ht' : t' p with
    | none => rfl
    | some e =>
      obtain ⟨k, v⟩ := e
      obtain ⟨q, hq, htq⟩ := (hsame k v).mpr ⟨p, hp, ht'⟩
      rw [hslot k q p v v hq hp htq ht', ht] at htq
      cases htq

/-! ## Insertion -/

/-- The first empty slot of its probe is right for an entry that comes last. -/
theorem Settled.insert (h : Settled n home before t) (htp : t p = none)
    (hpath : ∀ q, q < n → dist n (home k) q < dist n (home k) p → t q ≠ none) (v : V)
    (hmono : ∀ a b, before a b → before' a b) (hlast : ∀ k' v', Holds n t k' v' → before' k' k) :
    Settled n home before' (Function.update t p (some (k, v))) := by
  intro a k' w ha hta q hq hlt
  by_cases hap : a = p
  · -- the new entry
    rw [hap, Function.update_self, Option.some.injEq, Prod.mk.injEq] at hta
    obtain ⟨rfl, rfl⟩ := hta
    rw [hap] at hlt
    have hqp : q ≠ p := fun e => by rw [e] at hlt; omega
    obtain ⟨⟨j, u⟩, htq⟩ := Option.ne_none_iff_exists'.mp (hpath q hq hlt)
    exact ⟨j, u, by rw [Function.update_of_ne hqp, htq], hlast j u ⟨q, hq, htq⟩⟩
  · rw [Function.update_of_ne hap] at hta
    obtain ⟨j, u, htq, hj⟩ := h a k' w ha hta q hq hlt
    have hqp : q ≠ p := fun e => by rw [e, htp] at htq; cases htq
    exact ⟨j, u, by rw [Function.update_of_ne hqp, htq], hmono j k' hj⟩

/-! ## Deletion -/

/-- The loop of a deletion, from a hole and a position on up to the end of the run: the table
it leaves and the last hole. -/
inductive Closes (n : ℕ) (home : K → ℕ) :
    (ℕ → Option (K × V)) → ℕ → ℕ → (ℕ → Option (K × V)) → ℕ → Prop
  | done {t : ℕ → Option (K × V)} {hole i : ℕ} (ht : t i = none) : Closes n home t hole i t hole
  | stay {t t' : ℕ → Option (K × V)} {hole i hole' : ℕ} {k : K} {v : V} (ht : t i = some (k, v))
      (hd : ¬ dist n hole i ≤ dist n (home k) i) (h : Closes n home t hole (succ n i) t' hole') :
      Closes n home t hole i t' hole'
  | move {t t' : ℕ → Option (K × V)} {hole i hole' : ℕ} {k : K} {v : V} (ht : t i = some (k, v))
      (hd : dist n hole i ≤ dist n (home k) i)
      (h : Closes n home (Function.update t hole (some (k, v))) i (succ n i) t' hole') :
      Closes n home t hole i t' hole'

/-- `Settled`, where the hole and what is stale in it do not count. -/
def SettledOff (n : ℕ) (home : K → ℕ) (before : K → K → Prop) (hole : ℕ)
    (t : ℕ → Option (K × V)) : Prop :=
  ∀ p k v, p < n → p ≠ hole → t p = some (k, v) → ∀ q, q < n → q ≠ hole →
    dist n (home k) q < dist n (home k) p → ∃ k' v', t q = some (k', v') ∧ before k' k

/-- A settled table is settled around any hole. -/
theorem Settled.off (h : Settled n home before t) (hole : ℕ) : SettledOff n home before hole t :=
  fun p k v hp _ ht q hq _ hlt => h p k v hp ht q hq hlt

/-- The first entry with the hole on its path came before all others that have it there. -/
theorem SettledOff.move (h : SettledOff n home before hole t) (hgap : Gap n home t hole i)
    (ht : t i = some (k, v)) (hd : dist n hole i ≤ dist n (home k) i) :
    SettledOff n home before i (Function.update t hole (some (k, v))) := by
  have hhole := hgap.hole_lt
  have hi := hgap.i_lt
  have hne := hgap.ne
  intro a k' w ha hai hta q hq hqi hlt
  by_cases hah : a = hole
  · -- the entry that moved has come closer to its home
    rw [hah, Function.update_self, Option.some.injEq, Prod.mk.injEq] at hta
    obtain ⟨rfl, rfl⟩ := hta
    rw [hah] at hlt
    have hqh : q ≠ hole := fun e => by rw [e] at hlt; omega
    have hcloser : dist n (home k) q < dist n (home k) i := by
      have hway := dist_add' hhole (hgap.home_lt k) hd
      omega
    obtain ⟨j, u, htq, hj⟩ := h i k v hi hne ht q hq hqh hcloser
    exact ⟨j, u, by rw [Function.update_of_ne hqh, htq], hj⟩
  · rw [Function.update_of_ne hah] at hta
    by_cases hqh : q = hole
    · rw [hqh] at hlt ⊢
      have hway := dist_add hhole ha (hgap.home_lt k') hlt.le
      -- the hole is on the path of `a`, so the slot of the entry that moves is, too
      have hpast : ¬ dist n hole a < dist n hole i := by
        intro hsc
        obtain ⟨k₂, w₂, hkw, hhome⟩ := hgap.scanned a ha hah hsc
        rw [hta, Option.some.injEq, Prod.mk.injEq] at hkw
        obtain ⟨rfl, rfl⟩ := hkw
        omega
      have hcloser : dist n (home k') i < dist n (home k') a := by
        have hrest := dist_add hi ha hhole (not_lt.mp hpast)
        have hpos := dist_pos hi hai
        have hshort := @dist_triangle n hole i (home k') hhole (hgap.home_lt k')
        omega
      obtain ⟨j, u, hti, hj⟩ := h a k' w ha hah hta i hi hne hcloser
      rw [ht, Option.some.injEq, Prod.mk.injEq] at hti
      obtain ⟨rfl, rfl⟩ := hti
      exact ⟨k, v, Function.update_self .., hj⟩
    · obtain ⟨j, u, htq, hj⟩ := h a k' w ha hah hta q hq hqh hlt
      exact ⟨j, u, by rw [Function.update_of_ne hqh, htq], hj⟩

/-- **Closing the hole** at an empty slot leaves a settled table. -/
theorem SettledOff.close (h : SettledOff n home before hole t) (hgap : Gap n home t hole i)
    (ht : t i = none) : Settled n home before (Function.update t hole none) := by
  have hvalid := hgap.close ht
  intro p k v hp htp q hq hlt
  have hph : p ≠ hole := fun e => by rw [e, Function.update_self] at htp; cases htp
  -- the table is valid again, so no path leads through the hole
  have hqh : q ≠ hole := fun e =>
    hvalid.reach p k v hp htp q hq hlt (by rw [e, Function.update_self])
  rw [Function.update_of_ne hph] at htp
  rw [Function.update_of_ne hqh]
  exact h p k v hp hph htp q hq hqh hlt

/-- **Deletion** keeps the order in which the other entries came. -/
theorem Closes.settled (h : Closes n home t hole i t' hole') (hgap : Gap n home t hole i)
    (room : ∃ e, e < n ∧ t e = none) (hoff : SettledOff n home before hole t) :
    Settled n home before (Function.update t' hole' none) := by
  induction h with
  | done ht => exact hoff.close hgap ht
  | stay ht hd _ ih =>
    obtain ⟨e, he, hte⟩ := room
    have hne := hgap.succ_ne (by rw [ht]; exact Option.some_ne_none _) he hte
    exact ih (hgap.stay ht hd hne) ⟨e, he, hte⟩ hoff
  | @move t _ hole _ _ _ _ ht hd _ ih =>
    obtain ⟨e, he, hte⟩ := room
    have heh : e ≠ hole := fun h => hgap.stale (h ▸ hte)
    exact ih (hgap.move ht hd) ⟨e, he, by rw [Function.update_of_ne heh, hte]⟩
      (hoff.move hgap ht hd)

end LinearProbing
