import MatchingEngine.Bench.DrawTheorems
import MatchingEngine.Diff.Stream
import MatchingEngine.Journal.JournalCodec

/-!
# What the stream holds

Every draw succeeds, and what it gives depends on the draws before it in a known way
(`Op.Follows`): a cancel or modify names an id that was issued before, or 0, and a new order
carries a new id, one that was issued before, or 1. `Generator.After` is the invariant.
-/

namespace MatchingEngine

namespace Diff

open Bench

variable {g : Generator} {h : List Op} {op : Op}

/-- The operation enters an order. -/
def Op.Adds (op : Op) : Prop := op.kind = .limit ∨ op.kind = .market

/-- An operation of the stream, after the operations `h`. -/
structure Op.Follows (h : List Op) (op : Op) : Prop where
  account : 1 ≤ op.account.toNat ∧ op.account.toNat ≤ 4
  price : op.kind ≠ .cancel → 80 ≤ op.price.toInt ∧ op.price.toInt ≤ 120
  qty : op.qty.toNat ≤ 10
  cancel : op.kind = .cancel → op.price = 0 ∧ op.qty = 0
  market : op.kind = .market → op.tif = .ioc ∧ op.qty ≠ 0
  tif : ¬ op.Adds → op.tif = .gtc
  target : ¬ op.Adds → op.id = 0 ∨ ∃ earlier ∈ h, earlier.Adds ∧ earlier.id = op.id
  fresh : op.Adds → (∃ earlier ∈ h, earlier.Adds ∧ earlier.id = op.id) ∨ op.id = 1 ∨
    ∀ earlier ∈ h, earlier.id < op.id

theorem Op.follows_of_modify (hkind : op.kind = .modify)
    (haccount : 1 ≤ op.account.toNat ∧ op.account.toNat ≤ 4)
    (hprice : 80 ≤ op.price.toInt ∧ op.price.toInt ≤ 120) (hqty : op.qty.toNat ≤ 10)
    (htif : op.tif = .gtc)
    (htarget : op.id = 0 ∨ ∃ earlier ∈ h, earlier.Adds ∧ earlier.id = op.id) : op.Follows h where
  account := haccount
  price := fun _ => hprice
  qty := hqty
  cancel := fun hcancel => absurd (hkind.symm.trans hcancel) (by decide)
  market := fun hmarket => absurd (hkind.symm.trans hmarket) (by decide)
  tif := fun _ => htif
  target := fun _ => htarget
  fresh := by
    rintro (hadds | hadds)
    · exact absurd (hkind.symm.trans hadds) (by decide)
    · exact absurd (hkind.symm.trans hadds) (by decide)

theorem Op.follows_of_limit (hkind : op.kind = .limit)
    (haccount : 1 ≤ op.account.toNat ∧ op.account.toNat ≤ 4)
    (hprice : 80 ≤ op.price.toInt ∧ op.price.toInt ≤ 120) (hqty : op.qty.toNat ≤ 10)
    (hfresh : (∃ earlier ∈ h, earlier.Adds ∧ earlier.id = op.id) ∨ op.id = 1 ∨
      ∀ earlier ∈ h, earlier.id < op.id) : op.Follows h where
  account := haccount
  price := fun _ => hprice
  qty := hqty
  cancel := fun hcancel => absurd (hkind.symm.trans hcancel) (by decide)
  market := fun hmarket => absurd (hkind.symm.trans hmarket) (by decide)
  tif := fun hnot => absurd (Or.inl hkind) hnot
  target := fun hnot => absurd (Or.inl hkind) hnot
  fresh := fun _ => hfresh

/-! ## Single draws -/

/-- A small unsigned draw is added without overflow. -/
theorem toInt_add_toInt64 (base : Int64) (p : UInt64) (hlow : 0 ≤ base.toInt)
    (hhigh : base.toInt < 2 ^ 62) (hp : p.toNat < 2 ^ 62) :
    (base + p.toInt64).toInt = base.toInt + p.toNat := by
  have hint : p.toInt64.toInt = p.toNat := by
    apply BitVec.toInt_eq_toNat_of_lt
    show 2 * p.toNat < 2 ^ 64
    omega
  have hsize : ((2 ^ 64 : ℕ) : ℤ) = 18446744073709551616 := rfl
  rw [Int64.toInt_add, hint]
  apply Int.bmod_eq_of_le
  · rw [hsize]
    omega
  · rw [hsize]
    omega

theorem toNat_one_add {q : UInt64} (hq : q.toNat < 2 ^ 31) :
    (1 + q.toUInt32).toNat = 1 + q.toNat := by
  rw [UInt32.toNat_add, UInt64.toNat_toUInt32]
  show (1 + q.toNat % 2 ^ 32) % 2 ^ 32 = 1 + q.toNat
  omega

namespace Generator

/-- The generator with another state of its random numbers. -/
def withRng (g : Generator) (rng : Rng) : Generator := { g with rng }

@[simp] theorem issued_withRng (g : Generator) (rng : Rng) : (g.withRng rng).issued = g.issued :=
  rfl

@[simp] theorem price_withRng (g : Generator) (rng : Rng) : (g.withRng rng).price = g.price := rfl

theorem withRng_withRng (g : Generator) (rng rng' : Rng) :
    (g.withRng rng).withRng rng' = g.withRng rng' := rfl

/-- A price is drawn between 80 and 120. -/
theorem pickPrice_spec (g : Generator) :
    ∃ price rng, g.pickPrice = .ok (price, g.withRng rng) ∧
      80 ≤ price.toInt ∧ price.toInt ≤ 120 := by
  obtain ⟨u, rng, hu, -⟩ := below_spec g.rng (n := 100) (by decide)
  have h80 : (80 : Int64).toInt = 80 := rfl
  have h95 : (95 : Int64).toInt = 95 := rfl
  unfold pickPrice
  rw [hu, ok_bind]
  dsimp only
  by_cases hwide : u < 5
  · obtain ⟨p, rng', hp, hlt⟩ := below_spec rng (n := 41) (by decide)
    have hlt : p.toNat < 41 := hlt
    have hprice := toInt_add_toInt64 80 p (by omega) (by omega) (by omega)
    rw [if_pos hwide, hp, ok_bind]
    dsimp only
    exact ⟨_, rng', rfl, by omega, by omega⟩
  · obtain ⟨p, rng', hp, hlt⟩ := below_spec rng (n := 11) (by decide)
    have hlt : p.toNat < 11 := hlt
    have hprice := toInt_add_toInt64 95 p (by omega) (by omega) (by omega)
    rw [if_neg hwide, hp, ok_bind]
    dsimp only
    exact ⟨_, rng', rfl, by omega, by omega⟩

/-- A quantity is drawn between 1 and `n`. -/
theorem pickQty_spec (g : Generator) {n : UInt64} (hn : n ≠ 0) (hlt : n.toNat < 2 ^ 31) :
    ∃ qty rng, g.pickQty n = .ok (qty, g.withRng rng) ∧ 1 ≤ qty.toNat ∧ qty.toNat ≤ n.toNat := by
  obtain ⟨q, rng, hq, hqlt⟩ := below_spec g.rng hn
  have hqty := toNat_one_add (q := q) (by omega)
  unfold pickQty
  rw [hq, ok_bind]
  exact ⟨_, rng, rfl, by omega, by omega⟩

/-- The window of recent ids lies within the ids there are. -/
theorem pickKnown_spec (hne : g.issued ≠ []) (hlen : g.issued.length < 2 ^ 64) :
    ∃ k rng, g.pickKnown = .ok (k, g.withRng rng) ∧ k.toNat < g.issued.length := by
  have hpos : 0 < g.issued.length := List.length_pos_iff.mpr hne
  have hn : (UInt64.ofNat g.issued.length).toNat = g.issued.length :=
    UInt64.toNat_ofNat_of_lt' hlen
  have hn0 : UInt64.ofNat g.issued.length ≠ 0 := fun e => by
    rw [e, UInt64.toNat_zero] at hn
    omega
  have hempty : ¬ g.issued.isEmpty = true := fun e => hne (List.isEmpty_iff.mp e)
  obtain ⟨u, rng, hu, -⟩ := below_spec g.rng (n := 100) (by decide)
  unfold pickKnown
  rw [if_neg hempty, hu, ok_bind]
  dsimp only
  by_cases hrecent : u < 85
  · generalize hwindow : (if UInt64.ofNat g.issued.length < 64 then UInt64.ofNat g.issued.length
      else 64) = window
    have hw : window ≠ 0 ∧ window.toNat ≤ g.issued.length := by
      by_cases hsmall : UInt64.ofNat g.issued.length < 64
      · rw [if_pos hsmall] at hwindow
        rw [← hwindow, hn]
        exact ⟨hn0, le_rfl⟩
      · rw [if_neg hsmall] at hwindow
        rw [UInt64.lt_iff_toNat_lt, hn, not_lt] at hsmall
        rw [← hwindow]
        exact ⟨by decide, hsmall⟩
    obtain ⟨w, rng', hdraw, hlt⟩ := below_spec rng hw.1
    rw [if_pos hrecent, hdraw, ok_bind]
    refine ⟨_, rng', rfl, ?_⟩
    have hle : window.toNat ≤ g.issued.length := hw.2
    have hone : (1 : UInt64).toNat = 1 := rfl
    have hlast : (UInt64.ofNat g.issued.length - 1).toNat = g.issued.length - 1 := by
      have h1 : (1 : UInt64) ≤ UInt64.ofNat g.issued.length := by
        rw [UInt64.le_iff_toNat_le, hn, hone]
        exact hpos
      rw [UInt64.toNat_sub_of_le _ _ h1, hn, hone]
    have hback : w ≤ UInt64.ofNat g.issued.length - 1 := by
      rw [UInt64.le_iff_toNat_le, hlast]
      omega
    rw [UInt64.toNat_sub_of_le _ _ hback, hlast]
    omega
  · obtain ⟨k, rng', hk, hlt⟩ := below_spec rng hn0
    rw [if_neg hrecent, hk, ok_bind]
    exact ⟨k, rng', rfl, hn ▸ hlt⟩

/-- An id is drawn from those given out, if there are any. -/
theorem pickIssued_spec (hlen : g.issued.length < 2 ^ 64) (other : OrderId) :
    ∃ id rng, g.pickIssued other = .ok (id, g.withRng rng) ∧ (id = other ∨ id ∈ g.issued) := by
  unfold pickIssued
  by_cases hne : g.issued = []
  · rw [if_pos (List.isEmpty_iff.mpr hne)]
    exact ⟨other, g.rng, rfl, Or.inl rfl⟩
  · obtain ⟨k, rng, hk, hlt⟩ := pickKnown_spec hne hlen
    rw [if_neg fun e => hne (List.isEmpty_iff.mp e), hk, ok_bind]
    dsimp only
    rw [issued_withRng, List.getElem?_eq_getElem hlt, orFault_some, ok_bind]
    exact ⟨_, rng, rfl, Or.inr (List.getElem_mem hlt)⟩

/-- An id that was issued, or the next new one. -/
theorem freshOrReused_spec (hlen : g.issued.length < 2 ^ 64) :
    (∃ id rng, g.freshOrReused = .ok (id, g.withRng rng) ∧ id ∈ g.issued) ∨
      ∃ rng, g.freshOrReused = .ok (g.withRng rng).fresh := by
  unfold freshOrReused
  by_cases hne : g.issued = []
  · rw [if_pos (List.isEmpty_iff.mpr hne)]
    exact Or.inr ⟨g.rng, rfl⟩
  obtain ⟨u, rng, hu, -⟩ := below_spec g.rng (n := 100) (by decide)
  rw [if_neg fun e => hne (List.isEmpty_iff.mp e), hu, ok_bind]
  dsimp only
  by_cases hreuse : u < 4
  · obtain ⟨k, rng', hk, hlt⟩ := pickKnown_spec (g := g.withRng rng) hne hlen
    rw [issued_withRng] at hlt
    rw [withRng_withRng] at hk
    rw [if_pos hreuse]
    show (∃ id rng', (g.withRng rng).pickKnown >>= _ = _ ∧ _) ∨ _
    rw [hk, ok_bind]
    dsimp only
    rw [issued_withRng, List.getElem?_eq_getElem hlt, orFault_some, ok_bind]
    exact Or.inl ⟨_, rng', rfl, List.getElem_mem hlt⟩
  · rw [if_neg hreuse]
    exact Or.inr ⟨rng, rfl⟩

/-! ## The invariant -/

/-- The generator after the operations `h`. -/
structure After (g : Generator) (h : List Op) : Prop where
  prices : g.price.length = g.issued.length
  issued_le : g.issued.length ≤ h.length
  nextId_le : g.nextId.toNat ≤ h.length
  issued : ∀ id ∈ g.issued, ∃ op ∈ h, op.Adds ∧ op.id = id
  band : ∀ p ∈ g.price, 80 ≤ p.toInt ∧ p.toInt ≤ 120
  ids : ∀ op ∈ h, op.id = 1 ∨ op.id.toNat ≤ g.nextId.toNat

/-- A new generator has drawn nothing. -/
theorem after_new (seed : UInt64) : (new seed).After [] :=
  ⟨rfl, le_rfl, le_rfl, fun _ h => absurd h List.not_mem_nil, fun _ h => absurd h List.not_mem_nil,
    fun _ h => absurd h List.not_mem_nil⟩

/-- The random state alone says nothing about the past. -/
theorem After.withRng (ha : g.After h) (rng : Rng) : (g.withRng rng).After h :=
  ⟨ha.prices, ha.issued_le, ha.nextId_le, ha.issued, ha.band, ha.ids⟩

/-- What an operation must do to the generator, and with its id, for the invariant. -/
theorem After.concat {g' : Generator} (ha : g.After h)
    (hissued : g'.issued = g.issued ∨ op.Adds ∧ g'.issued = g.issued ++ [op.id])
    (hprices : g'.price.length = g'.issued.length)
    (hband : ∀ p ∈ g'.price, 80 ≤ p.toInt ∧ p.toInt ≤ 120)
    (hlow : g.nextId.toNat ≤ g'.nextId.toNat) (hhigh : g'.nextId.toNat ≤ g.nextId.toNat + 1)
    (hid : op.id = 1 ∨ op.id.toNat ≤ g'.nextId.toNat) : g'.After (h ++ [op]) where
  prices := hprices
  issued_le := by
    have hle := ha.issued_le
    rw [List.length_append, List.length_singleton]
    rcases hissued with heq | ⟨-, heq⟩
    · rw [heq]
      omega
    · rw [heq, List.length_append, List.length_singleton]
      omega
  nextId_le := by
    have hle := ha.nextId_le
    rw [List.length_append, List.length_singleton]
    omega
  issued := by
    have hold : ∀ id ∈ g.issued, ∃ op' ∈ h ++ [op], op'.Adds ∧ op'.id = id := by
      intro id hmem
      obtain ⟨op', hop', hadds⟩ := ha.issued id hmem
      exact ⟨op', List.mem_append_left _ hop', hadds⟩
    rcases hissued with heq | ⟨hadds, heq⟩
    · rw [heq]
      exact hold
    · rw [heq]
      intro id hmem
      rcases List.mem_append.mp hmem with hmem | hmem
      · exact hold id hmem
      · exact ⟨op, List.mem_append_right _ List.mem_cons_self, hadds,
          (List.mem_singleton.mp hmem).symm⟩
  band := hband
  ids := by
    intro op' hmem
    rcases List.mem_append.mp hmem with hmem | hmem
    · exact (ha.ids op' hmem).imp_right fun hle => hle.trans hlow
    · rw [List.mem_singleton.mp hmem]
      exact hid

/-- Ids are given out one by one, so there are fewer than 2^64. -/
theorem After.length_lt (ha : g.After h) (hn : h.length + 1 < 2 ^ 64) :
    g.issued.length < 2 ^ 64 := by
  have hle := ha.issued_le
  omega

/-- An id that was issued is none that the next new one could be. -/
theorem After.id_le (ha : g.After h) {id : OrderId} (hid : id ∈ g.issued) :
    id = 1 ∨ id.toNat ≤ g.nextId.toNat := by
  obtain ⟨op, hop, -, rfl⟩ := ha.issued id hid
  exact ha.ids op hop

/-- The id of a new order, where new ids are counted up. -/
theorem After.freshOrReused (ha : g.After h) (hn : h.length + 1 < 2 ^ 64) :
    ∃ id g', g.freshOrReused = .ok (id, g') ∧ g'.issued = g.issued ∧ g'.price = g.price ∧
      g.nextId.toNat ≤ g'.nextId.toNat ∧ g'.nextId.toNat ≤ g.nextId.toNat + 1 ∧
      (id = 1 ∨ id.toNat ≤ g'.nextId.toNat) ∧
      ((∃ earlier ∈ h, earlier.Adds ∧ earlier.id = id) ∨ id = 1 ∨
        ∀ earlier ∈ h, earlier.id < id) := by
  rcases freshOrReused_spec (ha.length_lt hn) with ⟨id, rng, heq, hid⟩ | ⟨rng, heq⟩
  · exact ⟨id, g.withRng rng, heq, rfl, rfl, le_rfl, Nat.le_succ _, ha.id_le hid,
      Or.inl (ha.issued id hid)⟩
  · have hle := ha.nextId_le
    have hnext : (g.nextId + 1).toNat = g.nextId.toNat + 1 := by
      rw [UInt64.toNat_add]
      exact Nat.mod_eq_of_lt (show g.nextId.toNat + 1 < 2 ^ 64 by omega)
    refine ⟨g.nextId + 1, { g.withRng rng with nextId := g.nextId + 1 }, heq, rfl, rfl, ?_, ?_,
      Or.inr le_rfl, Or.inr ?_⟩
    · show g.nextId.toNat ≤ (g.nextId + 1).toNat
      omega
    · exact hnext.le
    -- the first new id is 1, and later ones are above every id there was
    by_cases hfirst : g.nextId.toNat = 0
    · left
      apply UInt64.toNat_inj.mp
      rw [hnext, hfirst]
      rfl
    · right
      intro earlier hmem
      rw [UInt64.lt_iff_toNat_lt, hnext]
      rcases ha.ids earlier hmem with hone | hle'
      · rw [hone]
        show 1 < g.nextId.toNat + 1
        omega
      · omega

/-! ## One operation -/

section Branches

variable {account : Account} {side : Side}

/-- An order drawn follows the earlier operations. -/
theorem nextAdd_spec (ha : g.After h) (hn : h.length + 1 < 2 ^ 64)
    (haccount : 1 ≤ account.toNat ∧ account.toNat ≤ 4) (r : UInt64) :
    ∃ op g', g.nextAdd { account, side } r = .ok (op, g') ∧ g'.After (h ++ [op]) ∧
      op.Follows h := by
  obtain ⟨id, g₁, hid, hissued, hprice, hlow, hhigh, hle, hnew⟩ := ha.freshOrReused hn
  obtain ⟨price, rng₂, hdraw, hband⟩ := pickPrice_spec g₁
  obtain ⟨qty, rng₃, hqty, hone, hmax⟩ :=
    pickQty_spec (g₁.withRng rng₂) (n := 8) (by decide) (by decide)
  have hmax : qty.toNat ≤ 8 := hmax
  generalize hkind : (if r < 56 then Kind.limit else .market) = kind
  have hcases : kind = .limit ∨ kind = .market := by
    rw [← hkind]
    split
    · exact Or.inl rfl
    · exact Or.inr rfl
  refine ⟨{ account, side, kind, tif := if kind = .market then .ioc else
    if r < 40 then .gtc else if r < 48 then .ioc else .fok, id, price, qty },
    (g₁.withRng rng₃).remember id price, ?_, ?_, ?_⟩
  · unfold nextAdd
    dsimp only
    rw [hkind, hid, ok_bind]
    dsimp only
    rw [hdraw, ok_bind]
    dsimp only
    rw [hqty]
    rfl
  · refine ha.concat (Or.inr ⟨hcases, ?_⟩) ?_ ?_ hlow hhigh hle
    · show g₁.issued ++ [id] = g.issued ++ [id]
      rw [hissued]
    · show (g₁.price ++ [price]).length = (g₁.issued ++ [id]).length
      rw [List.length_append, List.length_append, hissued, hprice, ha.prices]
      rfl
    · show ∀ p ∈ g₁.price ++ [price], 80 ≤ p.toInt ∧ p.toInt ≤ 120
      rw [List.forall_mem_append, hprice]
      exact ⟨ha.band, List.forall_mem_singleton.mpr hband⟩
  · refine ⟨haccount, fun _ => hband, show qty.toNat ≤ 10 by omega, ?_, ?_, ?_, ?_, fun _ => hnew⟩
    · intro hcancel
      rcases hcases with h | h <;> exact absurd (h.symm.trans hcancel) (by decide)
    · intro hmarket
      refine ⟨if_pos hmarket, fun hzero => ?_⟩
      rw [show qty = 0 from hzero] at hone
      exact absurd hone (by decide)
    · exact fun hadds => absurd hcases hadds
    · exact fun hadds => absurd hcases hadds

/-- A cancel drawn follows the earlier operations. -/
theorem nextCancel_spec (ha : g.After h) (hn : h.length + 1 < 2 ^ 64)
    (haccount : 1 ≤ account.toNat ∧ account.toNat ≤ 4) :
    ∃ op g', g.nextCancel { account, side } = .ok (op, g') ∧ g'.After (h ++ [op]) ∧
      op.Follows h := by
  obtain ⟨id, rng, hid, hknown⟩ := pickIssued_spec (ha.length_lt hn) 0
  have hadds : ¬ Op.Adds { account, side, kind := .cancel, id } := by
    rintro (hkind | hkind) <;> cases hkind
  refine ⟨{ account, side, kind := .cancel, id }, g.withRng rng, ?_, ?_, ?_⟩
  · unfold nextCancel
    rw [hid]
    rfl
  · refine ha.concat (Or.inl rfl) ha.prices ha.band le_rfl (Nat.le_succ _) ?_
    rcases hknown with rfl | hknown
    · exact Or.inr (Nat.zero_le _)
    · exact ha.id_le hknown
  · exact ⟨haccount, fun hne => absurd rfl hne, Nat.zero_le _, fun _ => ⟨rfl, rfl⟩,
      fun hkind => (by cases hkind), fun _ => rfl, fun _ => hknown.imp_right (ha.issued id),
      fun h => absurd h hadds⟩

/-- The price of a modify is the one its order is known to have, or a new one. -/
theorem modifyPrice_spec (ha : g.After h) {k : UInt64}
    (hk : g.issued ≠ [] → k.toNat < g.issued.length) :
    ∃ price rng, g.modifyPrice k = .ok (price, g.withRng rng) ∧
      80 ≤ price.toInt ∧ price.toInt ≤ 120 := by
  unfold modifyPrice
  by_cases hne : g.issued = []
  · rw [if_pos (List.isEmpty_iff.mpr hne)]
    exact pickPrice_spec g
  obtain ⟨u, rng, hu, -⟩ := below_spec g.rng (n := 10) (by decide)
  rw [if_neg fun e => hne (List.isEmpty_iff.mp e), hu, ok_bind]
  dsimp only
  by_cases hkeep : u < 4
  · have hlt : k.toNat < g.price.length := ha.prices ▸ hk hne
    rw [if_pos hkeep, List.getElem?_eq_getElem hlt, orFault_some, ok_bind]
    exact ⟨_, rng, rfl, ha.band _ (List.getElem_mem hlt)⟩
  · rw [if_neg hkeep]
    exact pickPrice_spec (g.withRng rng)

/-- A modify drawn follows the earlier operations. -/
theorem nextModify_spec (ha : g.After h) (hn : h.length + 1 < 2 ^ 64)
    (haccount : 1 ≤ account.toNat ∧ account.toNat ≤ 4) :
    ∃ op g', g.nextModify { account, side } = .ok (op, g') ∧ g'.After (h ++ [op]) ∧
      op.Follows h := by
  by_cases hne : g.issued = []
  · -- nothing was issued, and id 0 is modified
    have hempty : g.issued.isEmpty = true := List.isEmpty_iff.mpr hne
    have hknown : g.pickKnown = .ok (0, g) := by
      unfold pickKnown
      rw [if_pos hempty]
      rfl
    obtain ⟨price, rng, hprice, hband⟩ := modifyPrice_spec ha (k := 0) fun h => absurd hne h
    obtain ⟨qty, rng', hqty, hone, hmax⟩ :=
      pickQty_spec (g.withRng rng) (n := 10) (by decide) (by decide)
    refine ⟨{ account, side, kind := .modify, id := 0, price, qty }, g.withRng rng', ?_, ?_, ?_⟩
    · unfold nextModify
      rw [hknown, ok_bind]
      dsimp only
      rw [if_pos hempty, pure_eq_ok, ok_bind, hprice, ok_bind]
      dsimp only
      rw [hqty, ok_bind]
      dsimp only
      rw [withRng_withRng, issued_withRng, if_pos hempty]
      rfl
    · exact ha.concat (Or.inl rfl) ha.prices ha.band le_rfl (Nat.le_succ _) (Or.inr (Nat.zero_le _))
    · exact Op.follows_of_modify rfl haccount hband hmax rfl (Or.inl rfl)
  · have hempty : ¬ g.issued.isEmpty = true := fun e => hne (List.isEmpty_iff.mp e)
    obtain ⟨k, rng₀, hknown, hk⟩ := pickKnown_spec hne (ha.length_lt hn)
    obtain ⟨price, rng, hprice, hband⟩ := modifyPrice_spec (ha.withRng rng₀) (k := k) fun _ => hk
    obtain ⟨qty, rng', hqty, hone, hmax⟩ :=
      pickQty_spec (g.withRng rng) (n := 10) (by decide) (by decide)
    have hkp : k.toNat < g.price.length := ha.prices ▸ hk
    have hmem : g.issued[k.toNat] ∈ g.issued := List.getElem_mem hk
    refine ⟨{ account, side, kind := .modify, id := g.issued[k.toNat], price, qty },
      { g.withRng rng' with price := g.price.set k.toNat price }, ?_, ?_, ?_⟩
    · unfold nextModify
      rw [hknown, ok_bind]
      dsimp only
      rw [issued_withRng, if_neg hempty, List.getElem?_eq_getElem hk, orFault_some, ok_bind, hprice,
        ok_bind]
      dsimp only
      rw [withRng_withRng, hqty, ok_bind]
      dsimp only
      rw [withRng_withRng, issued_withRng, if_neg hempty, price_withRng, require_of hkp]
      rfl
    · refine ha.concat (Or.inl rfl) ?_ ?_ le_rfl (Nat.le_succ _) (ha.id_le hmem)
      · show (g.price.set k.toNat price).length = g.issued.length
        rw [List.length_set]
        exact ha.prices
      · intro p hp
        rcases List.mem_or_eq_of_mem_set hp with hp | rfl
        · exact ha.band p hp
        · exact hband
    · exact Op.follows_of_modify rfl haccount hband hmax rfl (Or.inr (ha.issued _ hmem))

/-- An invalid operation drawn follows the earlier ones, too. -/
theorem nextInvalid_spec (ha : g.After h) (hn : h.length + 1 < 2 ^ 64)
    (haccount : 1 ≤ account.toNat ∧ account.toNat ≤ 4) :
    ∃ op g', g.nextInvalid { account, side } = .ok (op, g') ∧ g'.After (h ++ [op]) ∧
      op.Follows h := by
  obtain ⟨which, rng, hwhich, -⟩ := below_spec g.rng (n := 3) (by decide)
  have ha : (g.withRng rng).After h := ha.withRng rng
  unfold nextInvalid
  rw [hwhich, ok_bind]
  dsimp only
  show ∃ op g', (if which = 0 then (g.withRng rng).freshOrReused >>= _ else
    if which = 1 then (g.withRng rng).pickIssued 0 >>= _ else
      (g.withRng rng).pickIssued 1 >>= _) = _ ∧ _
  generalize g.withRng rng = g at ha
  by_cases hzero : which = 0
  · -- an order of quantity 0, whose id is not remembered
    obtain ⟨id, g₁, hid, hissued, hprice, hlow, hhigh, hle, hnew⟩ := ha.freshOrReused hn
    obtain ⟨price, rng₂, hdraw, hband⟩ := pickPrice_spec g₁
    rw [if_pos hzero, hid, ok_bind]
    dsimp only
    rw [hdraw, ok_bind]
    refine ⟨_, _, rfl, ?_, ?_⟩
    · refine ha.concat (Or.inl hissued) ?_ ?_ hlow hhigh hle
      · show g₁.price.length = g₁.issued.length
        rw [hissued, hprice, ha.prices]
      · show ∀ p ∈ g₁.price, 80 ≤ p.toInt ∧ p.toInt ≤ 120
        rw [hprice]
        exact ha.band
    · exact Op.follows_of_limit rfl haccount hband (Nat.zero_le _) hnew
  rw [if_neg hzero]
  by_cases hone : which = 1
  · -- a modify to quantity 0
    obtain ⟨id, rng₁, hid, hknown⟩ := pickIssued_spec (ha.length_lt hn) 0
    obtain ⟨price, rng₂, hdraw, hband⟩ := pickPrice_spec (g.withRng rng₁)
    rw [if_pos hone, hid, ok_bind]
    dsimp only
    rw [hdraw, ok_bind]
    refine ⟨_, _, rfl, ?_, ?_⟩
    · refine ha.concat (Or.inl rfl) ha.prices ha.band le_rfl (Nat.le_succ _) ?_
      rcases hknown with rfl | hknown
      · exact Or.inr (Nat.zero_le _)
      · exact ha.id_le hknown
    · exact Op.follows_of_modify rfl haccount hband (Nat.zero_le _) rfl
        (hknown.imp_right (ha.issued id))
  · -- an order under an id that was issued, and is perhaps still there
    obtain ⟨id, rng₁, hid, hknown⟩ := pickIssued_spec (ha.length_lt hn) 1
    obtain ⟨price, rng₂, hdraw, hband⟩ := pickPrice_spec (g.withRng rng₁)
    obtain ⟨qty, rng₃, hqty, -, hmax⟩ :=
      pickQty_spec (g.withRng rng₂) (n := 8) (by decide) (by decide)
    have hmax : qty.toNat ≤ 8 := hmax
    rw [if_neg hone, hid, ok_bind]
    dsimp only
    rw [hdraw, ok_bind]
    dsimp only
    rw [withRng_withRng, hqty, ok_bind]
    refine ⟨_, _, rfl, ?_, ?_⟩
    · refine ha.concat (Or.inl rfl) ha.prices ha.band le_rfl (Nat.le_succ _) ?_
      rcases hknown with rfl | hknown
      · exact Or.inl rfl
      · exact ha.id_le hknown
    · refine Op.follows_of_limit rfl haccount hband (show qty.toNat ≤ 10 by omega) ?_
      rcases hknown with rfl | hknown
      · exact Or.inr (Or.inl rfl)
      · exact Or.inl (ha.issued id hknown)

end Branches

/-- **One operation** of the stream. -/
theorem next_spec (ha : g.After h) (hn : h.length + 1 < 2 ^ 64) :
    ∃ op g', g.next = .ok (op, g') ∧ g'.After (h ++ [op]) ∧ op.Follows h := by
  obtain ⟨a, rng₁, haccount, hlt⟩ := below_spec g.rng (n := 4) (by decide)
  obtain ⟨coin, rng₂, hcoin, -⟩ := below_spec rng₁ (n := 2) (by decide)
  obtain ⟨r, rng₃, hr, -⟩ := below_spec rng₂ (n := 100) (by decide)
  have hlt : a.toNat < 4 := hlt
  have hone := toNat_one_add (q := a) (by omega)
  have hfour : 1 ≤ (1 + a.toUInt32).toNat ∧ (1 + a.toUInt32).toNat ≤ 4 := by omega
  have ha : (g.withRng rng₃).After h := ha.withRng rng₃
  unfold next
  rw [haccount, ok_bind]
  dsimp only
  rw [hcoin, ok_bind]
  dsimp only
  rw [hr, ok_bind]
  show ∃ op g', dispatch (g.withRng rng₃) _ r = _ ∧ _
  unfold dispatch
  by_cases hadd : r < 62
  · rw [if_pos hadd]
    exact nextAdd_spec ha hn hfour r
  rw [if_neg hadd]
  by_cases hcancel : r < 79
  · rw [if_pos hcancel]
    exact nextCancel_spec ha hn hfour
  rw [if_neg hcancel]
  by_cases hmodify : r < 97
  · rw [if_pos hmodify]
    exact nextModify_spec ha hn hfour
  · rw [if_neg hmodify]
    exact nextInvalid_spec ha hn hfour

/-- The operations of the stream from here on. -/
theorem draw_spec : ∀ (n : ℕ) (g : Generator) (h : List Op), g.After h → h.length + n < 2 ^ 64 →
    ∃ ops g', g.draw n = .ok (ops, g') ∧ g'.After (h ++ ops) ∧ ops.length = n ∧
      ∀ (k : ℕ) (op : Op), ops[k]? = some op → op.Follows (h ++ ops.take k) := by
  intro n
  induction n with
  | zero =>
    intro g h ha _
    refine ⟨[], g, rfl, ?_, rfl, ?_⟩
    · rw [List.append_nil]
      exact ha
    · intro k op hop
      rw [List.getElem?_nil] at hop
      cases hop
  | succ n ih =>
    intro g h ha hn
    obtain ⟨op, g₁, hnext, ha₁, hop⟩ := next_spec ha (by omega)
    have hlen : (h ++ [op]).length + n < 2 ^ 64 := by
      rw [List.length_append, List.length_singleton]
      omega
    obtain ⟨ops, g₂, hdraw, ha₂, hlength, hops⟩ := ih g₁ (h ++ [op]) ha₁ hlen
    rw [List.append_assoc] at ha₂
    refine ⟨op :: ops, g₂, ?_, ha₂, congrArg (· + 1) hlength, ?_⟩
    · rw [draw, hnext, ok_bind]
      dsimp only
      rw [hdraw]
      rfl
    · intro k op' hop'
      cases k with
      | zero =>
        rw [List.getElem?_cons_zero, Option.some_inj] at hop'
        rw [List.take_zero, List.append_nil, ← hop']
        exact hop
      | succ k =>
        have hrest := hops k op' hop'
        rw [List.append_assoc] at hrest
        exact hrest

/-- The stream can be drawn to any length. -/
theorem draw_new (seed n : UInt64) :
    ∃ ops g, (new seed).draw n.toNat = .ok (ops, g) ∧ g.After ops ∧ ops.length = n.toNat ∧
      ∀ (k : ℕ) (op : Op), ops[k]? = some op → op.Follows (ops.take k) := by
  have hn : ([] : List Op).length + n.toNat < 2 ^ 64 := by
    rw [List.length_nil, Nat.zero_add]
    exact n.toNat_lt
  exact draw_spec n.toNat (new seed) [] (after_new seed) hn

end Generator

/-! ## Commands -/

/-- The command of an operation has defaults in the fields its kind does not use. -/
theorem canonical_toCommand (op : Op) : Journal.Canonical (toCommand op) := by
  unfold toCommand
  cases op.kind <;> rfl

theorem qty_toCommand_le {n : ℕ} (h : op.qty.toNat ≤ n) : (toCommand op).qty.toNat ≤ n := by
  unfold toCommand
  cases op.kind with
  | limit => exact h
  | market => exact h
  | cancel => exact Nat.zero_le _
  | modify => exact h

/-- The commands made are those of the operations drawn. -/
theorem make_eq {seed n : UInt64} {ops : List Op} {g : Generator}
    (h : (Generator.new seed).draw n.toNat = .ok (ops, g)) :
    make seed n = .ok (ops.map toCommand) := by
  unfold make
  rw [h]
  rfl

/-- `make` ends with as many commands as asked for. -/
theorem make_spec (seed n : UInt64) :
    ∃ cmds, make seed n = .ok cmds ∧ cmds.length = n.toNat ∧ (∀ c ∈ cmds, Journal.Canonical c) ∧
      ∀ c ∈ cmds, c.qty.toNat ≤ 10 := by
  obtain ⟨ops, g, hdraw, -, hlength, hops⟩ := Generator.draw_new seed n
  refine ⟨ops.map toCommand, make_eq hdraw, ?_, ?_, ?_⟩
  · rw [List.length_map, hlength]
  · rw [List.forall_mem_map]
    exact fun op _ => canonical_toCommand op
  · rw [List.forall_mem_map]
    intro op hop
    obtain ⟨k, hk⟩ := List.getElem?_of_mem hop
    exact qty_toCommand_le (hops k op hk).qty

/-- **The stream** can be drawn to any length, every operation of it follows from those before,
and its commands are those a journal can carry. -/
theorem stream_spec (seed n : UInt64) :
    ∃ ops g, (Generator.new seed).draw n.toNat = .ok (ops, g) ∧
      make seed n = .ok (ops.map toCommand) ∧ ops.length = n.toNat ∧
      (∀ (k : ℕ) (op : Op), ops[k]? = some op → op.Follows (ops.take k)) ∧
      ∀ op ∈ ops, Journal.Canonical (toCommand op) := by
  obtain ⟨ops, g, hdraw, -, hlength, hops⟩ := Generator.draw_new seed n
  exact ⟨ops, g, hdraw, make_eq hdraw, hlength, hops, fun op _ => canonical_toCommand op⟩

end Diff

end MatchingEngine
