import MatchingEngine.Bench.Workload
import MatchingEngine.Library.HarmonicSum

/-!
# What the generator draws

The Zipf table holds the partial sums of the weights of the ranks, and no sum wraps around
(`zipfCdf_eq`). The counter of the loop that fills it does, if the last rank is the largest
32-bit number, and the loop then divides by zero (`zipfCdf_max`).

A limit order is drawn without a fault, with a price and a quantity in range
(`drawLimit_spec`).
-/

namespace MatchingEngine

namespace Bench

open HarmonicSum

/-! ## The Zipf table -/

/-- The weight of the ranks 1 to `n`. -/
def zipfSum (n : ℕ) : ℕ := harmonic (2 ^ 40) n

/-- The first `n` entries of the table. -/
def zipfTable (n : ℕ) : List UInt64 := (List.range n).map fun i => UInt64.ofNat (zipfSum (i + 1))

/-- The sum of the weights stays below 2^64 for every 32-bit rank. -/
theorem zipfSum_lt {n : ℕ} (h : n < 2 ^ 32) : zipfSum n < 2 ^ 64 := by
  have hle : zipfSum n ≤ (32 + 1) * 2 ^ 40 := harmonic_le (2 ^ 40) h.le
  omega

theorem toNat_zipfSum {n : ℕ} (h : n < 2 ^ 32) : (UInt64.ofNat (zipfSum n)).toNat = zipfSum n :=
  UInt64.toNat_ofNat_of_lt' (zipfSum_lt h)

/-- The cumulative weights grow. -/
theorem zipfSum_mono {m n : ℕ} (h : m ≤ n) : zipfSum m ≤ zipfSum n := harmonic_mono (2 ^ 40) h

theorem zipfSum_succ (n : ℕ) : zipfSum (n + 1) = zipfSum n + 2 ^ 40 / (n + 1) :=
  harmonic_succ (2 ^ 40) n

theorem zipfSum_pos {n : ℕ} (h : 0 < n) : 0 < zipfSum n := by
  have hle : zipfSum (0 + 1) ≤ zipfSum n := zipfSum_mono h
  have hone : zipfSum (0 + 1) = zipfSum 0 + 2 ^ 40 / (0 + 1) := zipfSum_succ 0
  omega

theorem zipfSum_ne {n : ℕ} (hpos : 0 < n) (h : n < 2 ^ 32) : UInt64.ofNat (zipfSum n) ≠ 0 := by
  intro e
  have hsum : 0 < zipfSum n := zipfSum_pos hpos
  have hzero := congrArg UInt64.toNat e
  rw [toNat_zipfSum h, UInt64.toNat_zero] at hzero
  omega

@[simp] theorem length_zipfTable (n : ℕ) : (zipfTable n).length = n := by simp [zipfTable]

theorem zipfTable_succ (n : ℕ) :
    zipfTable (n + 1) = zipfTable n ++ [UInt64.ofNat (zipfSum (n + 1))] := by
  rw [zipfTable, List.range_succ, List.map_append]
  rfl

/-- One round of the loop adds one weight. -/
theorem zipfCdfFrom_succ {n : UInt32} {k : ℕ} (h : k < n.toNat) (fuel : ℕ) :
    zipfCdfFrom n (fuel + 1) (UInt32.ofNat (k + 1)) (UInt64.ofNat (zipfSum k))
        (zipfTable k ++ List.replicate (n.toNat - k) 0) =
      zipfCdfFrom n fuel (UInt32.ofNat (k + 1 + 1)) (UInt64.ofNat (zipfSum (k + 1)))
        (zipfTable (k + 1) ++ List.replicate (n.toNat - (k + 1)) 0) := by
  have hn : n.toNat < 2 ^ 32 := n.toNat_lt
  have hk : (UInt32.ofNat (k + 1)).toNat = k + 1 :=
    UInt32.toNat_ofNat_of_lt' (show k + 1 < 2 ^ 32 by omega)
  have hle : UInt32.ofNat (k + 1) ≤ n := by
    rw [UInt32.le_iff_toNat_le, hk]
    exact h
  have hone : 1 ≤ UInt32.ofNat (k + 1) := by
    rw [UInt32.le_iff_toNat_le, hk]
    show 1 ≤ k + 1
    omega
  have hne : UInt32.ofNat (k + 1) ≠ 0 := fun e => by
    rw [e] at hone
    exact absurd hone (by decide)
  have hpos : (UInt32.ofNat (k + 1) - 1).toNat = k := by
    rw [UInt32.toNat_sub_of_le _ _ hone, hk]
    show k + 1 - 1 = k
    omega
  have hsum : UInt64.ofNat (zipfSum k) + ((1 : UInt64) <<< 40) / (UInt32.ofNat (k + 1)).toUInt64 =
      UInt64.ofNat (zipfSum (k + 1)) := by
    apply UInt64.toNat_inj.mp
    have hlt : zipfSum (k + 1) < 2 ^ 64 := zipfSum_lt (by omega)
    have hweight : ((1 : UInt64) <<< 40).toNat = 2 ^ 40 := rfl
    rw [UInt64.toNat_add, UInt64.toNat_div, UInt32.toNat_toUInt64, hk, hweight,
      toNat_zipfSum (by omega), toNat_zipfSum (by omega), ← zipfSum_succ, Nat.mod_eq_of_lt hlt]
  have hset : (zipfTable k ++ List.replicate (n.toNat - k) 0).set k
      (UInt64.ofNat (zipfSum (k + 1))) =
      zipfTable (k + 1) ++ List.replicate (n.toNat - (k + 1)) 0 := by
    have hleft : n.toNat - k = n.toNat - (k + 1) + 1 := by omega
    rw [List.set_append_right _ _ (length_zipfTable k).le, length_zipfTable, Nat.sub_self, hleft,
      List.replicate_succ, List.set_cons_zero, zipfTable_succ, List.append_assoc]
    rfl
  have hlen : k < (zipfTable k ++ List.replicate (n.toNat - k) 0).length := by
    rw [List.length_append, length_zipfTable, List.length_replicate]
    omega
  have hnext : UInt32.ofNat (k + 1) + 1 = UInt32.ofNat (k + 1 + 1) := (UInt32.ofNat_add _ 1).symm
  rw [zipfCdfFrom, if_pos hle, require_of hne, ok_bind, hpos, require_of hlen, ok_bind, hsum, hset,
    hnext]

/-- The loop makes a round for every rank, and then looks at the counter once more. -/
theorem zipfCdf_rounds (n : UInt32) :
    zipfCdf n = zipfCdfFrom n 2 (UInt32.ofNat (n.toNat + 1)) (UInt64.ofNat (zipfSum n.toNat))
      (zipfTable n.toNat) := by
  -- from rank `k + 1` on, with `j` rounds to go
  have hrounds : ∀ j k, k + j = n.toNat →
      zipfCdfFrom n (j + 2) (UInt32.ofNat (k + 1)) (UInt64.ofNat (zipfSum k))
        (zipfTable k ++ List.replicate (n.toNat - k) 0) =
      zipfCdfFrom n 2 (UInt32.ofNat (n.toNat + 1)) (UInt64.ofNat (zipfSum n.toNat))
        (zipfTable n.toNat) := by
    intro j
    induction j with
    | zero =>
      intro k hk
      rw [Nat.add_zero] at hk
      rw [hk, Nat.sub_self, List.replicate_zero, List.append_nil]
    | succ j ih =>
      intro k hk
      have hfuel : j + 1 + 2 = j + 2 + 1 := by omega
      rw [hfuel, zipfCdfFrom_succ (by omega)]
      exact ih (k + 1) (by omega)
  exact hrounds n.toNat 0 (Nat.zero_add _)

/-- The table ends for every offset but the largest. -/
theorem zipfCdf_eq {n : UInt32} (h : n ≠ 0xFFFFFFFF) : zipfCdf n = .ok (zipfTable n.toNat) := by
  have hn : n.toNat < 2 ^ 32 := n.toNat_lt
  have hmax : n.toNat ≠ 2 ^ 32 - 1 := fun e => h (UInt32.toNat_inj.mp e)
  have hend : (UInt32.ofNat (n.toNat + 1)).toNat = n.toNat + 1 :=
    UInt32.toNat_ofNat_of_lt' (show n.toNat + 1 < 2 ^ 32 by omega)
  have hover : ¬ UInt32.ofNat (n.toNat + 1) ≤ n := by
    rw [UInt32.le_iff_toNat_le, hend]
    omega
  rw [zipfCdf_rounds, zipfCdfFrom, if_neg hover]
  rfl

/-- The counter wraps around to rank 0. -/
theorem zipfCdf_max : zipfCdf 0xFFFFFFFF = .error .divisionByZero := by
  rw [zipfCdf_rounds]
  generalize zipfTable (0xFFFFFFFF : UInt32).toNat = cdf
  generalize UInt64.ofNat (zipfSum (0xFFFFFFFF : UInt32).toNat) = sum
  rfl

/-! ## Looking up a rank -/

/-- The table is sorted, so a binary search in it is sound. -/
theorem zipfTable_sorted {n : ℕ} (h : n < 2 ^ 32) : (zipfTable n).Pairwise (· ≤ ·) := by
  rw [zipfTable, List.pairwise_map]
  refine List.pairwise_lt_range.imp_of_mem fun {i j} hi hj hij => ?_
  rw [List.mem_range] at hi hj
  rw [UInt64.le_iff_toNat_le, toNat_zipfSum (by omega), toNat_zipfSum (by omega)]
  exact zipfSum_mono (by omega)

/-- A sorted range is partitioned by every value. -/
theorem upperBound_of_sorted {l : List UInt64} {u last : UInt64} (h : l.Pairwise (· ≤ ·))
    (hlast : last ∈ l) (hu : u < last) : ∃ pos, upperBound l u = .ok pos ∧ pos < l.length := by
  have hpos : l.findIdx (fun x => u < x) < l.length :=
    List.findIdx_lt_length_of_exists ⟨last, hlast, decide_eq_true hu⟩
  have hfirst : u < l[l.findIdx fun x => u < x] :=
    of_decide_eq_true (List.findIdx_getElem (w := hpos))
  have hbehind : ∀ x ∈ l.drop (l.findIdx fun x => u < x), u < x := by
    rw [List.drop_eq_getElem_cons hpos, List.forall_mem_cons]
    have hdrop := h.sublist (List.drop_sublist (l.findIdx fun x => u < x) l)
    rw [List.drop_eq_getElem_cons hpos, List.pairwise_cons] at hdrop
    exact ⟨hfirst, fun x hx => UInt64.lt_of_lt_of_le hfirst (hdrop.1 x hx)⟩
  have hall : ((l.drop (l.findIdx fun x => u < x)).all fun x => u < x) = true :=
    List.all_eq_true.mpr fun x hx => decide_eq_true (hbehind x hx)
  refine ⟨_, ?_, hpos⟩
  unfold upperBound
  dsimp only
  rw [require_of hall]
  rfl

theorem getLast?_zipfTable {n : ℕ} (h : 0 < n) :
    (zipfTable n).getLast? = some (UInt64.ofNat (zipfSum n)) := by
  obtain ⟨m, rfl⟩ := Nat.exists_eq_add_one_of_ne_zero h.ne'
  rw [zipfTable_succ, List.getLast?_concat]

/-! ## Draws -/

/-- A draw below `n`. -/
theorem below_spec (rng : Rng) {n : UInt64} (h : n ≠ 0) :
    ∃ u rng', rng.below n = .ok (u, rng') ∧ u.toNat < n.toNat := by
  have hn : 0 < n.toNat := Nat.pos_of_ne_zero fun e => h (UInt64.toNat_inj.mp e)
  refine ⟨rng.next.1 % n, rng.next.2, ?_, ?_⟩
  · unfold Rng.below
    rw [require_of h]
    rfl
  · rw [UInt64.toNat_mod]
    exact Nat.mod_lt _ hn

theorem inInt64_spec {n : ℤ} (hlow : -2 ^ 63 ≤ n) (hhigh : n < 2 ^ 63) :
    ∃ v, inInt64 n = .ok v ∧ v.toInt = n := by
  have hmin : Int64.minValue.toInt = -2 ^ 63 := rfl
  have hmax : Int64.maxValue.toInt = 2 ^ 63 - 1 := rfl
  have hrange : Int64.minValue.toInt ≤ n ∧ n ≤ Int64.maxValue.toInt := by omega
  refine ⟨Int64.ofInt n, ?_, Int64.toInt_ofInt_of_le hlow hhigh⟩
  unfold inInt64
  rw [require_of hrange]
  rfl

/-- Parameters with something to draw, a shift that is a rank, and prices that do not
overflow. -/
structure W1Params.Ok (p : W1Params) : Prop where
  maxOffset : 1 ≤ p.maxOffset
  maxQty : 1 ≤ p.maxQty
  targetResting : 1 ≤ p.targetResting
  crossShift : p.crossShift ≤ p.maxOffset
  low : -2 ^ 63 ≤ p.mid.toInt - p.maxOffset.toNat
  high : p.mid.toInt + p.maxOffset.toNat < 2 ^ 63

/-- A quantity and a price as a limit order may have them. -/
structure Cmd.InRange (p : W1Params) (c : Cmd) : Prop where
  one_le_qty : 1 ≤ c.qty
  qty_le : c.qty ≤ p.maxQty
  low : p.mid.toInt - p.maxOffset.toNat ≤ c.price.toInt
  high : c.price.toInt ≤ p.mid.toInt + p.maxOffset.toNat

/-- Nothing is cancelled while nothing rests. -/
theorem drawCancels_spec {p : W1Params} (hp : p.Ok) (live : List OrderId) (rng : Rng) :
    ∃ cancels rng', drawCancels p live rng = .ok (cancels, rng') ∧
      (cancels = true → live ≠ []) := by
  have htarget : p.targetResting ≠ 0 := fun e => by
    have h := hp.targetResting
    rw [e] at h
    exact absurd h (by decide)
  unfold drawCancels cancelPpm
  rw [require_of htarget]
  simp only [ok_bind, pure_eq_ok]
  cases live with
  | nil => exact ⟨false, rng, rfl, fun h => absurd h (by decide)⟩
  | cons id live =>
    obtain ⟨u, rng', hu, -⟩ := below_spec rng (n := kPpm) (by decide)
    simp only [List.isEmpty_cons, Bool.false_eq_true, if_false, hu, ok_bind]
    exact ⟨_, rng', rfl, fun _ => List.cons_ne_nil id live⟩

/-- A sorted table with a weight for each rank gives offsets between its bounds. -/
theorem drawOffset_of_sorted {p : W1Params} (hshift : p.crossShift.toNat ≤ p.maxOffset.toNat)
    {cdf : List UInt64} {total : UInt64} (hsorted : cdf.Pairwise (· ≤ ·))
    (hlength : cdf.length = p.maxOffset.toNat) (hlast : cdf.getLast? = some total)
    (htotal : total ≠ 0) (rng : Rng) :
    ∃ offset rng', drawOffset p cdf rng = .ok (offset, rng') ∧
      -(p.maxOffset.toNat : ℤ) ≤ offset.toInt ∧ offset.toInt ≤ p.maxOffset.toNat := by
  have hn : p.maxOffset.toNat < 2 ^ 32 := p.maxOffset.toNat_lt
  obtain ⟨u, rng', hu, hlt⟩ := below_spec rng htotal
  obtain ⟨pos, hpos, hin⟩ := upperBound_of_sorted hsorted (List.mem_of_getLast? hlast)
    (UInt64.lt_iff_toNat_lt.mpr hlt)
  rw [hlength] at hin
  obtain ⟨rank, hrank, hrankInt⟩ := inInt64_spec (n := (pos : ℤ) + 1) (by omega) (by omega)
  obtain ⟨offset, hoffset, hoffsetInt⟩ :=
    inInt64_spec (n := rank.toInt - p.crossShift.toNat) (by omega) (by omega)
  refine ⟨offset, rng', ?_, by omega, by omega⟩
  unfold drawOffset
  rw [hlast, orFault_some, ok_bind, hu, ok_bind]
  dsimp only
  rw [hpos, ok_bind, hrank, ok_bind, hoffset, ok_bind, pure_eq_ok]

/-- An offset is drawn within the span. -/
theorem drawOffset_spec {p : W1Params} (hp : p.Ok) (rng : Rng) :
    ∃ offset rng', drawOffset p (zipfTable p.maxOffset.toNat) rng = .ok (offset, rng') ∧
      -(p.maxOffset.toNat : ℤ) ≤ offset.toInt ∧ offset.toInt ≤ p.maxOffset.toNat := by
  have hn : p.maxOffset.toNat < 2 ^ 32 := p.maxOffset.toNat_lt
  have hone : 1 ≤ p.maxOffset.toNat := UInt32.le_iff_toNat_le.mp hp.maxOffset
  apply drawOffset_of_sorted
  · exact UInt32.le_iff_toNat_le.mp hp.crossShift
  · exact zipfTable_sorted hn
  · exact length_zipfTable _
  · exact getLast?_zipfTable hone
  · exact zipfSum_ne hone hn

/-- The price stays within the span around `mid`. -/
theorem priceAt_spec {p : W1Params} (hp : p.Ok) (side : Side) {offset : Int64}
    (hlow : -(p.maxOffset.toNat : ℤ) ≤ offset.toInt) (hhigh : offset.toInt ≤ p.maxOffset.toNat) :
    ∃ price, priceAt p side offset = .ok price ∧
      p.mid.toInt - p.maxOffset.toNat ≤ price.toInt ∧
      price.toInt ≤ p.mid.toInt + p.maxOffset.toNat := by
  have h₁ := hp.low
  have h₂ := hp.high
  cases side with
  | buy =>
    obtain ⟨price, heq, hprice⟩ :=
      inInt64_spec (n := p.mid.toInt - offset.toInt) (by omega) (by omega)
    exact ⟨price, heq, by omega, by omega⟩
  | sell =>
    obtain ⟨price, heq, hprice⟩ :=
      inInt64_spec (n := p.mid.toInt + offset.toInt) (by omega) (by omega)
    exact ⟨price, heq, by omega, by omega⟩

/-- **The limit orders that are drawn** are in range. -/
theorem drawLimit_spec {p : W1Params} (hp : p.Ok) (id : OrderId) (rng : Rng) :
    ∃ c rng', drawLimit p (zipfTable p.maxOffset.toNat) id rng = .ok (c, rng') ∧
      c.kind = .limit ∧ c.id = id ∧ c.account = id.toUInt32 ∧ c.InRange p := by
  have hmax : 1 ≤ p.maxQty.toNat := UInt32.le_iff_toNat_le.mp hp.maxQty
  have hlt : p.maxQty.toNat < 2 ^ 32 := p.maxQty.toNat_lt
  have hne : p.maxQty.toUInt64 ≠ 0 := fun e => by
    have hzero := congrArg UInt64.toNat e
    rw [UInt32.toNat_toUInt64, UInt64.toNat_zero] at hzero
    omega
  obtain ⟨coin, rng₁, hcoin, -⟩ := below_spec rng (n := 2) (by decide)
  obtain ⟨offset, rng₂, hoffset, hlow, hhigh⟩ := drawOffset_spec hp rng₁
  obtain ⟨price, hprice, hprices⟩ := priceAt_spec hp (if coin = 0 then .buy else .sell) hlow hhigh
  obtain ⟨q, rng₃, hq, hqlt⟩ := below_spec rng₂ hne
  rw [UInt32.toNat_toUInt64] at hqlt
  have hqty : (q + 1).toUInt32.toNat = q.toNat + 1 := by
    rw [UInt64.toNat_toUInt32, UInt64.toNat_add]
    show (q.toNat + 1) % 2 ^ 64 % 2 ^ 32 = q.toNat + 1
    omega
  refine
    ⟨⟨.limit, if coin = 0 then .buy else .sell, id, price, (q + 1).toUInt32, id.toUInt32⟩, rng₃,
    ?_, rfl, rfl, rfl, ⟨?_, ?_, hprices.1, hprices.2⟩⟩
  · unfold drawLimit
    simp only [ok_bind, hcoin, hoffset, hprice, hq, pure_eq_ok]
  · rw [UInt32.le_iff_toNat_le, hqty]
    show 1 ≤ q.toNat + 1
    omega
  · rw [UInt32.le_iff_toNat_le, hqty]
    exact hqlt

end Bench

end MatchingEngine
