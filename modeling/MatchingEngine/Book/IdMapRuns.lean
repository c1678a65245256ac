import MatchingEngine.Book.IdMapTheorems
import MatchingEngine.Library.PriorityList
import MatchingEngine.Library.Run

/-!
# The id map — runs

A run of calls on an id map, next to what the map is for: a list of entries in the order of
their latest insertion (`Entries`). As long as the caller keeps to the rule of `insert`, every
reply is that of the list (`calls_are_those_of_a_finite_map`), and the table is the one that the
entries of the list would have made on their own (`erase_leaves_no_trace`).

The hash is any function: with one whose values are below the number of slots, `home` is any
function from ids to slots.
-/

namespace MatchingEngine

open LinearProbing Run

/-! ## Calls -/

/-- A call on the map. -/
inductive MapCall where
  | find (id : OrderId)
  | contains (id : OrderId)
  | insert (id : OrderId) (handle : Handle)
  | erase (id : OrderId)
deriving DecidableEq

/-- What a call returns. -/
inductive MapReply where
  | handle (found : Option Handle)
  | flag (b : Bool)
  | done
deriving DecidableEq

variable {hash : OrderId → UInt64}

/-- One call: the reply, and `size()` after it. -/
def IdMap.call (m : IdMap hash) : MapCall → Checked (IdMap hash × MapReply × ℕ)
  | .find id => do return (m, .handle (← m.find id), m.size)
  | .contains id => do return (m, .flag (← m.contains id), m.size)
  | .insert id handle => do
    let m ← m.insert id handle
    return (m, .done, m.size)
  | .erase id => do
    let (ok, m) ← m.erase id
    return (m, .flag ok, m.size)

/-! ## Entries -/

/-- What is stored, in the order of the latest insertions. -/
abbrev Entries := List (OrderId × Handle)

namespace Entries

/-- A call on the list of entries, with its reply and the size after it. -/
def call (l : Entries) : MapCall → Entries × MapReply × ℕ
  | .find id => (l, .handle (l.lookup id), l.length)
  | .contains id => (l, .flag (l.lookup id).isSome, l.length)
  | .insert id handle => (l ++ [(id, handle)], .done, l.length + 1)
  | .erase id =>
    (l.filter fun e => e.1 != id, .flag (l.lookup id).isSome,
      (l.filter fun e => e.1 != id).length)

/-- The rule of `insert`: the id is absent, the handle is valid and there is room. -/
def Legal (maxEntries : Index) (l : Entries) : MapCall → Prop
  | .insert id handle => l.lookup id = none ∧ handle.valid = true ∧ l.length < maxEntries.toNat
  | _ => True

/-- The ids of the entries. -/
def keys (l : Entries) : List OrderId := l.map Prod.fst

/-- The entry of `id` came before the entry of `id'`. -/
def Before (l : Entries) (id id' : OrderId) : Prop := [id, id'].Sublist l.keys

variable {l : Entries} {id id' : OrderId} {h : Handle}

/-- An id is not found if it has no entry. -/
theorem lookup_eq_none : l.lookup id = none ↔ id ∉ l.keys := by
  rw [List.lookup_eq_none_iff, keys, List.mem_map]
  constructor
  · rintro hne ⟨e, he, rfl⟩
    simpa using hne e he
  · intro hno e he
    simp only [bne_iff_ne]
    exact fun heq => hno ⟨e, he, heq.symm⟩

/-- An id is found with the handle of its entry. -/
theorem lookup_eq_some (hnd : l.keys.Nodup) : l.lookup id = some h ↔ (id, h) ∈ l := by
  rw [List.lookup_eq_some_iff]
  constructor
  · rintro ⟨as, bs, rfl, -⟩
    simp
  · intro hmem
    obtain ⟨as, bs, rfl⟩ := List.append_of_mem hmem
    refine ⟨as, bs, rfl, fun e he => ?_⟩
    rw [keys, List.map_append, List.map_cons, List.nodup_append] at hnd
    have hne := hnd.2.2 e.1 (List.mem_map_of_mem he) id List.mem_cons_self
    simpa using Ne.symm hne

/-- An order of coming is well-founded. -/
theorem wellFounded_before (hnd : l.keys.Nodup) : WellFounded l.Before := by
  refine Subrelation.wf (r := InvImage (· < ·) fun id => l.keys.idxOf id) ?_
    (InvImage.wf _ wellFounded_lt)
  intro id id' hbefore
  obtain ⟨as, bs, heq, hid, hid'⟩ := List.cons_sublist_iff.mp hbefore
  have hmem : id' ∈ bs := List.singleton_sublist.mp hid'
  have hnot : id' ∉ as := fun hm => by
    rw [heq, List.nodup_append] at hnd
    exact hnd.2.2 id' hm id' hmem rfl
  show l.keys.idxOf id < l.keys.idxOf id'
  rw [heq, List.idxOf_append_of_mem hid, List.idxOf_append_of_notMem hnot]
  have := List.idxOf_lt_length_of_mem hid
  omega

/-- An insert adds its key at the end. -/
theorem keys_insert (l : Entries) (id : OrderId) (h : Handle) :
    keys (l ++ [(id, h)]) = l.keys ++ [id] := List.map_append

/-- An erase takes its key out. -/
theorem keys_erase (l : Entries) (id : OrderId) :
    keys (l.filter fun e => e.1 != id) = l.keys.filter (· != id) := by
  rw [keys, keys, List.filter_map]
  rfl

/-- An erase takes out one entry. -/
theorem length_erase (hnd : l.keys.Nodup) (hid : id ∈ l.keys) :
    (l.filter fun e => e.1 != id).length + 1 = l.length := by
  have hlen : (l.filter fun e => e.1 != id).length = (l.keys.erase id).length := by
    rw [hnd.erase_eq_filter, ← keys_erase, keys, List.length_map]
  have hkeys : l.keys.length = l.length := List.length_map ..
  have hpos : 0 < l.keys.length := List.length_pos_of_mem hid
  rw [hlen, List.length_erase_of_mem hid]
  omega

/-- An insert changes nothing of the order of the others. -/
theorem before_insert (h : Handle) {a b : OrderId} (hab : l.Before a b) :
    Before (l ++ [(id, h)]) a b := by
  rw [Before, keys_insert]
  exact hab.trans (List.sublist_append_left ..)

/-- What is inserted comes last. -/
theorem before_last (h : Handle) {a : OrderId} (ha : a ∈ l.keys) :
    Before (l ++ [(id, h)]) a id := by
  rw [Before, keys_insert]
  exact (List.singleton_sublist.mpr ha).append (List.Sublist.refl [id])

/-- An erase changes nothing of the order of the others. -/
theorem before_erase (hnd : l.keys.Nodup) {a b : OrderId} (hab : l.Before a b)
    (ha : a ≠ id) (hb : b ≠ id) : Before (l.filter fun e => e.1 != id) a b := by
  rw [Before, keys_erase]
  refine PriorityList.pair_sublist List.filter_sublist hnd hab ?_ ?_
  · exact List.mem_filter.mpr ⟨hab.subset List.mem_cons_self, by simpa using ha⟩
  · exact List.mem_filter.mpr ⟨hab.subset (by simp), by simpa using hb⟩

end Entries

/-! ## The map stores the entries -/

namespace IdMap

variable {m m' : IdMap hash} {l : Entries} {id : OrderId} {h : Handle} {maxEntries : Index}

/-- The map stores the entries `l`, each where those before it left room for it. -/
structure Stores (maxEntries : Index) (m : IdMap hash) (l : Entries) : Prop where
  ok : m.Ok
  slots : m.table.size = tableSlots maxEntries
  maps : ∀ id h, m.Maps id h ↔ (id, h) ∈ l
  nodup : l.keys.Nodup
  size : m.size = l.length
  room : l.length ≤ maxEntries.toNat
  settled : Settled m.table.size m.home l.Before m.view

/-- Maps of one shape have the same home slots. -/
theorem home_eq (hm : m.Shape) (hm' : m'.Shape) (hsize : m'.table.size = m.table.size) :
    m'.home = m.home := by
  have h := hm.mask
  have h' := hm'.mask
  have hmask : m'.mask = m.mask := by omega
  funext id
  rw [home, home, hmask]

namespace Stores

theorem lookup (hs : m.Stores maxEntries l) : l.lookup id = some h ↔ m.Maps id h := by
  rw [hs.maps, Entries.lookup_eq_some hs.nodup]

/-- `find` returns the entry of the list. -/
theorem find (hs : m.Stores maxEntries l) (id : OrderId) : m.find id = .ok (l.lookup id) := by
  cases hl : l.lookup id with
  | none =>
    refine find_eq_none hs.ok fun h hmaps => ?_
    rw [hs.lookup.mpr hmaps] at hl
    cases hl
  | some h => exact find_eq_some hs.ok (hs.lookup.mp hl)

/-- **Insert** puts an entry behind the others. -/
theorem insert (hs : m.Stores maxEntries l) (habsent : l.lookup id = none) (hv : h.valid = true)
    (hroom : l.length < maxEntries.toNat) :
    ∃ m', m.insert id h = .ok m' ∧ m'.Stores maxEntries (l ++ [(id, h)]) := by
  have hnone : ∀ h, ¬ m.Maps id h := fun h hmaps => by
    rw [hs.lookup.mpr hmaps] at habsent
    cases habsent
  have hsize : m.size < m.table.size / 2 := by
    obtain ⟨_, _, _, _, hle⟩ := tableSlots_eq maxEntries
    rw [hs.size, hs.slots]
    omega
  obtain ⟨m', heq, hok, hcount, htable, hmaps⟩ := insert_spec hs.ok hnone hv hsize
  obtain ⟨p, hp, hempty, hpath, heq'⟩ := insert_eq hs.ok id hv hsize
  refine ⟨m', heq, hok, htable.trans hs.slots, fun id' h' => ?_, ?_, ?_, ?_, ?_⟩
  · rw [hmaps, hs.maps, List.mem_append, List.mem_singleton, Prod.mk.injEq, or_comm]
  · rw [Entries.keys_insert, List.nodup_append]
    refine ⟨hs.nodup, List.nodup_singleton id, fun a ha b hb => ?_⟩
    rw [List.mem_singleton.mp hb]
    exact ne_of_mem_of_not_mem ha (Entries.lookup_eq_none.mp habsent)
  · rw [hcount, hs.size, List.length_append, List.length_singleton]
  · rw [List.length_append, List.length_singleton]
    omega
  · have hview : m'.view = Function.update m.view p (some (id, h)) := by
      obtain rfl := Except.ok.inj (heq.symm.trans heq')
      show (m.setEntry p ⟨id, h⟩).view = _
      rw [view_setEntry hp, if_pos hv]
    rw [home_eq hs.ok.toShape hok.toShape htable, htable, hview]
    refine hs.settled.insert hempty hpath h (fun a b => Entries.before_insert h) fun k v hk => ?_
    exact Entries.before_last h (List.mem_map_of_mem ((hs.maps k v).mp hk))

/-- **Erase** takes an entry out from between the others. -/
theorem erase (hs : m.Stores maxEntries l) (hsome : l.lookup id = some h) :
    ∃ m', m.erase id = .ok (true, m') ∧
      m'.Stores maxEntries (l.filter fun e => e.1 != id) := by
  have hmaps := hs.lookup.mp hsome
  obtain ⟨m', heq, hok, hcount, htable, hmaps'⟩ := erase_spec hs.ok hmaps
  obtain ⟨p, m₁, hole, i, hp, ⟨h₀, hview⟩, heq', hs₁, hsize₁, -, -, hgap₁, hi, hgap, hcloses, -⟩ :=
    erase_eq hs.ok hmaps
  have hmem : ∀ id' h', m'.Maps id' h' ↔ (id', h') ∈ l.filter fun e => e.1 != id := by
    intro id' h'
    rw [hmaps', hs.maps, List.mem_filter, bne_iff_ne, and_comm]
  refine ⟨m', heq, hok, htable.trans hs.slots, hmem, ?_, ?_, ?_, ?_⟩
  · rw [Entries.keys_erase]
    exact hs.nodup.filter _
  · have hid : id ∈ l.keys := List.mem_map_of_mem ((hs.maps id h).mp hmaps)
    have hlen := Entries.length_erase hs.nodup hid
    have hsize := hs.size
    omega
  · exact (List.length_filter_le _ l).trans hs.room
  · have hview' : m'.view = Function.update m₁.view hole none := by
      have hm' := Except.ok.inj (heq.symm.trans heq')
      rw [(Prod.mk.inj hm').2]
      exact view_clearEntry hgap₁.hole_lt
    rw [home_eq hs.ok.toShape hok.toShape htable, htable]
    have hsettled := hcloses.settled hgap hs.ok.room (hs.settled.off p)
    rw [← hview'] at hsettled
    -- the entries that are left came in the same order
    intro q k v hq hqv r hr hlt
    obtain ⟨k', v', hrv, hbefore⟩ := hsettled q k v hq hqv r hr hlt
    refine ⟨k', v', hrv, Entries.before_erase hs.nodup hbefore ?_ ?_⟩
    · exact ((hmaps' k' v').mp ⟨r, htable ▸ hr, hrv⟩).1
    · exact ((hmaps' k v).mp ⟨q, htable ▸ hq, hqv⟩).1

/-- **Every allowed call** does to the map what it does to the entries. -/
theorem call (hs : m.Stores maxEntries l) (c : MapCall) (hlegal : l.Legal maxEntries c) :
    ∃ m', m.call c = .ok (m', (l.call c).2) ∧ m'.Stores maxEntries (l.call c).1 := by
  cases c with
  | find id =>
    refine ⟨m, ?_, hs⟩
    rw [IdMap.call, hs.find, ok_bind, hs.size]
    rfl
  | contains id =>
    refine ⟨m, ?_, hs⟩
    rw [IdMap.call, IdMap.contains, hs.find, hs.size]
    rfl
  | insert id h =>
    obtain ⟨habsent, hv, hroom⟩ := hlegal
    obtain ⟨m', heq, hs'⟩ := hs.insert habsent hv hroom
    refine ⟨m', ?_, hs'⟩
    rw [IdMap.call, heq, ok_bind, hs'.size, List.length_append]
    rfl
  | erase id =>
    cases hl : l.lookup id with
    | some h =>
      obtain ⟨m', heq, hs'⟩ := hs.erase hl
      refine ⟨m', ?_, hs'⟩
      rw [IdMap.call, heq, ok_bind, Entries.call, hl]
      show Except.ok (m', MapReply.flag true, m'.size) = _
      rw [hs'.size]
      rfl
    | none =>
      have habsent : ∀ h, ¬ m.Maps id h := fun h hmaps => by
        rw [hs.lookup.mpr hmaps] at hl
        cases hl
      have hkeep : (l.filter fun e => e.1 != id) = l := by
        rw [List.filter_eq_self]
        intro e he
        rw [bne_iff_ne]
        exact fun heq => Entries.lookup_eq_none.mp hl (List.mem_map.mpr ⟨e, he, heq⟩)
      have hcall : l.call (.erase id) = (l, .flag false, l.length) := by
        rw [Entries.call, hkeep, hl]
        rfl
      refine ⟨m, ?_, by rwa [hcall]⟩
      rw [IdMap.call, erase_absent hs.ok habsent, hcall, ← hs.size]
      rfl

end Stores

/-- A new map stores no entries. -/
theorem stores_new (hash : OrderId → UInt64) (maxEntries : Index) :
    (new hash maxEntries).Stores maxEntries [] := by
  obtain ⟨hok, hempty⟩ := ok_new hash maxEntries
  refine ⟨hok, ?_, fun id h => ?_, List.nodup_nil, rfl, Nat.zero_le _, ?_⟩
  · exact Array.size_replicate ..
  · exact iff_of_false (hempty id h) List.not_mem_nil
  · intro p k v hp hview
    exact absurd ⟨p, hp, hview⟩ (hempty k v)

/-- A run of legal calls does to the map what it does to the list. -/
theorem run_stores (hash : OrderId → UInt64) (maxEntries : Index) (calls : List MapCall)
    (hlegal : KeepsTo (Entries.Legal maxEntries) Entries.call [] calls) :
    ∃ m, runM call (new hash maxEntries) calls = .ok (m, (run Entries.call [] calls).2) ∧
      m.Stores maxEntries (run Entries.call [] calls).1 :=
  runM_eq_run_of_keepsTo (R := fun (m : IdMap hash) l => m.Stores maxEntries l)
    (fun _ _ c hs hlegal => hs.call c hlegal) calls _ _ (stores_new hash maxEntries) hlegal

/-- **The id map is a finite map**: no probe runs on for ever, every reply is the one of a list
of entries, and no two of them have the same id. -/
theorem calls_are_those_of_a_finite_map (hash : OrderId → UInt64) (maxEntries : Index)
    (calls : List MapCall)
    (hlegal : KeepsTo (Entries.Legal maxEntries) Entries.call [] calls) :
    ∃ m, runM call (new hash maxEntries) calls = .ok (m, (run Entries.call [] calls).2) ∧
      (run Entries.call [] calls).1.keys.Nodup ∧
      m.size = (run Entries.call [] calls).1.length := by
  obtain ⟨m, hrun, hs⟩ := run_stores hash maxEntries calls hlegal
  exact ⟨m, hrun, hs.nodup, hs.size⟩

/-- The smallest and the greatest id, in a table in which every probe starts at the last slot. -/
theorem calls_are_those_of_a_finite_map_wrapping :
    ∃ m, runM call (new (fun _ => 0xFFFFFFFFFFFFFFFF) 2)
        [.insert 0 ⟨7⟩, .insert 0xFFFFFFFFFFFFFFFF ⟨8⟩, .erase 0, .find 0xFFFFFFFFFFFFFFFF,
          .contains 0]
      = .ok (m,
        [(.done, 1), (.done, 2), (.flag true, 1), (.handle (some ⟨8⟩), 1), (.flag false, 1)]) ∧
      ([0xFFFFFFFFFFFFFFFF] : List OrderId).Nodup ∧ m.size = 1 :=
  calls_are_those_of_a_finite_map (fun _ => 0xFFFFFFFFFFFFFFFF) 2
    [.insert 0 ⟨7⟩, .insert 0xFFFFFFFFFFFFFFFF ⟨8⟩, .erase 0, .find 0xFFFFFFFFFFFFFFFF, .contains 0]
    ⟨⟨by decide, by decide, by decide⟩, ⟨by decide, by decide, by decide⟩, trivial, trivial,
      trivial, trivial⟩

/-! ## The table of the entries alone -/

/-- The table that entries make which are inserted one after another. -/
def ofEntries (hash : OrderId → UInt64) (maxEntries : Index) (l : Entries) : Checked (IdMap hash) :=
  l.foldlM (fun m e => m.insert e.1 e.2) (new hash maxEntries)

/-- Inserting entries one by one stores them. -/
theorem foldlM_insert {l' : Entries} : ∀ {l : Entries} {m : IdMap hash}, m.Stores maxEntries l →
    (Entries.keys (l ++ l')).Nodup → (∀ e ∈ l', e.2.valid = true) →
    (l ++ l').length ≤ maxEntries.toNat →
    ∃ m', l'.foldlM (fun m e => m.insert e.1 e.2) m = .ok m' ∧ m'.Stores maxEntries (l ++ l') := by
  induction l' with
  | nil =>
    intro l m hs _ _ _
    exact ⟨m, rfl, by rwa [List.append_nil]⟩
  | cons e l' ih =>
    intro l m hs hnd hv hle
    have hkeys : Entries.keys (l ++ e :: l') = l.keys ++ e.1 :: Entries.keys l' := List.map_append
    have hsplit : l ++ [e] ++ l' = l ++ e :: l' := List.append_assoc ..
    have habsent : l.lookup e.1 = none := by
      rw [Entries.lookup_eq_none]
      rw [hkeys, List.nodup_append] at hnd
      exact fun hmem => hnd.2.2 e.1 hmem e.1 List.mem_cons_self rfl
    have hroom : l.length < maxEntries.toNat := by
      rw [List.length_append, List.length_cons] at hle
      omega
    obtain ⟨m₁, heq, hs₁⟩ := hs.insert habsent (hv e List.mem_cons_self) hroom
    obtain ⟨m', hfold, hs'⟩ :=
      ih hs₁ (by rwa [hsplit]) (fun e' he' => hv e' (List.mem_cons_of_mem _ he'))
      (by rwa [hsplit])
    refine ⟨m', ?_, by rwa [hsplit] at hs'⟩
    rw [List.foldlM_cons, heq, ok_bind, hfold]

/-- Two maps that store the same entries are the same, slot by slot. -/
theorem Stores.view_eq (hs : m.Stores maxEntries l) (hs' : m'.Stores maxEntries l) :
    m.view = m'.view := by
  have hsize : m'.table.size = m.table.size := hs'.slots.trans hs.slots.symm
  have hsettled := hs'.settled
  rw [home_eq hs.ok.toShape hs'.ok.toShape hsize, hsize] at hsettled
  have hsame : ∀ id h, Holds m.table.size m.view id h ↔ Holds m.table.size m'.view id h := by
    intro id h
    have hiff := (hs.maps id h).trans (hs'.maps id h).symm
    rw [Maps, Maps, hsize] at hiff
    exact hiff
  funext i
  by_cases hi : i < m.table.size
  · exact hs.settled.unique (Entries.wellFounded_before hs.nodup) hs.ok.valid hsettled hsame hi
  · -- beyond the table there is nothing
    have hout : ∀ m : IdMap hash, ¬ i < m.table.size → m.view i = none := fun m hi => by
      rw [view_eq_none, entry, Array.getElem?_eq_none (not_lt.mp hi)]
      rfl
    rw [hout m hi, hout m' (by rwa [hsize])]

/-- **Erasing leaves no trace**: slot by slot, the table is the one that the entries which are
left make on their own, in the order of their latest insertion. -/
theorem erase_leaves_no_trace (hash : OrderId → UInt64) (maxEntries : Index)
    (calls : List MapCall)
    (hlegal : KeepsTo (Entries.Legal maxEntries) Entries.call [] calls) :
    ∃ m m', runM call (new hash maxEntries) calls = .ok (m, (run Entries.call [] calls).2) ∧
      ofEntries hash maxEntries (run Entries.call [] calls).1 = .ok m' ∧
      m.table.size = m'.table.size ∧ ∀ i, m.view i = m'.view i := by
  obtain ⟨m, hrun, hs⟩ := run_stores hash maxEntries calls hlegal
  have hv : ∀ e ∈ (run Entries.call [] calls).1, e.2.valid = true := fun e he => by
    obtain ⟨p, _, hview⟩ := (hs.maps e.1 e.2).mpr he
    obtain ⟨hvalid, -, hh⟩ := view_eq_some.mp hview
    rw [← hh, hvalid]
  obtain ⟨m', hfold, hs'⟩ := foldlM_insert (stores_new hash maxEntries) hs.nodup hv hs.room
  exact ⟨m, m', hrun, hfold, hs.slots.trans hs'.slots.symm, congrFun (hs.view_eq hs')⟩

/-- Two ids with one home: the second moves back when the first is erased. -/
theorem erase_leaves_no_trace_shifted :
    ∃ m m', runM call (new (fun _ => 3) 2) [.insert 1 ⟨7⟩, .insert 2 ⟨8⟩, .erase 1] =
        .ok (m, (run Entries.call [] [.insert 1 ⟨7⟩, .insert 2 ⟨8⟩, .erase 1]).2) ∧
      ofEntries (fun _ => 3) 2 [(2, ⟨8⟩)] = .ok m' ∧
      m.table.size = m'.table.size ∧ ∀ i, m.view i = m'.view i :=
  erase_leaves_no_trace (fun _ => 3) 2 [.insert 1 ⟨7⟩, .insert 2 ⟨8⟩, .erase 1]
    ⟨⟨by decide, by decide, by decide⟩, ⟨by decide, by decide, by decide⟩, trivial, trivial⟩

end IdMap

end MatchingEngine
