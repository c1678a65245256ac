import MatchingEngine.Book.LevelTheorems

/-!
# Families of levels

Several levels share one pool. `Level.Lists` says what a well-formed level is, from its own
head and tail and the links of its slots, and `Family` that any number of levels are well
formed and share no slot. An operation on one of them is the list operation on its sequence
and leaves the others as they are (`Relists`).
-/

namespace MatchingEngine

open IntrusiveList FixedPool

/-- `level` is well formed, with the orders in the slots `xs`: they are linked in both
directions from nil to nil, and the level knows the first and the last. -/
structure Level.Lists (p : FixedPool Order) (level : Level) (xs : List Index) : Prop where
  head : level.head = xs.headD kNilIndex
  tail : level.tail = xs.getLastD kNilIndex
  linked : Seg p.nxt p.prv kNilIndex xs kNilIndex
  holds : p.Holds xs

/-- Well-formed levels no two of which have a slot in common. -/
structure Family {ι : Type} (p : FixedPool Order) (levels : ι → Level)
    (seqs : ι → List Index) : Prop where
  lists : ∀ k, (levels k).Lists p (seqs k)
  disjoint : ∀ k k', k ≠ k' → (seqs k).Disjoint (seqs k')

/-- Level `k` of a family has become `level'`, with the sequence `xs`, and the pool `p'`.
The other levels keep their sequences, every order keeps everything but its links, and a slot
that is neither `x` nor in level `k` keeps those too. -/
structure Relists {ι : Type} [DecidableEq ι] (p : FixedPool Order) (levels : ι → Level)
    (seqs : ι → List Index) (k : ι) (x : Index) (p' : FixedPool Order) (level' : Level)
    (xs : List Index) : Prop where
  family : Family p' (Function.update levels k level') (Function.update seqs k xs)
  price : level'.price = (levels k).price
  relinks : Relinks p p'
  frame : ∀ i, i ∉ seqs k → i ≠ x → p'.value? i = p.value? i

section

variable {ι : Type} {p p' : FixedPool Order} {level : Level} {levels : ι → Level}
  {seqs : ι → List Index} {xs : List Index} {k : ι} {x : Index}

/-- A pool has at most as many slots as there are indices, and nil is none of them. -/
theorem FixedPool.Holds.nil_notMem (hsize : p.slots.size < 2 ^ 32) (h : p.Holds xs) :
    kNilIndex ∉ xs := fun hm => by
  obtain ⟨o, ho⟩ := h _ hm
  have hlt := lt_of_value? ho
  have hnil : kNilIndex.toNat = 2 ^ 32 - 1 := rfl
  omega

namespace Level.Lists

/-- A level that lists some slots is the one made of its price and of them. -/
theorem eq_ofList (h : level.Lists p xs) : level = .ofList level.price xs := by
  rw [Level.ofList, ← h.head, ← h.tail]

/-- What a level lists is a list in the sense of the links. -/
theorem isList (hsize : p.slots.size < 2 ^ 32) (h : level.Lists p xs) :
    IsList p.nxt p.prv kNilIndex xs :=
  have hnil := h.holds.nil_notMem hsize
  ⟨h.linked, h.linked.nodup hnil, hnil⟩

/-- The level made of a price and of a list lists it. -/
theorem ofList {price : Price} (hl : IsList p.nxt p.prv kNilIndex xs) (hv : p.Holds xs) :
    (Level.ofList price xs).Lists p xs := ⟨rfl, rfl, hl.seg, hv⟩

/-- A level whose slots are not written stays as it is. -/
theorem frame (h : level.Lists p xs) (hsame : ∀ i ∈ xs, p'.value? i = p.value? i) :
    level.Lists p' xs where
  head := h.head
  tail := h.tail
  linked := h.linked.congr (fun i hi => by rw [nxt, hsame i hi, nxt])
    fun i hi => by rw [prv, hsame i hi, prv]
  holds i hi := by
    rw [hsame i hi]
    exact h.holds i hi

end Level.Lists

section

variable [DecidableEq ι]

/-- Two operations on the same level with the same slot. -/
theorem Relists.trans {p₁ p₂ : FixedPool Order} {level₁ level₂ : Level} {xs₁ xs₂ : List Index}
    (h₁ : Relists p levels seqs k x p₁ level₁ xs₁)
    (h₂ : Relists p₁ (Function.update levels k level₁) (Function.update seqs k xs₁) k x p₂ level₂
      xs₂) (hsub : ∀ i ∈ xs₁, i ∈ seqs k) :
    Relists p levels seqs k x p₂ level₂ xs₂ where
  family := by
    have hf := h₂.family
    rw [Function.update_idem, Function.update_idem] at hf
    exact hf
  price := by
    have hp := h₂.price
    rw [Function.update_self] at hp
    exact hp.trans h₁.price
  relinks := h₁.relinks.trans h₂.relinks
  frame i hi hix := by
    have hf := h₂.frame i
    rw [Function.update_self] at hf
    rw [hf (fun hm => hi (hsub i hm)) hix, h₁.frame i hi hix]

end

namespace Family

variable [DecidableEq ι]

/-- What a level operation does to one level, it does to the family. -/
theorem relists (h : Family p levels seqs) {level' : Level}
    (hlists : level'.Lists p' xs) (hprice : level'.price = (levels k).price)
    (hrelinks : Relinks p p') (hframe : ∀ i, i ∉ seqs k → i ≠ x → p'.value? i = p.value? i)
    (hsub : ∀ i ∈ xs, i ∈ seqs k ∨ i = x) (hx : ∀ k', k' ≠ k → x ∉ seqs k') :
    Relists p levels seqs k x p' level' xs := by
  have hout : ∀ k', k' ≠ k → ∀ i ∈ seqs k', i ∉ seqs k ∧ i ≠ x := fun k' hk i hi =>
    ⟨fun hm => h.disjoint k' k hk hi hm, ne_of_mem_of_not_mem hi (hx k' hk)⟩
  have hdisj : ∀ k', k' ≠ k → (seqs k').Disjoint xs := fun k' hk i hi hm =>
    (hsub i hm).elim (hout k' hk i hi).1 (hout k' hk i hi).2
  refine ⟨⟨fun k' => ?_, fun k₁ k₂ hne => ?_⟩, hprice, hrelinks, hframe⟩
  · by_cases hk : k' = k
    · rw [hk, Function.update_self, Function.update_self]
      exact hlists
    · rw [Function.update_of_ne hk, Function.update_of_ne hk]
      apply (h.lists k').frame
      intro i hi
      exact hframe i (hout k' hk i hi).1 (hout k' hk i hi).2
  · by_cases h₁ : k₁ = k
    · have h₂ : k₂ ≠ k := fun e => hne (h₁.trans e.symm)
      rw [h₁, Function.update_self, Function.update_of_ne h₂]
      exact fun i hm hi => hdisj k₂ h₂ hi hm
    · by_cases h₂ : k₂ = k
      · rw [h₂, Function.update_self, Function.update_of_ne h₁]
        exact hdisj k₁ h₁
      · rw [Function.update_of_ne h₁, Function.update_of_ne h₂]
        exact h.disjoint k₁ k₂ hne

/-- `level_append` of a slot that belongs to none of the levels. -/
theorem append (hsize : p.slots.size < 2 ^ 32) (h : Family p levels seqs) (k : ι) {o : Order}
    (ho : p.value? x = some o) (hx : ∀ k', x ∉ seqs k') :
    ∃ level' p', levelAppend (levels k) p x = .ok (level', p') ∧
      Relists p levels seqs k x p' level' (seqs k ++ [x]) := by
  have hv : p.Holds (seqs k ++ [x]) := fun i hi => by
    rw [List.mem_append, List.mem_singleton] at hi
    exact hi.elim ((h.lists k).holds i) fun e => ⟨o, e ▸ ho⟩
  have hnil : x ≠ kNilIndex := fun e => hv.nil_notMem hsize (by simp [e])
  obtain ⟨p', happ, hr, hl, hframe⟩ :=
    levelAppend_ofList (levels k).price ((h.lists k).isList hsize) hv (hx k) hnil
  rw [← (h.lists k).eq_ofList] at happ
  refine ⟨_, p', happ, h.relists (.ofList hl (hv.relinks hr)) rfl hr (fun i hi hix => ?_)
    (fun i hi => ?_) fun k' _ => hx k'⟩
  · apply hframe
    rw [List.mem_append, List.mem_singleton]
    exact not_or.mpr ⟨hi, hix⟩
  · rw [List.mem_append, List.mem_singleton] at hi
    exact hi

/-- `level_unlink` of a slot that belongs to level `k`. -/
theorem unlink (hsize : p.slots.size < 2 ^ 32) (h : Family p levels seqs) (hx : x ∈ seqs k) :
    ∃ level' p', levelUnlink (levels k) p x = .ok (level', p') ∧
      Relists p levels seqs k x p' level' ((seqs k).erase x) ∧
      p'.nxt x = kNilIndex ∧ p'.prv x = kNilIndex := by
  have hl := (h.lists k).isList hsize
  have hv := (h.lists k).holds
  have hlevel := (h.lists k).eq_ofList
  obtain ⟨as, bs, hxs⟩ := List.append_of_mem hx
  have has : x ∉ as := fun hm =>
    (List.nodup_append.mp (hxs ▸ hl.nodup)).2.2 x hm x List.mem_cons_self rfl
  have herase : (seqs k).erase x = as ++ bs := by
    rw [hxs, List.erase_append_right _ has, List.erase_cons_head]
  rw [hxs] at hl hv hlevel
  obtain ⟨p', hun, hr, hl', hframe, hnxt, hprv⟩ := levelUnlink_ofList (levels k).price hl hv
  rw [← hlevel] at hun
  rw [herase]
  have hsub : ∀ i ∈ as ++ bs, i ∈ as ++ x :: bs := fun i hi =>
    ((List.sublist_cons_self x bs).append_left as).subset hi
  have hv' : p'.Holds (as ++ bs) := fun i hi => hv.relinks hr i (hsub i hi)
  refine ⟨_, p', hun, h.relists (.ofList hl' hv') rfl hr (fun i hi _ => ?_) (fun i hi => ?_)
    fun k' hk hm => h.disjoint k' k hk hm hx, hnxt, hprv⟩
  · apply hframe
    rw [← hxs]
    exact hi
  · rw [hxs]
    exact .inl (hsub i hi)

end Family

/-- **The level operations are list operations with a frame.** In a family of levels,
`level_append` puts a slot that belongs to none of them at the end of a level, `level_unlink`
takes a member out of its level and resets its links, and both one after the other move it to
the end. -/
theorem level_operations_are_list_operations {ι : Type} [DecidableEq ι] {p : FixedPool Order}
    {levels : ι → Level} {seqs : ι → List Index} (hsize : p.slots.size < 2 ^ 32)
    (h : Family p levels seqs) (k : ι) :
    (∀ x o, p.value? x = some o → (∀ k', x ∉ seqs k') →
      ∃ level' p', levelAppend (levels k) p x = .ok (level', p') ∧
        Relists p levels seqs k x p' level' (seqs k ++ [x])) ∧
    (∀ x ∈ seqs k,
      ∃ level₁ p₁, levelUnlink (levels k) p x = .ok (level₁, p₁) ∧
        Relists p levels seqs k x p₁ level₁ ((seqs k).erase x) ∧
        p₁.nxt x = kNilIndex ∧ p₁.prv x = kNilIndex ∧
        ∃ level₂ p₂, levelAppend level₁ p₁ x = .ok (level₂, p₂) ∧
          Relists p levels seqs k x p₂ level₂ ((seqs k).erase x ++ [x])) := by
  refine ⟨fun x o ho hx => h.append hsize k ho hx, fun x hx => ?_⟩
  obtain ⟨level₁, p₁, hun, hrel, hnxt, hprv⟩ := h.unlink hsize hx
  refine ⟨level₁, p₁, hun, hrel, hnxt, hprv, ?_⟩
  obtain ⟨o, ho⟩ := (h.lists k).holds x hx
  obtain ⟨o₁, ho₁, -⟩ := hrel.relinks.value? ho
  have hnodup := ((h.lists k).isList hsize).nodup
  have hfree : ∀ k', x ∉ Function.update seqs k ((seqs k).erase x) k' := fun k' => by
    by_cases hk : k' = k
    · rw [hk, Function.update_self]
      exact hnodup.not_mem_erase
    · rw [Function.update_of_ne hk]
      exact fun hm => h.disjoint k' k hk hm hx
  have hsize₁ : p₁.slots.size < 2 ^ 32 := hrel.relinks.size ▸ hsize
  obtain ⟨level₂, p₂, happ, hrel₂⟩ := hrel.family.append hsize₁ k ho₁ hfree
  rw [Function.update_self] at happ
  rw [Function.update_self] at hrel₂
  exact ⟨level₂, p₂, happ, hrel.trans hrel₂ fun i hi => List.mem_of_mem_erase hi⟩

/-- Four orders: those in the slots 0 and 2 are linked, those in 1 and 3 are alone. -/
def fourOrders : FixedPool Order where
  slots := #[.value { orderId := 1, nextIdx := 2 }, .value { orderId := 2 },
    .value { orderId := 3, prevIdx := 0 }, .value { orderId := 4 }]
  generations := #[0, 0, 0, 0]
  freeHead := kNilIndex
  size_generations := rfl

/-- The slots of two levels in `fourOrders`. -/
def twoSeqs : Bool → List Index
  | false => [0, 2]
  | true => [1]

/-- A level of the first and the third slot, and a level of the second. -/
def twoLevels : Bool → Level
  | false => .ofList 100 [0, 2]
  | true => .ofList 101 [1]

theorem mem_twoSeqs {k : Bool} {i : Index} :
    i ∈ twoSeqs k ↔ k = false ∧ (i = 0 ∨ i = 2) ∨ k = true ∧ i = 1 := by
  cases k <;> simp [twoSeqs]

/-- The two levels share no slot. -/
theorem family_twoLevels : Family fourOrders twoLevels twoSeqs where
  lists k := by
    refine ⟨?_, ?_, ?_, fun i hi => ?_⟩
    · cases k <;> rfl
    · cases k <;> rfl
    · cases k
      · exact ⟨rfl, rfl, rfl, rfl, trivial⟩
      · exact ⟨rfl, rfl, trivial⟩
    · rcases mem_twoSeqs.mp hi with ⟨-, rfl | rfl⟩ | ⟨-, rfl⟩
      · exact ⟨_, rfl⟩
      · exact ⟨_, rfl⟩
      · exact ⟨_, rfl⟩
  disjoint k k' hne i hi hi' := by
    rw [mem_twoSeqs] at hi hi'
    rcases hi with ⟨rfl, hi⟩ | ⟨rfl, rfl⟩
    · rcases hi' with ⟨rfl, -⟩ | ⟨-, rfl⟩
      · exact hne rfl
      · exact absurd hi (by decide)
    · rcases hi' with ⟨-, hi'⟩ | ⟨rfl, -⟩
      · exact absurd hi' (by decide)
      · exact hne rfl

/-- The fourth slot is appended to one level. From the other the first is unlinked, and appended
again. -/
theorem level_operations_are_list_operations_twoLevels :
    (∃ level p, levelAppend (twoLevels true) fourOrders 3 = .ok (level, p) ∧
      Relists fourOrders twoLevels twoSeqs true 3 p level [1, 3]) ∧
    (∃ level₁ p₁, levelUnlink (twoLevels false) fourOrders 0 = .ok (level₁, p₁) ∧
      Relists fourOrders twoLevels twoSeqs false 0 p₁ level₁ [2] ∧
      ∃ level₂ p₂, levelAppend level₁ p₁ 0 = .ok (level₂, p₂) ∧
        Relists fourOrders twoLevels twoSeqs false 0 p₂ level₂ [2, 0]) := by
  have hsize : fourOrders.slots.size < 2 ^ 32 := by decide
  obtain ⟨happend, -⟩ := level_operations_are_list_operations hsize family_twoLevels true
  obtain ⟨-, hunlink⟩ := level_operations_are_list_operations hsize family_twoLevels false
  obtain ⟨level₁, p₁, hun, hrel, -, -, hmove⟩ := hunlink 0 List.mem_cons_self
  have hout : ∀ k, 3 ∉ twoSeqs k := fun k => by
    rw [mem_twoSeqs]
    cases k <;> decide
  exact ⟨happend 3 { orderId := 4 } rfl hout, level₁, p₁, hun, hrel, hmove⟩

end

end MatchingEngine
