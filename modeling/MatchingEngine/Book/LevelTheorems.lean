import MatchingEngine.Book.Level
import MatchingEngine.Book.PoolTheorems

/-!
# Levels as lists of slots

`Level.ofList price xs` is the level whose list is `xs`. The two operations of the source
are list operations on it: `levelAppend_ofList` puts a slot at the end, and
`levelUnlink_ofList` takes one out. Both change nothing but links (`Relinks`), and no link
of a slot outside the list.
-/

namespace MatchingEngine

open IntrusiveList

/-- An order without its links. -/
def Order.unlinked (o : Order) : Order := { o with nextIdx := kNilIndex, prevIdx := kNilIndex }

/-- An order without links is unlinked. -/
theorem Order.unlinked_eq_self {o : Order} (hn : o.nextIdx = kNilIndex)
    (hp : o.prevIdx = kNilIndex) : o.unlinked = o := by
  cases o
  simp only at hn hp
  rw [hn, hp]
  rfl

/-- The level whose orders sit in the slots `xs`, first to last. -/
def Level.ofList (price : Price) (xs : List Index) : Level :=
  ⟨price, xs.headD kNilIndex, xs.getLastD kNilIndex⟩

@[simp] theorem Level.price_ofList (price : Price) (xs : List Index) :
    (Level.ofList price xs).price = price := rfl

@[simp] theorem Level.head_ofList (price : Price) (xs : List Index) :
    (Level.ofList price xs).head = xs.headD kNilIndex := rfl

@[simp] theorem Level.tail_ofList (price : Price) (xs : List Index) :
    (Level.ofList price xs).tail = xs.getLastD kNilIndex := rfl

namespace FixedPool

variable {p p' p'' : FixedPool Order} {i j x : Index} {o : Order} {xs ys vacant used : List Index}

/-- The forward link of slot `i`. -/
def nxt (p : FixedPool Order) (i : Index) : Index := ((p.value? i).map (·.nextIdx)).getD kNilIndex

/-- The backward link of slot `i`. -/
def prv (p : FixedPool Order) (i : Index) : Index := ((p.value? i).map (·.prevIdx)).getD kNilIndex

theorem nxt_of_value? (h : p.value? i = some o) : p.nxt i = o.nextIdx := by simp [nxt, h]

theorem prv_of_value? (h : p.value? i = some o) : p.prv i = o.prevIdx := by simp [prv, h]

/-- `p'` is `p` except for the links of the orders in it. -/
structure Relinks (p p' : FixedPool Order) : Prop where
  data : ∀ i, (p'.value? i).map Order.unlinked = (p.value? i).map Order.unlinked
  link : ∀ i, p'.link? i = p.link? i
  generation : ∀ i, p'.generationAt i = p.generationAt i
  freeHead : p'.freeHead = p.freeHead
  size : p'.slots.size = p.slots.size

namespace Relinks

theorem refl (p : FixedPool Order) : Relinks p p :=
  ⟨fun _ => rfl, fun _ => rfl, fun _ => rfl, rfl, rfl⟩

theorem trans (h : Relinks p p') (h' : Relinks p' p'') : Relinks p p'' :=
  ⟨fun i => (h'.data i).trans (h.data i), fun i => (h'.link i).trans (h.link i),
    fun i => (h'.generation i).trans (h.generation i), h'.freeHead.trans h.freeHead,
    h'.size.trans h.size⟩

/-- An order keeps everything but its links. -/
theorem value? (h : Relinks p p') (hv : p.value? i = some o) :
    ∃ o', p'.value? i = some o' ∧ o'.unlinked = o.unlinked := by
  have hd := h.data i
  rw [hv] at hd
  cases hv' : p'.value? i with
  | none => rw [hv'] at hd; cases hd
  | some o' =>
    rw [hv'] at hd
    exact ⟨o', rfl, Option.some.inj hd⟩

/-- What changes links only keeps slots, free list and generations. -/
theorem alike (h : Relinks p p') : p.Alike p' := ⟨h.size, h.freeHead, h.link, h.generation⟩

/-- What changes links only keeps which slots are in use. -/
theorem repr (h : Relinks p p') (hr : p.Repr vacant used) : p'.Repr vacant used :=
  h.alike.repr hr

end Relinks

/-- The spec of a write that changes links only. -/
theorem modify_links (hv : p.value? i = some o) (f : Order → Order)
    (hf : (f o).unlinked = o.unlinked) :
    ∃ p', p.modify i f = .ok p' ∧ Relinks p p' ∧
      p'.nxt = Function.update p.nxt i (f o).nextIdx ∧
      p'.prv = Function.update p.prv i (f o).prevIdx ∧
      p'.value? i = some (f o) ∧ ∀ j, j ≠ i → p'.value? j = p.value? j := by
  have hself : (p.setValue i (f o)).value? i = some (f o) := value?_setValue_self (lt_of_value? hv)
  have hother : ∀ j, j ≠ i → (p.setValue i (f o)).value? j = p.value? j :=
    fun j hj => value?_setValue_of_ne hj
  refine ⟨p.setValue i (f o), modify_of_value? hv f, ⟨fun j => ?_, fun j => ?_, fun _ => rfl, rfl,
    size_setValue⟩, ?_, ?_, hself, hother⟩
  · by_cases e : j = i
    · rw [e, hself, hv, Option.map_some, Option.map_some, hf]
    · rw [hother j e]
  · by_cases e : j = i
    · have hslot := value?_eq_some.mp hself
      have hslot' := value?_eq_some.mp hv
      simp [link?, e, hslot, hslot']
    · rw [link?_setValue_of_ne e]
  · funext j
    by_cases e : j = i
    · rw [e, Function.update_self, nxt_of_value? hself]
    · rw [Function.update_of_ne e, nxt, hother j e, nxt]
  · funext j
    by_cases e : j = i
    · rw [e, Function.update_self, prv_of_value? hself]
    · rw [Function.update_of_ne e, prv, hother j e, prv]

/-- Every slot of a linked list holds an order. -/
def Holds (p : FixedPool Order) (xs : List Index) : Prop := ∀ i ∈ xs, ∃ o, p.value? i = some o

/-- Slots that hold values still do after links have changed. -/
theorem Holds.relinks (h : p.Holds xs) (hr : Relinks p p') : p'.Holds xs := fun i hi => by
  obtain ⟨o, ho⟩ := h i hi
  obtain ⟨o', ho', _⟩ := hr.value? ho
  exact ⟨o', ho'⟩

/-- **`level_append` is append.** -/
theorem levelAppend_ofList (price : Price) (hl : IsList p.nxt p.prv kNilIndex xs)
    (hv : p.Holds (xs ++ [x])) (hx : x ∉ xs) (hnil : x ≠ kNilIndex) :
    ∃ p', levelAppend (.ofList price xs) p x = .ok (.ofList price (xs ++ [x]), p') ∧
      Relinks p p' ∧ IsList p'.nxt p'.prv kNilIndex (xs ++ [x]) ∧
      ∀ j, j ∉ xs ++ [x] → p'.value? j = p.value? j := by
  obtain ⟨o, ho⟩ := hv x (by simp)
  obtain ⟨p₁, hp₁, hr₁, hn₁, hb₁, hx₁, ho₁⟩ := modify_links ho
    (fun o => { o with prevIdx := xs.getLastD kNilIndex, nextIdx := kNilIndex }) rfl
  have happ := hl.append hx hnil
  rw [levelAppend]
  simp only [Level.tail_ofList, hp₁, ok_bind]
  by_cases ht : xs.getLastD kNilIndex = kNilIndex
  · have hxs : xs = [] := (IsList.last_eq_nil_iff hl.nil_notMem).mp ht
    subst hxs
    refine ⟨p₁, by simp [Level.ofList], hr₁, ?_, fun j hj => ho₁ j (by simpa using hj)⟩
    rw [hn₁, hb₁]
    rwa [if_pos ht] at happ
  · have hlast : xs.getLastD kNilIndex ∈ xs := by
      rcases List.eq_nil_or_concat xs with rfl | ⟨ys, y, rfl⟩
      · exact absurd rfl ht
      · simp
    obtain ⟨o', ho'⟩ := hv.relinks hr₁ _ (List.mem_append_left _ hlast)
    obtain ⟨p₂, hp₂, hr₂, hn₂, hb₂, -, ho₂⟩ :=
      modify_links ho' (fun o => { o with nextIdx := x }) rfl
    simp only [ne_eq, ht, not_false_eq_true, if_true, hp₂, ok_bind]
    refine ⟨p₂, ?_, hr₁.trans hr₂, ?_, fun j hj => ?_⟩
    · have hhead : (xs ++ [x]).headD kNilIndex = xs.headD kNilIndex := by
        cases xs with
        | nil => exact absurd rfl ht
        | cons _ _ => rfl
      rw [Level.ofList, Level.ofList, hhead, List.getLastD_concat]
      rfl
    · have hsame : Function.update p₁.prv (xs.getLastD kNilIndex) o'.prevIdx = p₁.prv := by
        rw [← prv_of_value? ho', Function.update_eq_self]
      rw [hn₂, hb₂, hsame, hn₁, hb₁]
      rwa [if_neg ht] at happ
    · rw [List.mem_append, List.mem_singleton, not_or] at hj
      rw [ho₂ j (fun e => hj.1 (e ▸ hlast)), ho₁ j hj.2]

/-- The first half of `level_unlink` writes one link, or the head. -/
theorem bypassForward_spec (level : Level) {prev : Index} (next : Index)
    (hv : prev ≠ kNilIndex → ∃ o, p.value? prev = some o) :
    ∃ p', bypassForward level p prev next
        = .ok (if prev ≠ kNilIndex then level else { level with head := next }, p') ∧
      Relinks p p' ∧ p'.prv = p.prv ∧
      p'.nxt = (if prev = kNilIndex then p.nxt else Function.update p.nxt prev next) ∧
      ∀ j, (prev ≠ kNilIndex → j ≠ prev) → p'.value? j = p.value? j := by
  by_cases h : prev = kNilIndex
  · exact ⟨p, by simp [bypassForward, h], Relinks.refl p, rfl, by simp [h], fun _ _ => rfl⟩
  · obtain ⟨o, ho⟩ := hv h
    obtain ⟨p', hp', hr, hn, hb, -, hj⟩ := modify_links ho (fun o => { o with nextIdx := next }) rfl
    refine ⟨p', by simp [bypassForward, h, hp'], hr, ?_, by simp [h, hn], fun j hj' => hj j (hj' h)⟩
    rw [hb, ← prv_of_value? ho, Function.update_eq_self]

/-- The second half of `level_unlink` writes one link, or the tail. -/
theorem bypassBackward_spec (level : Level) {next : Index} (prev : Index)
    (hv : next ≠ kNilIndex → ∃ o, p.value? next = some o) :
    ∃ p', bypassBackward level p prev next
        = .ok (if next ≠ kNilIndex then level else { level with tail := prev }, p') ∧
      Relinks p p' ∧ p'.nxt = p.nxt ∧
      p'.prv = (if next = kNilIndex then p.prv else Function.update p.prv next prev) ∧
      ∀ j, (next ≠ kNilIndex → j ≠ next) → p'.value? j = p.value? j := by
  by_cases h : next = kNilIndex
  · exact ⟨p, by simp [bypassBackward, h], Relinks.refl p, rfl, by simp [h], fun _ _ => rfl⟩
  · obtain ⟨o, ho⟩ := hv h
    obtain ⟨p', hp', hr, hn, hb, -, hj⟩ := modify_links ho (fun o => { o with prevIdx := prev }) rfl
    refine ⟨p', by simp [bypassBackward, h, hp'], hr, ?_, by simp [h, hb],
      fun j hj' => hj j (hj' h)⟩
    rw [hn, ← nxt_of_value? ho, Function.update_eq_self]

/-- The head and the tail that `level_unlink` leaves. -/
theorem ofList_bypass (price : Price) (hx : kNilIndex ∉ xs) (hy : kNilIndex ∉ ys) :
    (if ys.headD kNilIndex ≠ kNilIndex then
        if xs.getLastD kNilIndex ≠ kNilIndex then Level.ofList price (xs ++ x :: ys)
        else { Level.ofList price (xs ++ x :: ys) with head := ys.headD kNilIndex }
      else
        { (if xs.getLastD kNilIndex ≠ kNilIndex then Level.ofList price (xs ++ x :: ys)
            else { Level.ofList price (xs ++ x :: ys) with head := ys.headD kNilIndex }) with
          tail := xs.getLastD kNilIndex }) = Level.ofList price (xs ++ ys) := by
  simp only [ne_eq, IsList.last_eq_nil_iff hx, IsList.head_eq_nil_iff hy]
  rcases xs with _ | ⟨a, as⟩ <;> rcases ys with _ | ⟨b, bs⟩ <;>
    simp [Level.ofList, List.getLast?_cons, List.getLast?_append]

/-- **`level_unlink` is removal.** -/
theorem levelUnlink_ofList (price : Price) (hl : IsList p.nxt p.prv kNilIndex (xs ++ x :: ys))
    (hv : p.Holds (xs ++ x :: ys)) :
    ∃ p', levelUnlink (.ofList price (xs ++ x :: ys)) p x = .ok (.ofList price (xs ++ ys), p') ∧
      Relinks p p' ∧ IsList p'.nxt p'.prv kNilIndex (xs ++ ys) ∧
      (∀ j, j ∉ xs ++ x :: ys → p'.value? j = p.value? j) ∧
      p'.nxt x = kNilIndex ∧ p'.prv x = kNilIndex := by
  have hparts := (seg_append.mp hl.seg).2
  have hnx : kNilIndex ∉ xs := fun hm => hl.nil_notMem (by simp [hm])
  have hny : kNilIndex ∉ ys := fun hm => hl.nil_notMem (by simp [hm])
  have hlu := hl.unlink
  obtain ⟨o, ho⟩ := hv x (by simp)
  have hprev : o.prevIdx = xs.getLastD kNilIndex := (prv_of_value? ho).symm.trans hparts.1
  have hnext : o.nextIdx = ys.headD kNilIndex := (nxt_of_value? ho).symm.trans hparts.2.1
  rw [nxt_of_value? ho, prv_of_value? ho, hprev, hnext] at hlu
  have hxmem : x ∉ xs ++ ys := by
    have := hl.nodup
    rw [List.nodup_middle] at this
    exact (List.nodup_cons.mp this).1
  have hlast : xs.getLastD kNilIndex ≠ kNilIndex → xs.getLastD kNilIndex ∈ xs := fun h => by
    rcases List.eq_nil_or_concat xs with rfl | ⟨zs, z, rfl⟩
    · exact absurd rfl h
    · simp
  have hhead : ys.headD kNilIndex ≠ kNilIndex → ys.headD kNilIndex ∈ ys := fun h => by
    cases ys with
    | nil => exact absurd rfl h
    | cons z zs => simp
  -- the three writes: predecessor, successor, the order itself
  obtain ⟨p₁, hs₁, hr₁, hb₁, hn₁, ho₁⟩ := bypassForward_spec
    (.ofList price (xs ++ x :: ys)) (ys.headD kNilIndex) fun h =>
      hv _ (List.mem_append_left _ (hlast h))
  obtain ⟨p₂, hs₂, hr₂, hn₂, hb₂, ho₂⟩ := bypassBackward_spec
    (if xs.getLastD kNilIndex ≠ kNilIndex then .ofList price (xs ++ x :: ys)
      else { Level.ofList price (xs ++ x :: ys) with head := ys.headD kNilIndex })
    (xs.getLastD kNilIndex) fun h => hv.relinks hr₁ _
      (List.mem_append_right _ (List.mem_cons_of_mem _ (hhead h)))
  obtain ⟨o₂, hv₂⟩ := hv.relinks (hr₁.trans hr₂) x (by simp)
  obtain ⟨p₃, hs₃, hr₃, hn₃, hb₃, hx₃, ho₃⟩ := modify_links hv₂
    (fun o => { o with prevIdx := kNilIndex, nextIdx := kNilIndex }) rfl
  refine ⟨p₃, ?_, (hr₁.trans hr₂).trans hr₃, ?_, fun j hj => ?_, nxt_of_value? hx₃,
    prv_of_value? hx₃⟩
  · rw [levelUnlink]
    simp only [unchecked_of_value? ho, ok_bind, hprev, hnext, hs₁, hs₂, hs₃, pure_eq_ok]
    rw [ofList_bypass price hnx hny]
  · have hsame : ∀ (f : Index → Index) (w : Index), ∀ y ∈ xs ++ ys,
        Function.update f x w y = f y := fun f w y hy =>
      Function.update_of_ne (ne_of_mem_of_not_mem hy hxmem) _ _
    rw [hn₃, hb₃]
    refine IsList.congr ?_ (hsame _ _) (hsame _ _)
    rwa [hn₂, hb₂, hn₁, hb₁]
  · have hjx : j ≠ x := fun e => hj (by simp [e])
    rw [ho₃ j hjx]
    rw [List.mem_append, List.mem_cons, not_or, not_or] at hj
    rw [ho₂ j fun h e => hj.2.2 (e ▸ hhead h), ho₁ j fun h e => hj.1 (e ▸ hlast h)]

end FixedPool

end MatchingEngine
