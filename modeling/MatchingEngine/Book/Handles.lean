import MatchingEngine.Book.Invariants
import MatchingEngine.Spec.Ledger

/-!
# Handles of resting orders

A command erases ids from the id map, and inserts at most the id of an order that it rests,
which was absent (`exec_entries`). So an order that rests before and after a command has the
same handle before and after it, and has kept its slot and the slot its generation, however the
entries of the table moved (`handle_is_kept`).
-/

namespace MatchingEngine

open FixedPool Run

/-! ## Entries of the id map -/

namespace IdMap

variable {hash : OrderId → UInt64} {m m' m'' : IdMap hash} {id : OrderId} {h : Handle}

/-- Every entry of `m'` is one of `m`. -/
structure Keeps (m m' : IdMap hash) : Prop where
  ok : m'.Ok
  maps : ∀ id h, m'.Maps id h → m.Maps id h

theorem Keeps.refl (hm : m.Ok) : Keeps m m := ⟨hm, fun _ _ hmaps => hmaps⟩

theorem Keeps.trans (h : Keeps m m') (h' : Keeps m' m'') : Keeps m m'' :=
  ⟨h'.ok, fun id hdl hmaps => h.maps id hdl (h'.maps id hdl hmaps)⟩

/-- An erase makes up no entry. -/
theorem keeps_erase (hm : m.Ok) {ok : Bool} (heq : m.erase id = .ok (ok, m')) : Keeps m m' := by
  by_cases hmaps : ∃ h, m.Maps id h
  · obtain ⟨h, hmaps⟩ := hmaps
    obtain ⟨m₁, herase, hok, -, -, hiff⟩ := erase_spec hm hmaps
    rw [heq, Except.ok.injEq, Prod.mk.injEq] at herase
    rw [herase.2]
    exact ⟨hok, fun id' h' hmaps' => ((hiff id' h').mp hmaps').2⟩
  · have herase := erase_absent hm (not_exists.mp hmaps)
    rw [heq, Except.ok.injEq, Prod.mk.injEq] at herase
    rw [herase.2]
    exact .refl hm

/-- An id that is not contained maps to nothing. -/
theorem absent_of_contains (hm : m.Ok) (heq : m.contains id = .ok false) : ∀ h, ¬ m.Maps id h := by
  intro h hmaps
  rw [contains, find_eq_some hm hmaps] at heq
  cases heq

/-- What is found is mapped. -/
theorem maps_of_find (hm : m.Ok) (heq : m.find id = .ok (some h)) : m.Maps id h := by
  obtain ⟨r, hfind, hspec⟩ := find_spec hm id
  rw [heq, Except.ok.injEq] at hfind
  exact (hspec h).mp hfind.symm

/-- What an insertion of an absent id adds. -/
theorem maps_insert (hm : m.Ok) (habsent : ∀ h, ¬ m.Maps id h) (heq : m.insert id h = .ok m') :
    ∀ id' h', m'.Maps id' h' → m.Maps id' h' ∨ id' = id := by
  have hinsert := heq
  rw [insert, bind_eq_ok] at heq
  obtain ⟨u, hvalid, heq⟩ := heq
  obtain ⟨u', hroom, -⟩ := bind_eq_ok.mp heq
  obtain ⟨m₁, hspec, -, -, -, hiff⟩ := insert_spec hm habsent (of_require hvalid) (of_require hroom)
  rw [hinsert, Except.ok.injEq] at hspec
  rw [hspec]
  intro id' h' hmaps
  exact ((hiff id' h').mp hmaps).symm.imp_right fun heq => heq.1

end IdMap

namespace Book

/-! ## A sweep only erases -/

/-- What a sweep does to the id map and to the id of the taker. -/
structure Sweep.Keeps (s s' : Sweep) : Prop where
  idMap : s.idMap.Keeps s'.idMap
  orderId : s'.incoming.orderId = s.incoming.orderId

variable {b b' : Book} {s s' s'' : Sweep} {level level' : Level} {seq : SeqNo} {side : Side}
  {price : Price} {incoming left : Order} {id : OrderId} {h : Handle}

theorem Sweep.Keeps.refl (hok : s.idMap.Ok) : s.Keeps s := ⟨.refl hok, rfl⟩

theorem Sweep.Keeps.trans (h : s.Keeps s') (h' : s'.Keeps s'') : s.Keeps s'' :=
  ⟨h.idMap.trans h'.idMap, h'.orderId.trans h.orderId⟩

/-- A fill makes up no entry. -/
theorem fillMaker_keeps {i : Index} {maker : Order} (hok : s.idMap.Ok)
    (heq : fillMaker seq level s i maker = .ok (level', s')) : s.Keeps s' := by
  rw [fillMaker, bind_eq_ok] at heq
  obtain ⟨pool, -, heq⟩ := heq
  dsimp only at heq
  split at heq
  · -- the maker is filled, and its id erased
    obtain ⟨unlinked, -, heq⟩ := bind_eq_ok.mp heq
    obtain ⟨⟨ok, m⟩, herase, heq⟩ := bind_eq_ok.mp heq
    obtain ⟨hdl, -, heq⟩ := bind_eq_ok.mp heq
    obtain ⟨-, rfl⟩ := Prod.mk.inj (Except.ok.inj heq)
    exact ⟨IdMap.keeps_erase hok herase, rfl⟩
  · obtain ⟨-, rfl⟩ := Prod.mk.inj (Except.ok.inj heq)
    exact ⟨.refl hok, rfl⟩

/-- A sweep of a level makes up no entry. -/
theorem sweepLevel_keeps {stopped : Bool} (fuel : ℕ) (hok : s.idMap.Ok)
    (heq : sweepLevel seq fuel level s = .ok (level', s', stopped)) : s.Keeps s' := by
  induction fuel generalizing level s with
  | zero => cases heq
  | succ fuel ih =>
    rw [sweepLevel] at heq
    split at heq
    · obtain ⟨maker, -, heq⟩ := bind_eq_ok.mp heq
      split at heq
      · obtain ⟨-, rfl, -⟩ := Prod.mk.inj (Except.ok.inj heq)
        exact .refl hok
      · obtain ⟨⟨level₁, s₁⟩, hfill, heq⟩ := bind_eq_ok.mp heq
        have hkeeps := fillMaker_keeps hok hfill
        exact hkeeps.trans (ih hkeeps.idMap.ok heq)
    · obtain ⟨-, rfl, -⟩ := Prod.mk.inj (Except.ok.inj heq)
      exact .refl hok

/-- A sweep of all levels makes up no entry. -/
theorem sweepLevels_keeps {crosses : Price → Price → Bool} {levels levels' : PriceLevels}
    {stopped : Bool} (fuel : ℕ) (hok : s.idMap.Ok)
    (heq : sweepLevels crosses seq fuel levels s = .ok (levels', s', stopped)) : s.Keeps s' := by
  induction fuel generalizing levels s with
  | zero => cases heq
  | succ fuel ih =>
    rw [sweepLevels] at heq
    split at heq
    · obtain ⟨pos, -, heq⟩ := bind_eq_ok.mp heq
      obtain ⟨level, -, heq⟩ := bind_eq_ok.mp heq
      split at heq
      · obtain ⟨-, rfl, -⟩ := Prod.mk.inj (Except.ok.inj heq)
        exact .refl hok
      · obtain ⟨⟨level₁, s₁, stopped₁⟩, hlevel, heq⟩ := bind_eq_ok.mp heq
        have hkeeps := sweepLevel_keeps _ hok hlevel
        dsimp only at heq
        split at heq
        · obtain ⟨-, rfl, -⟩ := Prod.mk.inj (Except.ok.inj heq)
          exact hkeeps
        · split at heq
          · obtain ⟨popped, -, heq⟩ := bind_eq_ok.mp heq
            exact hkeeps.trans (ih hkeeps.idMap.ok heq)
          · exact hkeeps.trans (ih hkeeps.idMap.ok heq)
    · obtain ⟨-, rfl, -⟩ := Prod.mk.inj (Except.ok.inj heq)
      exact .refl hok

/-- Matching makes up no entry, and the rest of the order has its id. -/
theorem cross_keeps {crosses : Price → Price → Bool} {trades trades' : List Trade} {stopped : Bool}
    (hok : b.idMap.Ok)
    (heq : b.cross side incoming seq trades crosses = .ok (b', left, trades', stopped)) :
    b.idMap.Keeps b'.idMap ∧ left.orderId = incoming.orderId := by
  obtain ⟨⟨levels, s, stopped₁⟩, hsweep, heq⟩ := bind_eq_ok.mp heq
  have hkeeps := sweepLevels_keeps _ hok hsweep
  obtain ⟨rfl, rfl, -⟩ := Prod.mk.inj (Except.ok.inj heq)
  rw [idMap_setLevels]
  exact ⟨hkeeps.idMap, hkeeps.orderId⟩

/-! ## What leaves the id map alone -/

theorem eraseLevel_idMap (heq : b.eraseLevel side price = .ok b') : b'.idMap = b.idMap := by
  obtain ⟨levels, -, heq⟩ := bind_eq_ok.mp heq
  rw [← Except.ok.inj heq, idMap_setLevels]

theorem levelForInsert_idMap {pos : ℕ} (heq : b.levelForInsert side price = .ok (b', pos)) :
    b'.idMap = b.idMap := by
  obtain ⟨⟨levels, pos'⟩, -, heq⟩ := bind_eq_ok.mp heq
  obtain ⟨rfl, -⟩ := Prod.mk.inj (Except.ok.inj heq)
  exact idMap_setLevels b side levels

theorem appendAt_idMap {pos : ℕ} {i : Index} (heq : b.appendAt side pos i = .ok b') :
    b'.idMap = b.idMap := by
  obtain ⟨order, -, heq⟩ := bind_eq_ok.mp heq
  obtain ⟨u, -, heq⟩ := bind_eq_ok.mp heq
  obtain ⟨level, -, heq⟩ := bind_eq_ok.mp heq
  obtain ⟨linked, -, heq⟩ := bind_eq_ok.mp heq
  rw [← Except.ok.inj heq, idMap_setLevels]

theorem unlinkAt_idMap {pos : ℕ} {i : Index} (heq : b.unlinkAt side pos price i = .ok b') :
    b'.idMap = b.idMap := by
  obtain ⟨level, -, heq⟩ := bind_eq_ok.mp heq
  obtain ⟨unlinked, -, heq⟩ := bind_eq_ok.mp heq
  dsimp only at heq
  split at heq
  · rw [eraseLevel_idMap heq, idMap_setLevels]
  · rw [← Except.ok.inj heq, idMap_setLevels]

/-! ## Commands -/

/-- Every entry is an old one, or of an id that was absent. -/
def Inherits (m m' : IdMap splitmix64) : Prop :=
  ∀ id h, m'.Maps id h → m.Maps id h ∨ ∀ h', ¬ m.Maps id h'

/-- A map that makes up no entry inherits. -/
theorem Inherits.of_keeps {m m' : IdMap splitmix64} (h : m.Keeps m') : Inherits m m' :=
  fun id hdl hmaps => Or.inl (h.maps id hdl hmaps)

/-- Resting an order adds its own id, if any. -/
theorem rest_entries {rested : Bool} (hok : b.idMap.Ok)
    (heq : b.rest side price incoming seq = .ok (b', rested)) :
    ∀ id h, b'.idMap.Maps id h → b.idMap.Maps id h ∨ id = incoming.orderId := by
  obtain ⟨⟨b₁, pos⟩, hlevel, heq⟩ := bind_eq_ok.mp heq
  have hmap₁ := levelForInsert_idMap hlevel
  obtain ⟨⟨hdl, pool⟩, -, heq⟩ := bind_eq_ok.mp heq
  dsimp only at heq
  split at heq
  · -- the pool is full
    obtain ⟨level, -, heq⟩ := bind_eq_ok.mp heq
    have hsame : b'.idMap = b.idMap := by
      split at heq
      · obtain ⟨b₂, herase, heq⟩ := bind_eq_ok.mp heq
        obtain ⟨rfl, -⟩ := Prod.mk.inj (Except.ok.inj heq)
        exact (eraseLevel_idMap herase).trans hmap₁
      · obtain ⟨rfl, -⟩ := Prod.mk.inj (Except.ok.inj heq)
        exact hmap₁
    rw [hsame]
    exact fun id h hmaps => Or.inl hmaps
  · obtain ⟨order, -, heq⟩ := bind_eq_ok.mp heq
    obtain ⟨u, -, heq⟩ := bind_eq_ok.mp heq
    obtain ⟨pool', -, heq⟩ := bind_eq_ok.mp heq
    obtain ⟨b₂, happend, heq⟩ := bind_eq_ok.mp heq
    have hmap₂ : b₂.idMap = b.idMap := (appendAt_idMap happend).trans hmap₁
    obtain ⟨found, hcontains, heq⟩ := bind_eq_ok.mp heq
    obtain ⟨u', habsent, heq⟩ := bind_eq_ok.mp heq
    obtain ⟨m, hinsert, heq⟩ := bind_eq_ok.mp heq
    obtain ⟨rfl, -⟩ := Prod.mk.inj (Except.ok.inj heq)
    rw [of_require habsent, hmap₂] at hcontains
    rw [hmap₂] at hinsert
    exact IdMap.maps_insert hok (IdMap.absent_of_contains hok hcontains) hinsert

/-- What matches and rests adds at most its own entry. -/
theorem matchAndRest_entries {tif : TimeInForce} {r : AddResult} (hok : b.idMap.Ok)
    (heq : b.matchAndRest incoming seq tif = .ok (b', r)) :
    ∀ id h, b'.idMap.Maps id h → b.idMap.Maps id h ∨ id = incoming.orderId := by
  obtain ⟨⟨b₁, left, trades, stopped⟩, hcross, heq⟩ := bind_eq_ok.mp heq
  obtain ⟨hkeeps, hid⟩ := cross_keeps hok hcross
  dsimp only at heq
  split at heq
  · obtain ⟨⟨b₂, rested⟩, hrest, heq⟩ := bind_eq_ok.mp heq
    have hb : b₂ = b' := by
      dsimp only at heq
      split at heq
      · exact (Prod.mk.inj (Except.ok.inj heq)).1
      · exact (Prod.mk.inj (Except.ok.inj heq)).1
    rw [← hb]
    intro id h hmaps
    rcases rest_entries hkeeps.ok hrest id h hmaps with hmaps | hmaps
    · exact Or.inl (hkeeps.maps id h hmaps)
    · exact Or.inr (hmaps.trans hid)
  · obtain ⟨rfl, -⟩ := Prod.mk.inj (Except.ok.inj heq)
    exact fun id h hmaps => Or.inl (hkeeps.maps id h hmaps)

/-- A command that is turned down. -/
theorem inherits_tick {r r' : AddResult} (hok : b.idMap.Ok)
    (heq : (Except.ok (b.tick, r') : Checked (Book × AddResult)) = .ok (b', r)) :
    Inherits b.idMap b'.idMap := by
  obtain ⟨rfl, -⟩ := Prod.mk.inj (Except.ok.inj heq)
  exact .of_keeps (.refl hok)

/-- A limit order overwrites no entry. -/
theorem addLimitOrder_entries {result r : AddResult} {qty : Qty} {account : Account}
    {tif : TimeInForce} (hok : b.idMap.Ok)
    (heq : b.addLimitOrder result id side price qty account tif = .ok (b', r)) :
    Inherits b.idMap b'.idMap := by
  rw [addLimitOrder_eq] at heq
  split at heq
  · exact inherits_tick hok heq
  obtain ⟨found, hcontains, heq⟩ := bind_eq_ok.mp heq
  split at heq
  · exact inherits_tick hok heq
  · next hfound =>
    rw [Bool.not_eq_true] at hfound
    rw [hfound] at hcontains
    have habsent := IdMap.absent_of_contains hok hcontains
    have hok' : b.tick.idMap.Ok := hok
    have hmatch : b.tick.matchAndRest (limitOrder id side price qty account) b.nextSeq tif =
        .ok (b', r) → Inherits b.idMap b'.idMap := by
      intro heq id' h hmaps
      rcases matchAndRest_entries hok' heq id' h hmaps with hmaps | hid
      · exact Or.inl hmaps
      · right
        rw [hid]
        exact habsent
    split at heq
    · obtain ⟨available, -, heq⟩ := bind_eq_ok.mp heq
      split at heq
      · exact inherits_tick hok heq
      · exact hmatch heq
    · exact hmatch heq

/-- A market order overwrites no entry. -/
theorem addMarketOrder_entries {result r : AddResult} {qty : Qty} {account : Account}
    (hok : b.idMap.Ok) (heq : b.addMarketOrder result id side qty account = .ok (b', r)) :
    Inherits b.idMap b'.idMap := by
  rw [addMarketOrder_eq] at heq
  split at heq
  · exact inherits_tick hok heq
  obtain ⟨found, -, heq⟩ := bind_eq_ok.mp heq
  split at heq
  · exact inherits_tick hok heq
  · obtain ⟨⟨b₁, left, trades, stopped⟩, hcross, heq⟩ := bind_eq_ok.mp heq
    obtain ⟨rfl, -⟩ := Prod.mk.inj (Except.ok.inj heq)
    exact .of_keeps (cross_keeps (b := b.tick) hok hcross).1

/-- A cancel overwrites no entry. -/
theorem cancelOrder_entries {ok : Bool} (hok : b.idMap.Ok)
    (heq : b.cancelOrder id = .ok (b', ok)) : Inherits b.idMap b'.idMap := by
  obtain ⟨found, -, heq⟩ := bind_eq_ok.mp heq
  split at heq
  · obtain ⟨rfl, -⟩ := Prod.mk.inj (Except.ok.inj heq)
    exact .of_keeps (.refl hok)
  · obtain ⟨order, -, heq⟩ := bind_eq_ok.mp heq
    split at heq
    · obtain ⟨⟨erased, m⟩, herase, heq⟩ := bind_eq_ok.mp heq
      obtain ⟨rfl, -⟩ := Prod.mk.inj (Except.ok.inj heq)
      exact .of_keeps (IdMap.keeps_erase hok herase)
    · obtain ⟨pos, -, heq⟩ := bind_eq_ok.mp heq
      obtain ⟨b₁, hunlink, heq⟩ := bind_eq_ok.mp heq
      obtain ⟨⟨erased, m⟩, herase, heq⟩ := bind_eq_ok.mp heq
      obtain ⟨rfl, -⟩ := Prod.mk.inj (Except.ok.inj heq)
      have hmap₁ : b₁.idMap = b.tick.idMap := unlinkAt_idMap hunlink
      have hmap : b₁.idMap = b.idMap := hmap₁
      rw [← hmap] at hok ⊢
      exact .of_keeps (IdMap.keeps_erase hok herase)

/-- A modify overwrites no entry. -/
theorem modifyOrder_entries {qty : Qty} {ok : Bool} (hok : b.idMap.Ok)
    (heq : b.modifyOrder id price qty = .ok (b', ok)) : Inherits b.idMap b'.idMap := by
  have hsame : b'.idMap = b.idMap → Inherits b.idMap b'.idMap := by
    intro hmap
    rw [hmap]
    exact .of_keeps (.refl hok)
  rw [modifyOrder] at heq
  dsimp only at heq
  split at heq
  · obtain ⟨rfl, -⟩ := Prod.mk.inj (Except.ok.inj heq)
    exact hsame rfl
  obtain ⟨found, -, heq⟩ := bind_eq_ok.mp heq
  split at heq
  · obtain ⟨rfl, -⟩ := Prod.mk.inj (Except.ok.inj heq)
    exact hsame rfl
  obtain ⟨order, -, heq⟩ := bind_eq_ok.mp heq
  split at heq
  · obtain ⟨⟨erased, m⟩, herase, heq⟩ := bind_eq_ok.mp heq
    obtain ⟨rfl, -⟩ := Prod.mk.inj (Except.ok.inj heq)
    exact .of_keeps (IdMap.keeps_erase hok herase)
  split at heq
  · -- in place
    obtain ⟨pool, -, heq⟩ := bind_eq_ok.mp heq
    obtain ⟨rfl, -⟩ := Prod.mk.inj (Except.ok.inj heq)
    exact hsame rfl
  obtain ⟨crosses, -, heq⟩ := bind_eq_ok.mp heq
  split at heq
  · obtain ⟨rfl, -⟩ := Prod.mk.inj (Except.ok.inj heq)
    exact hsame rfl
  · -- relinked at the new price
    obtain ⟨pos, -, heq⟩ := bind_eq_ok.mp heq
    obtain ⟨b₁, hunlink, heq⟩ := bind_eq_ok.mp heq
    obtain ⟨pool, -, heq⟩ := bind_eq_ok.mp heq
    obtain ⟨⟨b₂, pos'⟩, hlevel, heq⟩ := bind_eq_ok.mp heq
    obtain ⟨b₃, happend, heq⟩ := bind_eq_ok.mp heq
    obtain ⟨rfl, -⟩ := Prod.mk.inj (Except.ok.inj heq)
    have hmap₁ : b₁.idMap = b.tick.idMap := unlinkAt_idMap hunlink
    have hmap₂ : b₂.idMap = { b₁ with pool }.idMap := levelForInsert_idMap hlevel
    exact hsame ((appendAt_idMap happend).trans (hmap₂.trans hmap₁))

/-- **What a command does to the id map.** -/
theorem exec_entries {c : Command} {reply : Reply} (hok : b.idMap.Ok)
    (heq : b.exec c = .ok (b', reply)) : Inherits b.idMap b'.idMap := by
  rw [exec] at heq
  split at heq
  · obtain ⟨⟨b₁, r⟩, hadd, heq⟩ := bind_eq_ok.mp heq
    obtain ⟨rfl, -⟩ := Prod.mk.inj (Except.ok.inj heq)
    exact addLimitOrder_entries hok hadd
  · obtain ⟨⟨b₁, r⟩, hadd, heq⟩ := bind_eq_ok.mp heq
    obtain ⟨rfl, -⟩ := Prod.mk.inj (Except.ok.inj heq)
    exact addMarketOrder_entries hok hadd
  · obtain ⟨⟨b₁, ok⟩, hcancel, heq⟩ := bind_eq_ok.mp heq
    obtain ⟨rfl, -⟩ := Prod.mk.inj (Except.ok.inj heq)
    exact cancelOrder_entries hok hcancel
  · obtain ⟨⟨b₁, ok⟩, hmodify, heq⟩ := bind_eq_ok.mp heq
    obtain ⟨rfl, -⟩ := Prod.mk.inj (Except.ok.inj heq)
    exact modifyOrder_entries hok hmodify

end Book

/-! ## The life of an order -/

/-- The command cancels the order, or its trades take all of it that rests. -/
def Leaves (id : OrderId) (l : List RestingOrder) (c : Command) (reply : Reply) : Prop :=
  cancels id c reply = true ∨
    ∃ o ∈ l, o.orderId = id ∧ tradedBy id reply.trades = o.qty.toNat

instance (id : OrderId) (l : List RestingOrder) (c : Command) (reply : Reply) :
    Decidable (Leaves id l c reply) :=
  inferInstanceAs (Decidable (_ ∨ ∃ o ∈ l, o.orderId = id ∧ tradedBy id reply.trades = o.qty.toNat))

namespace PriorityBook

variable {s s' : PriorityBook} {c : Command} {reply : Reply} {id : OrderId}

/-- An order that was not filled in full is still there. -/
theorem ids_swept (h : s.Ok) (hid : id ∈ s.ids)
    (hno : ∀ o ∈ s.orders, o.orderId = id → tradedBy id (s.tradesOfSweep c) ≠ o.amount) :
    id ∈ (s.swept c).ids := by
  obtain ⟨o, ho, rfl⟩ := mem_ids.mp hid
  rw [mem_ids, orders_swept h c]
  exact ⟨_, mem_removeTrades.mpr ⟨o, ho, hno o ho rfl, rfl⟩, rfl⟩

theorem mem_ids_insert {o : RestingOrder} :
    id ∈ (s.insert o).ids ↔ id = o.orderId ∨ id ∈ s.ids := by
  rw [ids, ((orders_insert s o).map (·.orderId)).mem_iff, List.map_cons, List.mem_cons]
  rfl

theorem mem_ids_remove (h : s.Ok) {o : RestingOrder} (ho : o ∈ s.orders) (hid : id ∈ s.ids) :
    id = o.orderId ∨ id ∈ (s.remove o).ids := by
  rw [ids, ((orders_remove h ho).map (·.orderId)).mem_iff, List.map_cons, List.mem_cons] at hid
  exact hid

/-- **An order rests until it leaves.** -/
theorem Effect.ids_mem (h : s.Ok) (heff : Effect s c s' reply) (hid : id ∈ s.ids)
    (hstays : ¬ Leaves id s.orders c reply) : id ∈ s'.ids := by
  rw [Leaves, not_or] at hstays
  obtain ⟨hkept, hunfilled⟩ := hstays
  have hswept : reply.trades = s.tradesOfSweep c → id ∈ (s.swept c).ids := by
    intro htrades
    apply ids_swept h hid
    intro o ho hoid hfilled
    exact hunfilled ⟨o, ho, hoid, htrades ▸ hfilled⟩
  cases heff with
  | refused _ _ => exact hid
  | killed _ _ => exact hid
  | matched _ _ _ _ => exact hswept rfl
  | exhausted _ _ _ _ => exact hswept rfl
  | rested _ _ _ _ => exact mem_ids_insert.mpr (Or.inr (hswept rfl))
  | ignored _ => exact hid
  | cancelled o hkind hfind =>
    obtain ⟨ho, hoid⟩ := mem_of_find hfind
    rcases mem_ids_remove h.tick ho hid with rfl | hid
    · exact absurd (decide_eq_true ⟨hkind, hoid.symm, rfl⟩) hkept
    · exact hid
  | reduced o _ hfind _ _ _ =>
    have hsame : (s.tick.setQty o c.qty).ids = s.ids := by
      rw [ids_eq, ids_eq, identities_setQty, identities_setQty]
      rfl
    rwa [hsame]
  | moved o _ hfind _ _ =>
    obtain ⟨ho, -⟩ := mem_of_find hfind
    have hor := mem_ids_remove h.tick ho hid
    exact mem_ids_insert.mpr hor

end PriorityBook

namespace Book

variable {b b' : Book} {s : PriorityBook} {id : OrderId} {h h' : Handle} {c : Command}
  {reply : Reply}

/-- No command takes the order out of the book, in the run of the commands from `b` on. -/
def Lives (id : OrderId) : Book → List Command → Prop
  | _, [] => True
  | b, c :: cmds => ∀ l b' reply, b.snapshot = .ok l → b.exec c = .ok (b', reply) →
      ¬ Leaves id l c reply ∧ Lives id b' cmds

/-- An order lives through a command and through the rest. -/
theorem lives_cons {l : List RestingOrder} {cmds : List Command} (hsnap : b.snapshot = .ok l)
    (hexec : b.exec c = .ok (b', reply)) :
    Lives id b (c :: cmds) ↔ ¬ Leaves id l c reply ∧ Lives id b' cmds := by
  constructor
  · intro hlives
    exact hlives l b' reply hsnap hexec
  · intro hboth l' b'' reply' hsnap' hexec'
    rw [hsnap, Except.ok.injEq] at hsnap'
    rw [hexec, Except.ok.injEq, Prod.mk.injEq] at hexec'
    rw [← hsnap', ← hexec'.1, ← hexec'.2]
    exact hboth

instance decidableLives (id : OrderId) :
    (b : Book) → (cmds : List Command) → Decidable (Lives id b cmds)
  | _, [] => .isTrue trivial
  | b, c :: cmds =>
    match hsnap : b.snapshot, hexec : b.exec c with
    | .ok _, .ok (b', _) =>
      have := decidableLives id b' cmds
      decidable_of_iff _ (lives_cons hsnap hexec).symm
    | .error _, _ => .isTrue fun _ _ _ hsnap' _ => nomatch hsnap.symm.trans hsnap'
    | .ok _, .error _ => .isTrue fun _ _ _ _ hexec' => nomatch hexec.symm.trans hexec'

/-- The order `id` rests in the slot of the handle `h`, and no other order does. -/
structure Owns (b : Book) (id : OrderId) (h : Handle) : Prop where
  find : b.idMap.find id = .ok (some h)
  valid : b.pool.validate h = true
  holds : ∃ o l, b.pool.get h = .ok (some o) ∧ o.orderId = id ∧ b.snapshot = .ok l ∧
    (⟨o.side, o.price, o.orderId, o.qty, o.account, o.seqNo⟩ : RestingOrder) ∈ l
  alone : ∀ id' h', id' ≠ id → b.idMap.find id' = .ok (some h') → h'.index ≠ h.index
  generation : b.pool.generationAt h.index = h.generation

/-- An id that owns a handle is one of a resting order. -/
theorem Owns.mem_ids (hown : b.Owns id h) (hrep : b.Represents s) : id ∈ s.ids := by
  obtain ⟨o, l, -, hoid, hsnap, hmem⟩ := hown.holds
  rw [snapshot_spec hrep, Except.ok.injEq] at hsnap
  rw [← hsnap] at hmem
  exact PriorityBook.mem_ids.mpr ⟨_, hmem, hoid⟩

/-- A resting order owns a handle. -/
theorem owns_of_represents (hrep : b.Represents s) (hid : id ∈ s.ids) : ∃ h, b.Owns id h := by
  have hsnap := snapshot_spec hrep
  obtain ⟨L, vacant, hrepr, hs⟩ := hrep
  rcases find_cases hrepr hs id with ⟨-, hnone⟩ | ⟨i, o, hi, ho, hoid, hfind, hsome⟩
  · exact absurd hid (PriorityBook.find_eq_none.mp hnone)
  · have hused : i ∈ allSlots L := Repr.mem_allSlots hi
    have hindex : (b.pool.handleAt i).index = i := index_makeHandle i _
    refine ⟨b.pool.handleAt i, hfind, hrepr.validate hused, ?_, ?_, ?_⟩
    · obtain ⟨hmem, -⟩ := PriorityBook.mem_of_find hsome
      exact ⟨o, s.orders, hrepr.pool.get_of_mem ho, hoid, hsnap, hmem⟩
    · intro id' h' hne hfind'
      rcases find_cases hrepr hs id' with ⟨hnone, -⟩ | ⟨j, o', -, ho', hoid', hsome', -⟩
      · rw [hfind'] at hnone
        cases hnone
      · rw [hfind', Except.ok.injEq, Option.some_inj] at hsome'
        have hindex' : (b.pool.handleAt j).index = j := index_makeHandle j _
        rw [hindex, hsome', hindex']
        rintro rfl
        rw [ho, Option.some_inj] at ho'
        exact hne (by rw [← hoid', ← ho', hoid])
    · rw [hindex]
      exact (generation_makeHandle i _).symm

/-- **A command does not change the handle** of an order that rests before and after it. -/
theorem exec_handle (hrep : b.Represents s) (hok : s.Ok) (heq : b.exec c = .ok (b', reply))
    (hfind : b.idMap.find id = .ok (some h)) (hfind' : b'.idMap.find id = .ok (some h')) :
    h' = h := by
  obtain ⟨b₁, hexec, hrep'⟩ := exec_spec hrep hok c
  rw [heq, Except.ok.injEq, Prod.mk.injEq] at hexec
  rw [← hexec.1] at hrep'
  obtain ⟨L, vacant, hrepr, hs⟩ := hrep
  obtain ⟨L', vacant', hrepr', hs'⟩ := hrep'
  have hmaps := IdMap.maps_of_find hrepr.index.ok hfind
  rcases exec_entries hrepr.index.ok heq id h' (IdMap.maps_of_find hrepr'.index.ok hfind') with
    hmaps' | habsent
  · exact IdMap.maps_unique hrepr.index.ok hmaps' hmaps
  · exact absurd hmaps (habsent h)

/-- **The handle is kept** through every part of a run in which the order lives. -/
theorem represents_owns (hrep : b.Represents s) (hok : s.Ok) (hown : b.Owns id h)
    (more : List Command) (hlives : Lives id b more) :
    ∀ part, part <+: more → ∃ b' replies, runM exec b part = .ok (b', replies) ∧ b'.Owns id h := by
  induction more generalizing b s with
  | nil =>
    intro part hpart
    rw [List.prefix_nil.mp hpart]
    exact ⟨b, [], rfl, hown⟩
  | cons c more ih =>
    intro part hpart
    rcases List.prefix_cons_iff.mp hpart with hnil | ⟨part', hcons, hpart'⟩
    · rw [hnil]
      exact ⟨b, [], rfl, hown⟩
    · obtain ⟨b₁, hexec, hrep₁⟩ := exec_spec hrep hok c
      obtain ⟨hstays, hlives₁⟩ := (lives_cons (snapshot_spec hrep) hexec).mp hlives
      -- the order still rests, so its id has a handle, which can only be the old one
      have hid₁ : id ∈ (s.exec counter32 c).1.ids :=
        (PriorityBook.exec_effect hok counter32 c).ids_mem hok (hown.mem_ids hrep) hstays
      obtain ⟨h₁, hown₁⟩ := owns_of_represents hrep₁ hid₁
      have hsame : h₁ = h := exec_handle hrep hok hexec hown.find hown₁.find
      rw [hsame] at hown₁
      obtain ⟨b', replies, hrun, hown'⟩ :=
        ih hrep₁ (hok.exec counter32 c) hown₁ hlives₁ part' hpart'
      refine ⟨b', (s.exec counter32 c).2 :: replies, ?_, hown'⟩
      rw [hcons]
      exact runM_cons hexec hrun

/-- **An order keeps its handle** from the command that rests it to the command that fills or
cancels it, and its slot and the generation of the slot with it. -/
theorem handle_is_kept (b : Book) (hb : b.Reachable) (l : List RestingOrder)
    (hsnap : b.snapshot = .ok l) (id : OrderId) (hid : id ∈ l.map (·.orderId))
    (more : List Command) (hlives : Lives id b more) :
    ∃ h, ∀ part, part <+: more →
      ∃ b' replies, runM exec b part = .ok (b', replies) ∧ b'.Owns id h := by
  obtain ⟨s, hrep, hok, rfl⟩ := hb.shows hsnap
  obtain ⟨h, hown⟩ := owns_of_represents hrep hid
  exact ⟨h, represents_owns hrep hok hown more hlives⟩

/-- An order in a slot that was used before, over the cancel of another order, its own moves
to another price and back, and a trade with part of it. -/
theorem handle_is_kept_moved :
    ∃ h, ∀ part, part <+: [cancelCommand 1, modifyCommand 3 4 6, limitCommand 4 .buy 5 1 2,
        modifyCommand 3 5 6, limitCommand 5 .sell 5 3 3] →
      ∃ b' replies, runM exec (after 3 [limitCommand 1 .buy 5 7 1, limitCommand 2 .buy 5 7 1,
          cancelCommand 2, limitCommand 3 .buy 5 7 1]) part = .ok (b', replies) ∧ b'.Owns 3 h :=
  handle_is_kept _ (reachable_after 3 _) [⟨.buy, 5, 1, 7, 1, 0⟩, ⟨.buy, 5, 3, 7, 1, 3⟩]
    (by decide +kernel) 3 (by decide) _ (by decide +kernel)

end Book

end MatchingEngine
