import MatchingEngine.Book.Refinement
import MatchingEngine.Spec.Ledger

/-!
# Trades and the orders behind them

`termsOf id` reads a history of commands and replies, and keeps the terms on which the order
`id` was last put into the book. In every run the resting orders stand on their terms
(`Stands`), so every trade is with an order that an earlier command put there, at that order's
price, within the limit of the taker, and not of the taker's account (`Fair`).
-/

namespace MatchingEngine

open Run

/-! ## Terms -/

/-- What an order stands for, apart from its quantity and its place. -/
structure Terms where
  side : Side
  account : Account
  price : Price
deriving DecidableEq

/-- The terms that an order stands on. -/
def RestingOrder.terms (o : RestingOrder) : Terms := ⟨o.side, o.account, o.price⟩

/-- The terms of the order of `id` after one more command: those of a rest, or the price of a
modify. -/
def Terms.next (id : OrderId) (e : Option Terms) (p : Command × Reply) : Option Terms :=
  if p.1.id = id then
    match p.2 with
    | .added r => if r.restingQty = 0 then e else some ⟨p.1.side, p.1.account, p.1.price⟩
    | .flag ok =>
      if p.1.kind = .modify ∧ ok = true then e.map fun e => { e with price := p.1.price } else e
  else e

/-- The terms that the order of `id` was last given. -/
def termsOf (id : OrderId) (history : List (Command × Reply)) : Option Terms :=
  history.foldl (Terms.next id) none

/-- The command put a part of its order into the book. -/
def Rested (id : OrderId) (e : Terms) (p : Command × Reply) : Prop :=
  p.1.kind = .limit ∧ p.1.tif = .gtc ∧ p.1.id = id ∧ p.1.side = e.side ∧
    p.1.account = e.account ∧ ∃ r, p.2 = .added r ∧ r.restingQty ≠ 0

/-- What makes a trade of a command fair, after some history. -/
structure Fair (history : List (Command × Reply)) (c : Command) (t : Trade) : Prop where
  adds : c.Adds
  taker : t.takerOrderId = c.id
  maker : ∃ e, termsOf t.makerOrderId history = some e ∧ e.side = c.side.opposite ∧
    e.account ≠ c.account ∧ e.price = t.price ∧ ∃ p ∈ history, Rested t.makerOrderId e p
  limit : reaches c.side c.limit t.price = true

section

variable {id : OrderId} {e : Option Terms} {c : Command} {reply : Reply}
  {history : List (Command × Reply)}

/-- The terms after one more command. -/
theorem termsOf_concat (id : OrderId) (history : List (Command × Reply)) (p : Command × Reply) :
    termsOf id (history ++ [p]) = Terms.next id (termsOf id history) p := by
  rw [termsOf, List.foldl_append]
  rfl

theorem Terms.next_of_ne (h : c.id ≠ id) : Terms.next id e (c, reply) = e := if_neg h

/-- An order that does not rest gives no terms. -/
theorem Terms.next_added {r : AddResult} (h : r.restingQty = 0) :
    Terms.next id e (c, .added r) = e := by
  unfold Terms.next
  dsimp only
  rw [if_pos h, ite_self]

/-- A cancel, or a modify that fails, gives no terms. -/
theorem Terms.next_flag {ok : Bool} (h : ¬ (c.kind = .modify ∧ ok = true)) :
    Terms.next id e (c, .flag ok) = e := by
  unfold Terms.next
  dsimp only
  rw [if_neg h, ite_self]

/-- An order that rests gives its terms. -/
theorem Terms.next_rested {r : AddResult} (hid : c.id = id) (h : r.restingQty ≠ 0) :
    Terms.next id e (c, .added r) = some ⟨c.side, c.account, c.price⟩ := by
  unfold Terms.next
  dsimp only
  rw [if_pos hid, if_neg h]

/-- A modify gives a price. -/
theorem Terms.next_modified (hid : c.id = id) (hkind : c.kind = .modify) :
    Terms.next id e (c, .flag true) = e.map fun e => { e with price := c.price } := by
  unfold Terms.next
  dsimp only
  rw [if_pos hid, if_pos ⟨hkind, rfl⟩]

end

/-! ## What stands in the book -/

/-- The resting orders stand on their terms. -/
def Stands (history : List (Command × Reply)) (s : PriorityBook) : Prop :=
  ∀ o ∈ s.orders, termsOf o.orderId history = some o.terms

namespace Stands

open PriorityBook

variable {s s' : PriorityBook} {c : Command} {o : RestingOrder} {reply : Reply}
  {history : List (Command × Reply)}

/-- A command that changes nobody's terms, and puts nobody into the book. -/
theorem idle (h : Stands history s) (hnext : ∀ id e, Terms.next id e (c, reply) = e)
    (hsub : ∀ o' ∈ s'.orders, ∃ o ∈ s.orders, o.orderId = o'.orderId ∧ o.terms = o'.terms) :
    Stands (history ++ [(c, reply)]) s' := by
  intro o' ho'
  obtain ⟨o, ho, hid, hterms⟩ := hsub o' ho'
  rw [termsOf_concat, hnext, ← hid, h o ho, hterms]

/-- Who is left after a sweep stood there before. -/
theorem of_swept (hok : s.Ok) (c : Command) :
    ∀ o' ∈ (s.swept c).orders, ∃ o ∈ s.orders, o.orderId = o'.orderId ∧ o.terms = o'.terms := by
  intro o' ho'
  rw [orders_swept hok] at ho'
  obtain ⟨o, ho, -, rfl⟩ := mem_removeTrades.mp ho'
  exact ⟨o, ho, rfl, rfl⟩

/-- An order gets a new quantity or a new place, on the price of the command. -/
theorem amended (hok : s.Ok) (h : Stands history s) (ho : o ∈ s.orders) (hid : o.orderId = c.id)
    (o' : RestingOrder) (hid' : o'.orderId = o.orderId)
    (hterms : o'.terms = { o.terms with price := c.price }) (hkind : c.kind = .modify)
    (hl : s'.orders.Perm (o' :: (s.remove o).orders)) :
    Stands (history ++ [(c, .flag true)]) s' := by
  intro o₁ ho₁
  rw [termsOf_concat]
  rcases List.mem_cons.mp (hl.mem_iff.mp ho₁) with rfl | ho₁
  · rw [Terms.next_modified (hid'.trans hid).symm hkind, hid', h o ho, hterms]
    rfl
  · -- the other orders have other ids
    have hmem : o₁ ∈ s.orders := (orders_remove hok ho).mem_iff.mpr (List.mem_cons_of_mem _ ho₁)
    have hne : c.id ≠ o₁.orderId := by
      intro heq
      rw [← hid] at heq
      exact notMem_ids_remove hok ho (mem_ids.mpr ⟨o₁, ho₁, heq.symm⟩)
    rw [Terms.next_of_ne hne]
    exact h o₁ hmem

/-- **A command keeps the orders on their terms.** -/
theorem step (hok : s.Ok) (h : Stands history s) (heff : Effect s c s' reply) :
    Stands (history ++ [(c, reply)]) s' := by
  have hsame : ∀ o' ∈ s.orders, ∃ o ∈ s.orders, o.orderId = o'.orderId ∧ o.terms = o'.terms :=
    fun o' ho' => ⟨o', ho', rfl, rfl⟩
  cases heff with
  | refused => exact h.idle (fun _ _ => Terms.next_added rfl) hsame
  | killed => exact h.idle (fun _ _ => Terms.next_added rfl) hsame
  | matched => exact h.idle (fun _ _ => Terms.next_added rfl) (of_swept hok c)
  | exhausted => exact h.idle (fun _ _ => Terms.next_added rfl) (of_swept hok c)
  | rested hq hid hrest hroom =>
    have hne : (s.residual c).qty ≠ 0 := ofNat_unmet_ne hrest.unmet
    intro o' ho'
    rw [termsOf_concat]
    rcases List.mem_cons.mp ((orders_insert _ _).mem_iff.mp ho') with rfl | ho'
    · exact Terms.next_rested rfl hne
    · obtain ⟨o, ho, hido, hterms⟩ := of_swept hok c o' ho'
      -- nobody else has the id of the command
      have hne' : c.id ≠ o'.orderId := by
        intro heq
        exact hid (mem_ids.mpr ⟨o, ho, hido.trans heq.symm⟩)
      rw [Terms.next_of_ne hne', ← hido, h o ho, hterms]
  | ignored =>
    exact h.idle (fun _ _ => Terms.next_flag fun hset => Bool.noConfusion hset.2) hsame
  | cancelled o hkind hfind =>
    obtain ⟨ho, hid⟩ := mem_of_find hfind
    refine h.idle (fun _ _ => Terms.next_flag fun hset => ?_) fun o' ho' => ⟨o', ?_, rfl, rfl⟩
    · rw [hkind] at hset
      cases hset.1
    · exact (orders_remove hok.tick ho).mem_iff.mpr (List.mem_cons_of_mem _ ho')
  | reduced o hkind hfind hq hprice =>
    obtain ⟨ho, hid⟩ := mem_of_find hfind
    refine amended hok.tick h ho hid { o with qty := c.qty } rfl ?_ hkind
      (orders_setQty hok.tick ho c.qty)
    rw [hprice]
    rfl
  | moved o hkind hfind =>
    obtain ⟨ho, hid⟩ := mem_of_find hfind
    exact amended hok.tick h ho hid (s.modified o c) rfl rfl hkind (orders_insert _ _)

end Stands

/-! ## Trades -/

/-- A trade is between the taker and an order that was taken, at the price of the latter. -/
theorem parties_of_trade {taker : OrderId} {seq : SeqNo} {taken : List (RestingOrder × ℕ)}
    {t : Trade} : ∀ {tradeId}, t ∈ tradesOf taker seq tradeId taken →
      t.takerOrderId = taker ∧ ∃ p ∈ taken, t.makerOrderId = p.1.orderId ∧ t.price = p.1.price := by
  induction taken with
  | nil => exact fun ht => absurd ht List.not_mem_nil
  | cons p taken ih =>
    intro tradeId ht
    rcases List.mem_cons.mp ht with rfl | ht
    · exact ⟨rfl, p, List.mem_cons_self, rfl, rfl⟩
    · obtain ⟨htaker, p', hp', hparty⟩ := ih ht
      exact ⟨htaker, p', List.mem_cons_of_mem _ hp', hparty⟩

/-- What holds of every run of the abstract book. -/
structure Fairly (history : List (Command × Reply)) (s : PriorityBook) : Prop where
  ok : s.Ok
  stands : Stands history s
  rested : ∀ id e, termsOf id history = some e → ∃ p ∈ history, Rested id e p
  fair : ∀ (k : ℕ) (p : Command × Reply), history[k]? = some p →
    ∀ t ∈ p.2.trades, Fair (history.take k) p.1 t

namespace Fairly

open PriorityBook

variable {s s' : PriorityBook} {c : Command} {reply : Reply} {history : List (Command × Reply)}

/-- **The trades of a sweep are fair.** -/
theorem trades (h : Fairly history s) (hadds : c.Adds) :
    ∀ t ∈ s.tradesOfSweep c, Fair history c t := by
  intro t ht
  obtain ⟨htaker, p, hp, hmaker, hprice⟩ := parties_of_trade ht
  have hrests : p.1 ∈ s.resting c.side.opposite := mem_of_taken h.ok c p hp
  have hclear : reaches c.side c.limit p.1.price = true ∧ (p.1.account == c.account) = false :=
    Greedy.clear_of_taken (amount_pos h.ok c.side.opposite) p hp
  have hterms := h.stands p.1 (mem_orders.mpr ⟨_, hrests⟩)
  have hrested := h.rested _ _ hterms
  rw [← hmaker] at hterms hrested
  refine ⟨hadds, htaker, ⟨p.1.terms, hterms, ?_, ?_, hprice.symm, hrested⟩, ?_⟩
  · exact h.ok.side _ _ hrests
  · exact fun heq => absurd hclear.2 (by rw [show p.1.account = c.account from heq]; simp)
  · rw [hprice]
    exact hclear.1

/-- Terms come from an order that came to rest. -/
theorem rested_step (h : Fairly history s) (heff : Effect s c s' reply) (id : OrderId) (e : Terms)
    (he : termsOf id (history ++ [(c, reply)]) = some e) :
    ∃ p ∈ history ++ [(c, reply)], Rested id e p := by
  rw [termsOf_concat] at he
  -- terms from before, with another price
  have hbefore : ∀ e', termsOf id history = some e' → e'.side = e.side → e'.account = e.account →
      ∃ p ∈ history ++ [(c, reply)], Rested id e p := by
    intro e' he' hside haccount
    obtain ⟨p, hp, hkind, htif, hid, hpside, hpaccount, hr⟩ := h.rested id e' he'
    exact ⟨p, List.mem_append_left _ hp, hkind, htif, hid, hpside.trans hside,
      hpaccount.trans haccount, hr⟩
  cases heff with
  | refused =>
    rw [Terms.next_added rfl] at he
    exact hbefore e he rfl rfl
  | killed =>
    rw [Terms.next_added rfl] at he
    exact hbefore e he rfl rfl
  | matched =>
    rw [Terms.next_added rfl] at he
    exact hbefore e he rfl rfl
  | exhausted =>
    rw [Terms.next_added rfl] at he
    exact hbefore e he rfl rfl
  | rested hq hid hrest hroom =>
    by_cases hc : c.id = id
    · have hne : (s.residual c).qty ≠ 0 := ofNat_unmet_ne hrest.unmet
      rw [Terms.next_rested hc hne, Option.some_inj] at he
      subst he
      exact ⟨_, List.mem_append_right _ List.mem_cons_self, hrest.kind, hrest.tif, hc, rfl, rfl, _,
        rfl, hne⟩
    · rw [Terms.next_of_ne hc] at he
      exact hbefore e he rfl rfl
  | ignored =>
    rw [Terms.next_flag fun hset => Bool.noConfusion hset.2] at he
    exact hbefore e he rfl rfl
  | cancelled o hkind hfind =>
    rw [Terms.next_flag fun hset => by rw [hkind] at hset; cases hset.1] at he
    exact hbefore e he rfl rfl
  | reduced o hkind =>
    by_cases hc : c.id = id
    · rw [Terms.next_modified hc hkind, Option.map_eq_some_iff] at he
      obtain ⟨e', he', rfl⟩ := he
      exact hbefore e' he' rfl rfl
    · rw [Terms.next_of_ne hc] at he
      exact hbefore e he rfl rfl
  | moved o hkind =>
    by_cases hc : c.id = id
    · rw [Terms.next_modified hc hkind, Option.map_eq_some_iff] at he
      obtain ⟨e', he', rfl⟩ := he
      exact hbefore e' he' rfl rfl
    · rw [Terms.next_of_ne hc] at he
      exact hbefore e he rfl rfl

/-- The trades of one command are fair. -/
theorem trades_step (h : Fairly history s) (heff : Effect s c s' reply) :
    ∀ t ∈ reply.trades, Fair history c t := by
  have hnone : ∀ t ∈ ([] : List Trade), Fair history c t := fun t ht => absurd ht List.not_mem_nil
  cases heff with
  | refused | killed | ignored | cancelled | reduced | moved => exact hnone
  | matched hadds => exact h.trades hadds
  | exhausted hq hid hrest => exact h.trades (Or.inl hrest.kind)
  | rested hq hid hrest => exact h.trades (Or.inl hrest.kind)

/-- One command more is fair. -/
theorem step (h : Fairly history s) (c : Command) :
    Fairly (history ++ [(c, (s.exec counter32 c).2)]) (s.exec counter32 c).1 := by
  have heff := exec_effect h.ok counter32 c
  refine ⟨h.ok.exec counter32 c, h.stands.step h.ok heff, h.rested_step heff, ?_⟩
  intro k p hp t ht
  by_cases hk : k < history.length
  · rw [List.getElem?_append_left hk] at hp
    rw [List.take_append_of_le_length hk.le]
    exact h.fair k p hp t ht
  · -- the command that was added is the last one
    rw [List.getElem?_append_right (not_lt.mp hk)] at hp
    have hlast : k - history.length = 0 := by
      have hlt := (List.getElem?_eq_some_iff.mp hp).1
      rw [List.length_singleton] at hlt
      omega
    rw [hlast, List.getElem?_cons_zero, Option.some_inj] at hp
    subst hp
    rw [show k = history.length by omega, List.take_left]
    exact h.trades_step heff t ht

end Fairly

/-- A new book is fair. -/
theorem fairly_new (capacity : ℕ) : Fairly [] (.new capacity) where
  ok := PriorityBook.ok_new capacity
  stands _ ho := absurd ho List.not_mem_nil
  rested _ _ he := by cases he
  fair _ _ hp := by cases hp

/-- **Every trade of a run is fair**: it is with an order that an earlier command put into the
book, on the other side, of another account, at the price that order had, and within the limit
of the taker. What rests at the end stands on the terms it was last given. -/
theorem every_trade_is_fair (capacity : Index) (cmds : List Command) :
    ∃ b replies l, runM Book.exec (Book.new capacity) cmds = .ok (b, replies) ∧
      b.snapshot = .ok l ∧ replies.length = cmds.length ∧
      (∀ (k : ℕ) (c : Command) (reply : Reply), cmds[k]? = some c → replies[k]? = some reply →
        ∀ t ∈ reply.trades, Fair ((cmds.take k).zip (replies.take k)) c t) ∧
      ∀ o ∈ l, termsOf o.orderId (cmds.zip replies) = some o.terms ∧
        ∃ p ∈ cmds.zip replies, Rested o.orderId o.terms p := by
  obtain ⟨b, hrun, hrep, -⟩ := Book.run_spec capacity cmds
  have hlen := length_run (PriorityBook.exec counter32) cmds (.new capacity.toNat)
  have hall := run_induction (P := Fairly) (fun _ _ c h => h.step c) cmds [] _
    (fairly_new capacity.toNat)
  rw [List.nil_append] at hall
  refine ⟨b, _, _, hrun, Book.snapshot_spec hrep, hlen, ?_, ?_⟩
  · intro k c reply hc hreply
    have hp := hall.fair k (c, reply) (List.getElem?_zip_eq_some.mpr ⟨hc, hreply⟩)
    rw [List.zip, List.take_zipWith] at hp
    exact hp
  · intro o ho
    have hterms := hall.stands o ho
    exact ⟨hterms, hall.rested _ _ hterms⟩

end MatchingEngine
