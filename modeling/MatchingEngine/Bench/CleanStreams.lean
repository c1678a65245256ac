import MatchingEngine.Bench.DrawTheorems
import MatchingEngine.Bench.ShadowTheorems
import MatchingEngine.Book.Refinement
import MatchingEngine.Spec.Reposition

/-!
# Clean streams

After every round of its loop the generator's shadow agrees with its book
(`Generator.Agrees`), so that the stream it puts out replays cleanly on a fresh book: every
cancel finds its order, and every limit order is accepted under a new id (`ReplaysCleanly`).
Both follow from one invariant of the loop (`Tracks`), over the orders of the abstract book.
-/

namespace MatchingEngine

namespace Bench

open PriorityBook Run

/-! ## What is promised -/

/-- The shadow bookkeeping agrees with the book: `live` has the ids that rest, each once,
`where` their positions there, and `remaining` their quantities. -/
def Generator.Agrees (g : Generator) : Prop :=
  ∃ l, g.book.snapshot = .ok l ∧ g.shadow.live.Nodup ∧
    g.shadow.live.Perm (l.map (·.orderId)) ∧
    (∀ id i, g.shadow.whereIdx id = some i ↔ g.shadow.live[i]? = some id) ∧
    ∀ id q, g.shadow.remaining id = some q ↔ ∃ o ∈ l, o.orderId = id ∧ o.qty = q

/-- A command that does what it is for, after the commands `earlier`. -/
def Clean (p : W1Params) (earlier : List Cmd) (c : Cmd) (reply : Reply) : Prop :=
  match c.kind with
  | .cancel => reply = .flag true
  | .limit => (∀ c' ∈ earlier, c'.id ≠ c.id) ∧ c.InRange p ∧
      ∃ r, reply = .added r ∧ r.accepted = true ∧ r.stpRejected = false

/-- Every command of the stream has a reply and is clean with it. -/
def AllClean (p : W1Params) (out : List Cmd) (replies : List Reply) : Prop :=
  replies.length = out.length ∧
    ∀ i c reply, out[i]? = some c → replies[i]? = some reply → Clean p (out.take i) c reply

/-- The stream runs on an empty book to its end, and every reply is clean. -/
def ReplaysCleanly (p : W1Params) (out : List Cmd) : Prop :=
  ∃ b replies, runM apply (Book.new kBookCapacity) out = .ok (b, replies) ∧ AllClean p out replies

/-- The generator returns `ops` commands that replay cleanly, and its shadow agrees with its
book at every step of the way. -/
def Consistent (p : W1Params) (seed : UInt64) (ops : ℕ) : Prop :=
  ∃ cdf out, zipfCdf p.maxOffset = .ok cdf ∧ generate p seed ops = .ok out ∧ out.length = ops ∧
    (∀ k ≤ ops, ∃ g, Generator.after p cdf seed k = .ok g ∧ g.Agrees) ∧ ReplaysCleanly p out

/-! ## Limit orders under accounts of their own -/

section Effect

variable {s s' : PriorityBook} {c : Command} {r : AddResult}

/-- Without an order of its own account in the way, nothing stops a sweep. -/
theorem unstopped (hown : ∀ o ∈ s.orders, o.account ≠ c.account) :
    (s.sweepOf c).stopped = false := by
  rw [Bool.eq_false_iff]
  intro hstop
  have hstopped : (s.sweepOf c).stopped = true ↔ _ := Greedy.stopped_iff
  obtain ⟨-, o, ho, hbarred⟩ := hstopped.mp hstop
  have hmem : o ∈ s.resting c.side.opposite :=
    (List.takeWhile_sublist _).subset (List.mem_of_getElem? ho)
  exact hown o (mem_orders.mpr ⟨_, hmem⟩) (by simpa using hbarred)

/-- **What a limit order of the generator does**: it is matched, and what is left of it rests
if there is room. -/
theorem limit_effect (heff : Effect s c s' (.added r)) (htif : c.tif = .gtc) (hq : c.qty ≠ 0)
    (hid : c.id ∉ s.ids) (hown : ∀ o ∈ s.orders, o.account ≠ c.account) :
    r.accepted = true ∧ r.stpRejected = false ∧ r.trades = s.tradesOfSweep c ∧
      (r.restingQty = 0 ∧ s' = s.swept c ∨
        r.restingQty ≠ 0 ∧ r.restingQty = (s.residual c).qty ∧
          s' = (s.swept c).insert (s.residual c)) := by
  generalize hreply : Reply.added r = reply at heff
  cases heff with
  | refused hadds hbad => exact absurd hbad (not_or.mpr ⟨hq, hid⟩)
  | killed hkind hfok =>
    rw [htif] at hfok
    cases hfok
  | matched =>
    obtain rfl := Reply.added.inj hreply
    exact ⟨rfl, unstopped hown, rfl, Or.inl ⟨rfl, rfl⟩⟩
  | exhausted =>
    obtain rfl := Reply.added.inj hreply
    exact ⟨rfl, rfl, rfl, Or.inl ⟨rfl, rfl⟩⟩
  | rested hq' hid' hrest hroom =>
    obtain rfl := Reply.added.inj hreply
    exact ⟨rfl, rfl, rfl, Or.inr ⟨ofNat_unmet_ne hrest.unmet, rfl, rfl⟩⟩
  | ignored | cancelled | reduced | moved => cases hreply

end Effect

/-! ## The owners of the orders -/

section Owned

variable {next : OrderId} {l l' : List RestingOrder} {s : PriorityBook} {c : Command}

/-- Every order is older than `next` and has the account that belongs to its id. -/
def Owned (next : OrderId) (l : List RestingOrder) : Prop :=
  ∀ o ∈ l, o.orderId.toNat < next.toNat ∧ o.account = o.orderId.toUInt32

/-- Only ids and accounts matter here. -/
theorem Owned.of_alike (h : Owned next l)
    (hl : ∀ o' ∈ l', ∃ o ∈ l, o'.orderId = o.orderId ∧ o'.account = o.account) :
    Owned next l' := by
  intro o' ho'
  obtain ⟨o, ho, hid, haccount⟩ := hl o' ho'
  rw [hid, haccount]
  exact h o ho

/-- The next id is not live. -/
theorem Owned.notMem_ids (h : Owned next s.orders) : next ∉ s.ids := by
  rw [mem_ids]
  intro ho
  obtain ⟨o, ho, hid⟩ := ho
  have hlt := (h o ho).1
  rw [hid] at hlt
  omega

/-- Ids below 2 ^ 32 have different accounts. -/
theorem Owned.account_ne (h : Owned next l) (hnext : next.toNat < 2 ^ 32) :
    ∀ o ∈ l, o.account ≠ next.toUInt32 := by
  intro o ho e
  obtain ⟨hlt, haccount⟩ := h o ho
  have hnat := congrArg UInt32.toNat (haccount.symm.trans e)
  rw [UInt64.toNat_toUInt32, UInt64.toNat_toUInt32] at hnat
  omega

/-- A sweep leaves the orders owned as they were. -/
theorem Owned.swept (hok : s.Ok) (h : Owned next s.orders) (c : Command) :
    Owned next (s.swept c).orders := by
  apply h.of_alike
  intro o' ho'
  rw [orders_swept hok] at ho'
  obtain ⟨o, ho, -, heq⟩ := mem_removeTrades.mp ho'
  rw [← heq]
  exact ⟨o, ho, rfl, rfl⟩

theorem Owned.remove (hok : s.Ok) (h : Owned next s.orders) {o : RestingOrder} (ho : o ∈ s.orders) :
    Owned next (s.remove o).orders := by
  apply h.of_alike
  intro o' ho'
  exact ⟨o', (orders_remove hok ho).mem_iff.mpr (List.mem_cons_of_mem o ho'), rfl, rfl⟩

theorem toNat_succ (hnext : next.toNat < 2 ^ 32) : (next + 1).toNat = next.toNat + 1 := by
  rw [UInt64.toNat_add]
  show (next.toNat + 1) % 2 ^ 64 = next.toNat + 1
  omega

/-- One more id given out: the owned orders stay owned. -/
theorem Owned.succ (h : Owned next l) (hnext : next.toNat < 2 ^ 32) : Owned (next + 1) l := by
  intro o ho
  have hold := h o ho
  rw [toNat_succ hnext]
  exact ⟨by omega, hold.2⟩

/-- The order `next` comes to rest. -/
theorem Owned.insert (h : Owned next s.orders) (hnext : next.toNat < 2 ^ 32) {o : RestingOrder}
    (hid : o.orderId = next) (haccount : o.account = next.toUInt32) :
    Owned (next + 1) (s.insert o).orders := by
  intro o' ho'
  rcases List.mem_cons.mp ((orders_insert s o).mem_iff.mp ho') with rfl | ho'
  · rw [hid, toNat_succ hnext]
    exact ⟨by omega, haccount⟩
  · exact h.succ hnext o' ho'

end Owned

/-! ## Replaying -/

section Replay

variable {p : W1Params} {out : List Cmd} {replies : List Reply} {c : Cmd} {reply : Reply}

theorem AllClean.nil : AllClean p [] [] := by
  refine ⟨rfl, fun i c reply hc => ?_⟩
  rw [List.getElem?_nil] at hc
  cases hc

/-- A stream goes on with a clean command. -/
theorem AllClean.concat (h : AllClean p out replies) (hclean : Clean p out c reply) :
    AllClean p (out ++ [c]) (replies ++ [reply]) := by
  obtain ⟨hlength, hall⟩ := h
  refine ⟨by simp [hlength], fun i c' reply' hc' hreply' => ?_⟩
  rw [List.getElem?_append] at hc' hreply'
  by_cases hi : i < out.length
  · rw [if_pos hi] at hc'
    rw [if_pos (by omega)] at hreply'
    rw [List.take_append_of_le_length hi.le]
    exact hall i c' reply' hc' hreply'
  · rw [if_neg hi] at hc'
    rw [if_neg (by omega)] at hreply'
    have hlt := (List.getElem?_eq_some_iff.mp hc').1
    rw [List.length_singleton] at hlt
    have hend : i = out.length := by omega
    rw [hend, Nat.sub_self] at hc'
    rw [hend, hlength, Nat.sub_self] at hreply'
    obtain rfl := Option.some.inj hc'
    obtain rfl := Option.some.inj hreply'
    rw [hend, List.take_left]
    exact hclean

end Replay

/-! ## The invariant of the loop -/

/-- After `n` rounds, with `s` for what the book means. -/
structure Tracks (p : W1Params) (n : ℕ) (g : Generator) (s : PriorityBook) : Prop where
  represents : g.book.Represents s
  ok : s.Ok
  capacity : s.capacity = kBookCapacity.toNat
  shadow : g.shadow.Ok
  shows : g.shadow.Shows s.orders
  owned : Owned g.nextId s.orders
  nextId : g.nextId.toNat ≤ n + 1
  used : ∀ c ∈ g.out, c.id.toNat < g.nextId.toNat
  length : g.out.length = n
  replay : ∃ replies, runM apply (Book.new kBookCapacity) g.out = .ok (g.book, replies) ∧
    AllClean p g.out replies

namespace Tracks

variable {p : W1Params} {n : ℕ} {g : Generator} {s : PriorityBook}

/-- Before the first command nothing rests and nothing is recorded. -/
theorem start (p : W1Params) (seed : UInt64) :
    Tracks p 0 { rng := ⟨seed⟩ } (PriorityBook.new kBookCapacity.toNat) where
  represents := Book.represents_new kBookCapacity
  ok := ok_new _
  capacity := rfl
  shadow := Shadow.ok_empty
  shows id q := by
    refine iff_of_false (Option.some_ne_none q).symm fun ho => ?_
    obtain ⟨o, ho, -⟩ := ho
    cases ho
  owned o ho := by cases ho
  nextId := by
    show (1 : OrderId).toNat ≤ 0 + 1
    decide
  used c hc := by cases hc
  length := rfl
  replay := ⟨[], rfl, AllClean.nil⟩

theorem setRng (h : Tracks p n g s) (rng : Rng) : Tracks p n { g with rng } s :=
  ⟨h.represents, h.ok, h.capacity, h.shadow, h.shows, h.owned, h.nextId, h.used, h.length, h.replay⟩

/-- The recorded live ids are those that rest. -/
theorem perm_live (h : Tracks p n g s) : g.shadow.live.Perm s.ids := by
  rw [List.perm_ext_iff_of_nodup h.shadow.indexes.nodup h.ok.nodup]
  intro id
  rw [h.shows.mem_live h.shadow, mem_ids]

/-- What the generator's own book and its record say agrees. -/
theorem agrees (h : Tracks p n g s) : g.Agrees :=
  ⟨s.orders, Book.snapshot_spec h.represents, h.shadow.indexes.nodup, h.perm_live,
    h.shadow.indexes, h.shows⟩

/-- The number of live orders fits in a drawn number. -/
theorem length_live_lt (h : Tracks p n g s) : g.shadow.live.length < 2 ^ 64 := by
  have hlength := h.perm_live.length_eq
  rw [PriorityBook.ids, List.length_map] at hlength
  have hfits := h.ok.fits
  have hcapacity : kBookCapacity.toNat = 65536 := rfl
  rw [h.capacity] at hfits
  omega

/-- A round that puts out one clean command, which the book carries out as `s'` says and the
shadow follows. -/
theorem round (h : Tracks p n g s) {s' : PriorityBook} {b : Book} {sh : Shadow} {nextId : OrderId}
    {c : Cmd} {reply : Reply} (hrep : b.Represents s') (hok : s'.Ok)
    (hcapacity : s'.capacity = s.capacity) (hsh : sh.Ok) (hshows : sh.Shows s'.orders)
    (howned : Owned nextId s'.orders) (hge : g.nextId.toNat ≤ nextId.toNat)
    (hle : nextId.toNat ≤ g.nextId.toNat + 1) (hused : c.id.toNat < nextId.toNat)
    (happly : apply g.book c = .ok (b, reply)) (hclean : Clean p g.out c reply) (rng : Rng) :
    Tracks p (n + 1) { rng, book := b, shadow := sh, out := g.out ++ [c], nextId } s' where
  represents := hrep
  ok := hok
  capacity := hcapacity.trans h.capacity
  shadow := hsh
  shows := hshows
  owned := howned
  nextId := by
    have hold := h.nextId
    show nextId.toNat ≤ n + 1 + 1
    omega
  used c' hc' := by
    show c'.id.toNat < nextId.toNat
    rcases List.mem_append.mp hc' with hc' | hc'
    · have hold := h.used c' hc'
      omega
    · rw [List.mem_singleton.mp hc']
      exact hused
  length := by rw [List.length_append, h.length, List.length_singleton]
  replay := by
    obtain ⟨replies, hrun, hall⟩ := h.replay
    exact ⟨replies ++ [reply], runM_concat hrun happly, hall.concat hclean⟩

/-- **A cancel.** -/
theorem cancel (h : Tracks p n g s) (hlive : g.shadow.live ≠ []) :
    ∃ g' s', g.cancel = .ok g' ∧ Tracks p (n + 1) g' s' := by
  have hlength : (UInt64.ofNat g.shadow.live.length).toNat = g.shadow.live.length :=
    UInt64.toNat_ofNat_of_lt' h.length_live_lt
  have hpos : 0 < g.shadow.live.length := List.length_pos_of_ne_nil hlive
  have hne : UInt64.ofNat g.shadow.live.length ≠ 0 := fun e => by
    rw [e, UInt64.toNat_zero] at hlength
    omega
  obtain ⟨pick, rng, hpick, hlt⟩ := below_spec g.rng hne
  rw [hlength] at hlt
  obtain ⟨id, hid⟩ : ∃ id, g.shadow.live[pick.toNat]? = some id :=
    ⟨_, List.getElem?_eq_getElem hlt⟩
  -- the id that was picked rests
  obtain ⟨o, ho, rfl⟩ := (h.shows.mem_live h.shadow).mp (List.mem_of_getElem? hid)
  have hcancel : s.cancel o.orderId = (s.tick.remove o, true) := by
    rw [PriorityBook.cancel, find_of_mem h.ok ho]
  obtain ⟨b, hb, hrep⟩ := Book.cancelOrder_spec h.represents o.orderId
  rw [hcancel] at hb hrep
  obtain ⟨sh, hsh, hshOk, hshShows⟩ := Shadow.forget_removed h.shadow h.ok.tick h.shows ho
  have happly : apply g.book { kind := .cancel, id := o.orderId } = .ok (b, .flag true) := by
    unfold apply
    dsimp only
    rw [hb]
    rfl
  have hround := h.round hrep (h.ok.tick.remove o) rfl hshOk hshShows (h.owned.remove h.ok.tick ho)
    le_rfl (Nat.le_succ _) (h.owned o ho).1 happly rfl rng
  refine ⟨_, _, ?_, hround⟩
  unfold Generator.cancel
  rw [hpick, ok_bind]
  dsimp only
  rw [hid, orFault_some, ok_bind, hb, ok_bind]
  dsimp only
  rw [hsh]
  rfl

/-- What the loop body notes of a limit order, the shadow has of it. -/
theorem noted {s' : PriorityBook} {c : Command} {r : AddResult} {sh : Shadow} (hok : s.Ok)
    (howned : Owned c.id s.orders) (hid : c.id.toNat < 2 ^ 32)
    (haccount : c.account = c.id.toUInt32) (hsh : sh.Ok) (hshows : sh.Shows (s.swept c).orders)
    (hrest : r.restingQty = 0 ∧ s' = s.swept c ∨
      r.restingQty ≠ 0 ∧ r.restingQty = (s.residual c).qty ∧
        s' = (s.swept c).insert (s.residual c)) :
    let sh' := if r.restingQty > 0 then sh.add c.id r.restingQty else sh
    sh'.Ok ∧ sh'.Shows s'.orders ∧ Owned (c.id + 1) s'.orders := by
  have hswept := howned.swept hok c
  rcases hrest with ⟨hzero, rfl⟩ | ⟨hne, hqty, rfl⟩
  · have hnot : ¬ r.restingQty > 0 := by
      rw [hzero]
      decide
    rw [if_neg hnot]
    exact ⟨hsh, hshows, hswept.succ hid⟩
  · have hpos : r.restingQty > 0 := by
      rw [pos_iff_toNat]
      exact Nat.pos_of_ne_zero fun e => hne (UInt32.toNat_inj.mp e)
    rw [if_pos hpos, hqty]
    have hnew : (s.residual c).orderId ∉ (s.swept c).ids := hswept.notMem_ids
    obtain ⟨hshOk, hshShows⟩ := Shadow.add_inserted hsh hshows hnew
    exact ⟨hshOk, hshShows, hswept.insert hid rfl haccount⟩

/-- **A limit order.** -/
theorem limit (h : Tracks p n g s) (hp : p.Ok) (hn : n + 1 < 2 ^ 32) :
    ∃ g' s', g.limit p (zipfTable p.maxOffset.toNat) = .ok g' ∧ Tracks p (n + 1) g' s' := by
  obtain ⟨c, rng, hdraw, hkind, hid, haccount, hrange⟩ := drawLimit_spec hp g.nextId g.rng
  have hnext := h.nextId
  have howned := h.owned
  rw [← hid] at hnext howned haccount
  have hlt : c.id.toNat < 2 ^ 32 := by omega
  have hq : c.qty ≠ 0 := fun e => by
    have hone := hrange.one_le_qty
    rw [e] at hone
    exact absurd hone (by decide)
  -- the book
  obtain ⟨b, hb, hrep⟩ :=
    Book.addLimitOrder_spec h.represents {} c.id c.side c.price c.qty c.account .gtc
  have heff : Effect s (limitCommand c.id c.side c.price c.qty c.account)
      (s.addLimit counter32 c.id c.side c.price c.qty c.account .gtc).1
      (.added (s.addLimit counter32 c.id c.side c.price c.qty c.account .gtc).2) :=
    addLimit_effect h.ok counter32 rfl
  have hok := h.ok.addLimit counter32 c.id c.side c.price c.qty c.account .gtc
  generalize s.addLimit counter32 c.id c.side c.price c.qty c.account .gtc = next
    at hb hrep heff hok
  obtain ⟨s', r⟩ := next
  dsimp only at hb hrep heff hok
  have hown : ∀ o ∈ s.orders, o.account ≠ c.account := haccount ▸ howned.account_ne hlt
  obtain ⟨haccepted, hstp, htrades, hrest⟩ := limit_effect heff rfl hq howned.notMem_ids hown
  -- the shadow
  obtain ⟨sh, hsh, hshOk, hshShows⟩ := Shadow.settle_swept h.shadow h.ok h.shows
    (limitCommand c.id c.side c.price c.qty c.account)
  obtain ⟨hOk, hShows, hOwned⟩ := noted h.ok howned hlt haccount hshOk hshShows hrest
  rw [← htrades] at hsh
  have happly : apply g.book c = .ok (b, .added r) := by
    unfold apply
    rw [hkind]
    dsimp only
    rw [hb]
    rfl
  have hclean : Clean p g.out c (.added r) := by
    unfold Clean
    rw [hkind]
    refine ⟨fun c' hc' e => ?_, hrange, r, rfl, haccepted, hstp⟩
    have hused := h.used c' hc'
    rw [e, hid] at hused
    omega
  have hOwned' : Owned (g.nextId + 1) s'.orders := hid ▸ hOwned
  have hsucc : (g.nextId + 1).toNat = g.nextId.toNat + 1 := toNat_succ (hid ▸ hlt)
  have hround := h.round hrep hok heff.capacity hOk hShows hOwned' (by omega) (by omega)
    (by rw [hid]; omega) happly hclean rng
  refine ⟨_, _, ?_, hround⟩
  unfold Generator.limit
  rw [hdraw, ok_bind]
  dsimp only
  rw [hb, ok_bind]
  dsimp only
  rw [hsh]
  rfl

/-- **One round of the loop.** -/
theorem step (h : Tracks p n g s) (hp : p.Ok) (hn : n + 1 < 2 ^ 32) :
    ∃ g' s', g.step p (zipfTable p.maxOffset.toNat) = .ok g' ∧ Tracks p (n + 1) g' s' := by
  obtain ⟨cancels, rng, hdraw, hlive⟩ := drawCancels_spec hp g.shadow.live g.rng
  unfold Generator.step
  rw [hdraw, ok_bind]
  dsimp only
  have hrng := h.setRng rng
  cases cancels with
  | true => exact hrng.cancel (hlive rfl)
  | false => exact hrng.limit hp hn

/-- **Every run of the loop.** -/
theorem after (hp : p.Ok) (seed : UInt64) : ∀ n, n < 2 ^ 32 →
    ∃ g s, Generator.after p (zipfTable p.maxOffset.toNat) seed n = .ok g ∧ Tracks p n g s := by
  intro n
  induction n with
  | zero => exact fun _ => ⟨_, _, rfl, start p seed⟩
  | succ n ih =>
    intro hn
    obtain ⟨g, s, hg, h⟩ := ih (by omega)
    obtain ⟨g', s', hg', h'⟩ := h.step hp hn
    refine ⟨g', s', ?_, h'⟩
    rw [Generator.after, hg, ok_bind, hg']

end Tracks

/-! ## The streams -/

variable {p : W1Params} {seed : UInt64} {ops : ℕ}

/-- With a table that ends, the stream is clean. -/
theorem consistent_of_ne (hp : p.Ok) (hops : ops < 2 ^ 32) (hmax : p.maxOffset ≠ 0xFFFFFFFF) :
    Consistent p seed ops := by
  obtain ⟨g, s, hg, h⟩ := Tracks.after hp seed ops hops
  obtain ⟨replies, hrun, hclean⟩ := h.replay
  have hcdf := zipfCdf_eq hmax
  refine ⟨_, g.out, hcdf, ?_, h.length, fun k hk => ?_, g.book, replies, hrun, hclean⟩
  · unfold generate
    rw [hcdf, ok_bind, hg]
    rfl
  · obtain ⟨g, s, hg, h⟩ := Tracks.after hp seed k (by omega)
    exact ⟨g, hg, h.agrees⟩

/-- With the largest offset the table does not end, so there is no stream. -/
theorem not_consistent_max (hmax : p.maxOffset = 0xFFFFFFFF) : ¬ Consistent p seed ops := by
  intro hcons
  obtain ⟨cdf, out, hcdf, -⟩ := hcons
  rw [hmax, zipfCdf_max] at hcdf
  cases hcdf

/-- **The generator keeps its shadow and puts out a clean stream**, exactly if the loop over
the ranks ends: if the last rank is not the largest value of its counter. -/
theorem stream_is_clean_iff (hp : p.Ok) (hops : ops < 2 ^ 32) :
    Consistent p seed ops ↔ p.maxOffset ≠ 0xFFFFFFFF := by
  constructor
  · intro hcons hmax
    exact not_consistent_max hmax hcons
  · intro hmax
    exact consistent_of_ne hp hops hmax

/-- The stream of the defaults, at the length the workload test draws. -/
theorem stream_is_clean_iff_defaults : Consistent {} 1 400000 := by
  have hp : ({} : W1Params).Ok := by constructor <;> decide
  exact (stream_is_clean_iff hp (by decide)).mpr (by decide)

/-- With 4294967295 ranks the generator never comes to its first command. -/
theorem stream_not_clean_allRanks :
    ({ maxOffset := 0xFFFFFFFF } : W1Params).Ok ∧ 1 < 2 ^ 32 ∧
      ¬ Consistent { maxOffset := 0xFFFFFFFF } 1 1 := by
  refine ⟨?_, by decide, not_consistent_max rfl⟩
  constructor <;> decide

end Bench

end MatchingEngine
