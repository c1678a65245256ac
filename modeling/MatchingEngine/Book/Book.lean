import MatchingEngine.Book.PriceLevels
import MatchingEngine.Book.IdMap

/-!
# The order book

`include/engine/book.hpp`: limit and market orders, cancel, modify, the snapshot and the
structural check.

The loops of the source carry a bound here. A bound that runs out is the fault
`Fault.diverges`, so a command that returns `.ok` has ended all of its loops by itself.

A reference to one of the two price-level arrays is the `Side` it belongs to. Where the
source relies on a guarantee of the caller that only a comment states (`level_append` gets
an unlinked slot, `IdMap::insert` an absent id), the call checks it with `require`.
-/

namespace MatchingEngine

/-- One fill: who rested, who came, at what price and of how much. -/
structure Trade where
  makerOrderId : OrderId
  takerOrderId : OrderId
  price : Price
  qty : Qty
  tradeId : UInt64
  seqNo : SeqNo
deriving DecidableEq

/-- What an order that was added came to. -/
structure AddResult where
  accepted : Bool := false
  trades : List Trade := []
  restingQty : Qty := 0
  stpRejected : Bool := false
  poolExhausted : Bool := false
deriving DecidableEq

/-- `AddResult::reset`: clear a result for reuse. -/
def AddResult.reset (_ : AddResult) : AddResult := {}

/-- A resting order as `snapshot` shows it. -/
structure RestingOrder where
  side : Side
  price : Price
  orderId : OrderId
  qty : Qty
  account : Account
  seqNo : SeqNo
deriving DecidableEq

/-- `Book`: the pool, the levels of both sides, the map from ids to handles, and two counters. -/
structure Book where
  pool : FixedPool Order
  bids : PriceLevels
  asks : PriceLevels
  idMap : IdMap splitmix64
  nextSeq : SeqNo := 0
  nextTradeId : UInt64 := 0

/-- The direction of a side's levels: `BidLevels` and `AskLevels`. -/
def Side.best : Side → Best
  | .buy => .high
  | .sell => .low

namespace Book

/-- Each side has room for one level more than the pool has orders. -/
def new (capacity : Index) : Book where
  pool := FixedPool.new Order capacity
  bids := PriceLevels.new (capacity.toNat + 1)
  asks := PriceLevels.new (capacity.toNat + 1)
  idMap := IdMap.new splitmix64 capacity

/-- The levels of a side. -/
def levels (b : Book) : Side → PriceLevels
  | .buy => b.bids
  | .sell => b.asks

/-- The book with other levels on one side. -/
def setLevels (b : Book) (side : Side) (levels : PriceLevels) : Book :=
  match side with
  | .buy => { b with bids := levels }
  | .sell => { b with asks := levels }

/-! ## Levels -/

/-- `would_cross`: an order at this price would trade with the opposite best. -/
def wouldCross (b : Book) (side : Side) (price : Price) : Checked Bool :=
  match side with
  | .buy =>
    if b.asks.empty then return false
    else return price ≥ (← b.asks.read (← b.asks.best)).price
  | .sell =>
    if b.bids.empty then return false
    else return price ≤ (← b.bids.read (← b.bids.best)).price

/-- `level_for_insert`. -/
def levelForInsert (b : Book) (side : Side) (price : Price) : Checked (Book × ℕ) := do
  let (levels, pos) ← (b.levels side).getOrInsert side.best price
  return (b.setLevels side levels, pos)

/-- `level_for`. -/
def levelFor (b : Book) (side : Side) (price : Price) : Checked ℕ :=
  (b.levels side).atPrice side.best price

/-- `erase_level`. -/
def eraseLevel (b : Book) (side : Side) (price : Price) : Checked Book := do
  return b.setLevels side (← (b.levels side).erase side.best price)

/-- `level_append` on the level at `pos`. -/
def appendAt (b : Book) (side : Side) (pos : ℕ) (idx : Index) : Checked Book := do
  let order ← b.pool.unchecked idx
  require (order.prevIdx = kNilIndex ∧ order.nextIdx = kNilIndex) .callerGuarantee
  let (level, pool) ← levelAppend (← (b.levels side).read pos) b.pool idx
  return { b with pool }.setLevels side ((b.levels side).write pos level)

/-- `level_unlink` on the level at `pos`, and `erase_level` if that left it empty. -/
def unlinkAt (b : Book) (side : Side) (pos : ℕ) (price : Price) (idx : Index) :
    Checked Book := do
  let (level, pool) ← levelUnlink (← (b.levels side).read pos) b.pool idx
  let b := { b with pool }.setLevels side ((b.levels side).write pos level)
  if level.head = kNilIndex then b.eraseLevel side price else return b

/-! ## Matching -/

/-- What `cross` writes besides the levels it sweeps. -/
structure Sweep where
  pool : FixedPool Order
  idMap : IdMap splitmix64
  nextTradeId : UInt64
  incoming : Order
  trades : List Trade

/-- One trade with the maker at the head of the level. A maker that is filled leaves the
level, the id map and the pool. -/
def fillMaker (seq : SeqNo) (level : Level) (s : Sweep) (makerIdx : Index) (maker : Order) :
    Checked (Level × Sweep) := do
  let fill := min s.incoming.qty maker.qty
  let trade : Trade :=
    { makerOrderId := maker.orderId, takerOrderId := s.incoming.orderId, price := maker.price,
      qty := fill, tradeId := s.nextTradeId, seqNo := seq }
  let incoming := { s.incoming with qty := s.incoming.qty - fill }
  let pool ← s.pool.modify makerIdx fun o => { o with qty := o.qty - fill }
  let s := { s with
    pool, incoming, nextTradeId := s.nextTradeId + 1, trades := s.trades ++ [trade] }
  if maker.qty - fill = 0 then
    let (level, pool) ← levelUnlink level s.pool makerIdx
    let (_, idMap) ← s.idMap.erase maker.orderId
    let h ← pool.handleOf makerIdx
    return (level, { s with pool := pool.free h, idMap })
  else
    return (level, s)

/-- The inner loop of `cross`, over the makers of one level. The flag is true if a
self-match stopped it. -/
def sweepLevel (seq : SeqNo) : ℕ → Level → Sweep → Checked (Level × Sweep × Bool)
  | 0, _, _ => throw .diverges
  | fuel + 1, level, s =>
    if s.incoming.qty > 0 ∧ level.head ≠ kNilIndex then do
      let maker ← s.pool.unchecked level.head
      if maker.account = s.incoming.account then return (level, s, true)
      let (level, s) ← fillMaker seq level s level.head maker
      sweepLevel seq fuel level s
    else return (level, s, false)

/-- The outer loop of `cross`, over the levels from the best one on. -/
def sweepLevels (crosses : Price → Price → Bool) (seq : SeqNo) :
    ℕ → PriceLevels → Sweep → Checked (PriceLevels × Sweep × Bool)
  | 0, _, _ => throw .diverges
  | fuel + 1, restingSide, s =>
    if s.incoming.qty > 0 ∧ restingSide.empty = false then do
      let pos ← restingSide.best
      let level ← restingSide.read pos
      if !crosses level.price s.incoming.price then return (restingSide, s, false)
      let (level, s, stopped) ← sweepLevel seq (s.pool.slots.size + 1) level s
      let restingSide := restingSide.write pos level
      if stopped then return (restingSide, s, true)
      if level.head = kNilIndex then sweepLevels crosses seq fuel (← restingSide.popBest) s
      else sweepLevels crosses seq fuel restingSide s
    else return (restingSide, s, false)

/-- `cross`: match `incoming` against the resting side. Returns the book, what is left of
the order, the trades and whether a self-match stopped the sweep. -/
def cross (b : Book) (resting : Side) (incoming : Order) (seq : SeqNo) (trades : List Trade)
    (crosses : Price → Price → Bool) : Checked (Book × Order × List Trade × Bool) := do
  let (levels, s, stopped) ← sweepLevels crosses seq ((b.levels resting).size + 1)
    (b.levels resting) ⟨b.pool, b.idMap, b.nextTradeId, incoming, trades⟩
  let b := { b with pool := s.pool, idMap := s.idMap, nextTradeId := s.nextTradeId }
  return (b.setLevels resting levels, s.incoming, s.trades, stopped)

/-- The inner loop of `available_before_self_trade`, over the orders of one level. The flag
is true at the self-trade boundary. -/
def availableInLevel (pool : FixedPool Order) (account : Account) :
    ℕ → Index → Qty → Checked (Qty × Bool)
  | 0, _, _ => throw .diverges
  | fuel + 1, idx, total =>
    if idx = kNilIndex then return (total, false)
    else do
      let order ← pool.unchecked idx
      if order.account = account then return (total, true)
      availableInLevel pool account fuel order.nextIdx (total + order.qty)

/-- The outer loop of `available_before_self_trade`, over the last `n` ranks. -/
def availableFromRank (pool : FixedPool Order) (restingSide : PriceLevels) (limitPrice : Price)
    (account : Account) (crosses : Price → Price → Bool) : ℕ → Qty → Checked Qty
  | 0, total => return total
  | n + 1, total => do
    let level ← restingSide.byRank (restingSide.size - (n + 1))
    if !crosses level.price limitPrice then return total
    let (total, stopped) ←
      availableInLevel pool account (pool.slots.size + 1) level.head total
    if stopped then return total
    availableFromRank pool restingSide limitPrice account crosses n total

/-- `available_before_self_trade`: the FOK pre-check. -/
def availableBeforeSelfTrade (b : Book) (resting : Side) (limitPrice : Price)
    (account : Account) (crosses : Price → Price → Bool) : Checked Qty :=
  availableFromRank b.pool (b.levels resting) limitPrice account crosses
    (b.levels resting).size 0

/-- `rest`: put the residual into the book. False if the pool is exhausted. -/
def rest (b : Book) (side : Side) (price : Price) (incoming : Order) (seq : SeqNo) :
    Checked (Book × Bool) := do
  let (b, pos) ← b.levelForInsert side price
  let (h, pool) ← b.pool.allocate incoming
  let b := { b with pool }
  if !h.valid then
    -- a level that was only made for this order must not stay behind
    if (← (b.levels side).read pos).head = kNilIndex then
      return (← b.eraseLevel side price, false)
    else return (b, false)
  else
    let _ ← orFault (← b.pool.get h) .nullPointer
    let pool ← b.pool.modify h.index fun o => { o with seqNo := seq }
    let b ← { b with pool }.appendAt side pos h.index
    require ((← b.idMap.contains incoming.orderId) = false) .callerGuarantee
    return ({ b with idMap := ← b.idMap.insert incoming.orderId h }, true)

/-! ## Commands -/

/-- `add_limit_order`. -/
def addLimitOrder (b : Book) (result : AddResult) (orderId : OrderId) (side : Side)
    (price : Price) (qty : Qty) (account : Account) (tif : TimeInForce) :
    Checked (Book × AddResult) := do
  let result := result.reset
  let seq := b.nextSeq
  let b := { b with nextSeq := b.nextSeq + 1 }
  if qty = 0 then return (b, result)
  if ← b.idMap.contains orderId then return (b, result)
  if tif = .fok then
    let available ← match side with
      | .buy => b.availableBeforeSelfTrade .sell price account fun resting taker =>
          resting ≤ taker
      | .sell => b.availableBeforeSelfTrade .buy price account fun resting taker =>
          resting ≥ taker
    if available < qty then return (b, { result with accepted := true })
  let incoming : Order := { orderId, side, price, qty, account }
  let (b, incoming, trades, stpRejected) ← match side with
    | .buy => b.cross .sell incoming seq result.trades fun resting taker => resting ≤ taker
    | .sell => b.cross .buy incoming seq result.trades fun resting taker => resting ≥ taker
  let result := { result with trades, stpRejected, accepted := true }
  let mayRest := tif == .gtc && !stpRejected
  if mayRest ∧ incoming.qty > 0 then
    let (b, rested) ← b.rest side price incoming seq
    if rested then return (b, { result with restingQty := incoming.qty })
    else return (b, { result with poolExhausted := true })
  else return (b, result)

/-- `add_market_order`. -/
def addMarketOrder (b : Book) (result : AddResult) (orderId : OrderId) (side : Side)
    (qty : Qty) (account : Account) : Checked (Book × AddResult) := do
  let result := result.reset
  let seq := b.nextSeq
  let b := { b with nextSeq := b.nextSeq + 1 }
  if qty = 0 then return (b, result)
  if ← b.idMap.contains orderId then return (b, result)
  let incoming : Order := { orderId, side, qty, account }
  let (b, _, trades, stpRejected) ← match side with
    | .buy => b.cross .sell incoming seq result.trades fun _ _ => true
    | .sell => b.cross .buy incoming seq result.trades fun _ _ => true
  return (b, { result with trades, stpRejected, accepted := true, restingQty := 0 })

/-- `modify_order`. -/
def modifyOrder (b : Book) (orderId : OrderId) (newPrice : Price) (newQty : Qty) :
    Checked (Book × Bool) := do
  let seq := b.nextSeq
  let b := { b with nextSeq := b.nextSeq + 1 }
  if newQty = 0 then return (b, false)
  match ← b.idMap.find orderId with
  | none => return (b, false)
  | some h =>
    match ← b.pool.get h with
    | none =>
      let (_, idMap) ← b.idMap.erase orderId
      return ({ b with idMap }, false)
    | some order =>
      if newPrice = order.price ∧ newQty ≤ order.qty then
        let pool ← b.pool.modify h.index fun o => { o with qty := newQty }
        return ({ b with pool }, true)
      if ← b.wouldCross order.side newPrice then return (b, false)
      let pos ← b.levelFor order.side order.price
      let b ← b.unlinkAt order.side pos order.price h.index
      let pool ← b.pool.modify h.index fun o =>
        { o with price := newPrice, qty := newQty, seqNo := seq }
      let (b, pos) ← { b with pool }.levelForInsert order.side newPrice
      return (← b.appendAt order.side pos h.index, true)

/-- `cancel_order`. -/
def cancelOrder (b : Book) (orderId : OrderId) : Checked (Book × Bool) := do
  let b := { b with nextSeq := b.nextSeq + 1 }
  match ← b.idMap.find orderId with
  | none => return (b, false)
  | some h =>
    match ← b.pool.get h with
    | none =>
      let (_, idMap) ← b.idMap.erase orderId
      return ({ b with idMap }, false)
    | some order =>
      let pos ← b.levelFor order.side order.price
      let b ← b.unlinkAt order.side pos order.price h.index
      let b := { b with pool := b.pool.free h }
      let (_, idMap) ← b.idMap.erase orderId
      return ({ b with idMap }, true)

/-! ## Queries -/

/-- The walk of `append_side` over one level. -/
def appendLevel (pool : FixedPool Order) :
    ℕ → Index → List RestingOrder → Checked (List RestingOrder)
  | 0, _, _ => throw .diverges
  | fuel + 1, idx, out =>
    if idx = kNilIndex then return out
    else do
      let o ← pool.unchecked idx
      appendLevel pool fuel o.nextIdx
        (out ++ [⟨o.side, o.price, o.orderId, o.qty, o.account, o.seqNo⟩])

/-- `append_side`, over the last `n` ranks. -/
def appendSide (pool : FixedPool Order) (side : PriceLevels) :
    ℕ → List RestingOrder → Checked (List RestingOrder)
  | 0, out => return out
  | n + 1, out => do
    let level ← side.byRank (side.size - (n + 1))
    appendSide pool side n (← appendLevel pool (pool.slots.size + 1) level.head out)

/-- `snapshot`: bids best first, then asks best first, FIFO within a level. -/
def snapshot (b : Book) : Checked (List RestingOrder) := do
  let out ← appendSide b.pool b.bids b.bids.size []
  appendSide b.pool b.asks b.asks.size out

/-- The value member of slot `idx` as the checker reads it: on a book it has reason to
distrust the slot may be free, and C++ does not say what the inactive member holds then. -/
def peek (pool : FixedPool Order) (inactive : Index → Order) (idx : Index) : Checked Order := do
  match ← orFault pool.slots[idx.toNat]? .outOfRange with
  | .value o => pure o
  | .nextFree _ => pure (inactive idx)

/-- What `check_side` finds: a violation, or the number of orders linked so far. -/
inductive CheckResult where
  | violation (message : String)
  | linked (n : ℕ)
deriving DecidableEq

/-- The walk of `check_side` over one level, at slot `idx` behind `prev`. -/
def checkLevel (b : Book) (inactive : Index → Order) (side : Side) (level : Level) :
    ℕ → Index → Index → SeqNo → ℕ → Checked CheckResult
  | 0, _, _, _, _ => throw .diverges
  | fuel + 1, idx, prev, lastSeq, linked =>
    if idx = kNilIndex then
      if level.tail ≠ prev then
        return .violation "level.tail is not the last linked order"
      else return .linked linked
    else if idx ≥ b.pool.capacity then return .violation "next_idx out of range"
    else do
      let o ← peek b.pool inactive idx
      if o.prevIdx ≠ prev then return .violation "prev_idx does not match traversal"
      if o.side ≠ side then return .violation "order on the wrong side"
      if o.price ≠ level.price then return .violation "order price != level price"
      if o.qty = 0 then return .violation "resting order with qty 0"
      if prev ≠ kNilIndex ∧ o.seqNo ≤ lastSeq then
        return .violation "seq_no not increasing within level"
      match ← b.idMap.find o.orderId with
      | none => return .violation "id_map_ entry missing or pointing at another slot"
      | some mapped =>
        if mapped.index ≠ idx ∨ b.pool.validate mapped = false then
          return .violation "id_map_ entry missing or pointing at another slot"
        if linked + 1 > b.pool.capacity.toNat then return .violation "cycle in level list"
        b.checkLevel inactive side level fuel o.nextIdx idx o.seqNo (linked + 1)

/-- `check_side`, over the last `n` ranks. -/
def checkSide (b : Book) (inactive : Index → Order) (side : Side) : ℕ → ℕ → Checked CheckResult
  | 0, linked => return .linked linked
  | n + 1, linked => do
    let levels := b.levels side
    let rank := levels.size - (n + 1)
    let level ← levels.byRank rank
    let ordered ← if rank > 0 then do
        pure (side.best.better (← levels.byRank (rank - 1)).price level.price)
      else pure true
    if !ordered then return .violation "price levels not strictly ordered best first"
    if level.head = kNilIndex then return .violation "empty level left in price levels"
    match ← b.checkLevel inactive side level (b.pool.slots.size + 2) level.head kNilIndex 0
        linked with
    | .violation message => return .violation message
    | .linked linked => b.checkSide inactive side n linked

/-- The first test of `invariant_violation`. -/
def crossed (b : Book) : Checked Bool := do
  if b.bids.empty ∨ b.asks.empty then return false
  return (← b.bids.read (← b.bids.best)).price ≥ (← b.asks.read (← b.asks.best)).price

/-- `invariant_violation`: a description of the first violation found, if any. -/
def invariantViolation (b : Book) (inactive : Index → Order) : Checked (Option String) := do
  if ← b.crossed then return some "book is crossed"
  match ← b.checkSide inactive .buy b.bids.size 0 with
  | .violation message => return some message
  | .linked linked =>
    match ← b.checkSide inactive .sell b.asks.size linked with
    | .violation message => return some message
    | .linked linked =>
      if linked ≠ b.idMap.size then return some "id_map_ size != orders linked into levels"
      -- the count of free slots is at most capacity + 1, so `in_use` may wrap
      let inUse := sizeSub b.pool.capacity.toNat (← b.pool.freeSlots).toNat
      if inUse ≠ linked then return some "pool slots in use != orders linked into levels"
      return none

end Book

end MatchingEngine
