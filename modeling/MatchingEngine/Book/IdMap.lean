import MatchingEngine.Book.Pool

/-!
# The id map

`include/engine/id_map.hpp`: an open-addressing table with linear probing and
backward-shift deletion. Only `home` depends on the hash, which is a parameter here; the
book uses `splitmix64`.
-/

namespace MatchingEngine

/-- The finalizer of splitmix64. -/
def splitmix64 (id : OrderId) : UInt64 :=
  let z := id
  let z := (z ^^^ (z >>> 30)) * 0xBF58476D1CE4E5B9
  let z := (z ^^^ (z >>> 27)) * 0x94D049BB133111EB
  z ^^^ (z >>> 31)

/-- `IdMap::Entry`. A slot is empty when its handle is the invalid handle. -/
structure Entry where
  id : OrderId := 0
  handle : Handle := {}
deriving DecidableEq

/-- `IdMap`, with the hash its home slots are computed from. -/
structure IdMap (hash : OrderId → UInt64) where
  table : Array Entry
  mask : ℕ
  size : ℕ
deriving DecidableEq

/-- The sizing loop of the constructor: double `slots` until it reaches `target`. -/
def doubleUntil : ℕ → ℕ → ℕ → ℕ
  | 0, _, slots => slots
  | fuel + 1, target, slots =>
    if slots < target then doubleUntil fuel target (slots * 2) else slots

/-- The number of slots for `max_entries`. An `Index` is below 2 ^ 32, so 32 doublings of
2 reach twice any of them. -/
def tableSlots (maxEntries : Index) : ℕ := doubleUntil 32 (2 * maxEntries.toNat) 2

/-- Subtraction on `std::size_t`. -/
def sizeSub (a b : ℕ) : ℕ := (a + 2 ^ 64 - b) % 2 ^ 64

namespace IdMap

variable {hash : OrderId → UInt64}

/-- The constructor: a table of empty slots. -/
def new (hash : OrderId → UInt64) (maxEntries : Index) : IdMap hash where
  table := Array.replicate (tableSlots maxEntries) {}
  mask := tableSlots maxEntries - 1
  size := 0

/-- The slot where the search for an id begins. -/
def home (m : IdMap hash) (id : OrderId) : ℕ := (hash id).toNat &&& m.mask

/-- The next position of a probe. -/
def next (m : IdMap hash) (i : ℕ) : ℕ := (i + 1) &&& m.mask

/-- The entry in a slot of the table. -/
def entryAt (m : IdMap hash) (i : ℕ) : Checked Entry := orFault m.table[i]? .outOfRange

/-- A write to a slot of the table. -/
def setEntry (m : IdMap hash) (i : ℕ) (e : Entry) : IdMap hash :=
  { m with table := m.table.setIfInBounds i e }

/-- The probe loop of `find`, `insert` and `erase`: from position `i` to the first entry
that `stop` accepts. The bound is the number of slots, after which a probe would only
repeat itself. -/
def probe (m : IdMap hash) (stop : Entry → Bool) : ℕ → ℕ → Checked ℕ
  | 0, _ => throw .diverges
  | fuel + 1, i => do
    if stop (← m.entryAt i) then return i
    m.probe stop fuel (m.next i)

/-- `find` and `erase` stop at an empty slot or at `id`. -/
def isEmptyOr (id : OrderId) (e : Entry) : Bool := !e.handle.valid || e.id == id

/-- `find`: the handle of an id, if there is one. -/
def find (m : IdMap hash) (id : OrderId) : Checked (Option Handle) := do
  let i ← m.probe (isEmptyOr id) m.table.size (m.home id)
  let e ← m.entryAt i
  if !e.handle.valid then return none else return some e.handle

/-- `contains`: whether an id has an entry. -/
def contains (m : IdMap hash) (id : OrderId) : Checked Bool := do
  return (← m.find id).isSome

/-- `insert`, for an id that is not there. -/
def insert (m : IdMap hash) (id : OrderId) (handle : Handle) : Checked (IdMap hash) := do
  require (handle.valid = true) .assertion
  require (m.size < m.table.size / 2) .assertion
  let i ← m.probe (fun e => !e.handle.valid) m.table.size (m.home id)
  return { m.setEntry i ⟨id, handle⟩ with size := m.size + 1 }

/-- The second loop of `erase`: move later entries of the run into the hole where their
probe path allows it. Returns the last hole. -/
def closeGap (m : IdMap hash) : ℕ → ℕ → ℕ → Checked (IdMap hash × ℕ)
  | 0, _, _ => throw .diverges
  | fuel + 1, hole, i => do
    let e ← m.entryAt i
    if !e.handle.valid then return (m, hole)
    -- the hole lies on the probe path of `e`
    if sizeSub i hole &&& m.mask ≤ sizeSub i (m.home e.id) &&& m.mask then
      (m.setEntry hole e).closeGap fuel i (m.next i)
    else
      m.closeGap fuel hole (m.next i)

/-- `erase`: close the gap that the entry leaves, and clear the hole that remains. -/
def erase (m : IdMap hash) (id : OrderId) : Checked (Bool × IdMap hash) := do
  let hole ← m.probe (isEmptyOr id) m.table.size (m.home id)
  if !(← m.entryAt hole).handle.valid then return (false, m)
  let (m, hole) ← m.closeGap m.table.size hole (m.next hole)
  let e ← m.entryAt hole
  return (true, { m.setEntry hole { e with handle := {} } with size := m.size - 1 })

end IdMap

end MatchingEngine
