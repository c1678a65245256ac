import MatchingEngine.Library.Checked
import MatchingEngine.Book.Types

/-!
# The order pool

`include/engine/pool.hpp`: a fixed array of slots with a free list threaded through the
free ones, and a generation counter for each slot.

A slot is a C++ union, so exactly one of its members is active at any time. Reading the
other one is the fault `Fault.inactiveMember`.
-/

namespace MatchingEngine

/-- A slot index packed with the generation the slot had when the handle was minted. -/
structure Handle where
  value : UInt64 := 0xFFFFFFFFFFFFFFFF
deriving DecidableEq

namespace Handle

/-- The value of the invalid handle. -/
def kNil : UInt64 := 0xFFFFFFFFFFFFFFFF

/-- Whether the handle was returned by an allocation that found a slot. -/
def valid (h : Handle) : Bool := h.value != kNil

/-- The slot of a handle, in its low half. -/
def index (h : Handle) : Index := (h.value &&& 0xFFFFFFFF).toUInt32

/-- The generation of a handle, in its high half. -/
def generation (h : Handle) : UInt32 := (h.value >>> 32).toUInt32

end Handle

/-- `FixedPool::make_handle`. -/
def makeHandle (idx : Index) (gen : UInt32) : Handle :=
  ⟨(gen.toUInt64 <<< 32) ||| idx.toUInt64⟩

/-- `FixedPool::Slot`, a union of the stored value and the free-list link. -/
inductive Slot (T : Type) where
  | value (v : T)
  | nextFree (i : Index)
deriving DecidableEq

/-- `FixedPool<T>`. Both vectors are sized once, by the constructor, so they stay equally
long. -/
structure FixedPool (T : Type) where
  slots : Array (Slot T)
  generations : Array UInt32
  freeHead : Index
  size_generations : generations.size = slots.size
deriving DecidableEq

namespace FixedPool

variable {T : Type}

/-- The constructor: every slot is free and linked to its successor. -/
def new (T : Type) (capacity : Index) : FixedPool T where
  slots := Array.ofFn fun i : Fin capacity.toNat =>
    .nextFree (if i.val + 1 < capacity.toNat then UInt32.ofNat (i.val + 1) else kNilIndex)
  generations := Array.replicate capacity.toNat 0
  freeHead := if 0 < capacity then 0 else kNilIndex
  size_generations := by simp

/-- `generation_[idx]`. Every caller has checked that `idx` is in range. -/
def generationAt (p : FixedPool T) (idx : Index) : UInt32 := p.generations.getD idx.toNat 0

/-- Make the value member of slot `idx` active, holding `v`. -/
def setValue (p : FixedPool T) (idx : Index) (v : T) : FixedPool T :=
  { p with
    slots := p.slots.setIfInBounds idx.toNat (.value v)
    size_generations := by simpa using p.size_generations }

/-- The link member of a free slot. -/
def nextFreeAt (p : FixedPool T) (idx : Index) : Checked Index := do
  match ← orFault p.slots[idx.toNat]? .outOfRange with
  | .nextFree i => pure i
  | .value _ => throw .inactiveMember

/-- `unchecked`: the value in slot `idx`, with no generation check. -/
def unchecked (p : FixedPool T) (idx : Index) : Checked T := do
  match ← orFault p.slots[idx.toNat]? .outOfRange with
  | .value v => pure v
  | .nextFree _ => throw .inactiveMember

/-- A write through the reference that `unchecked` returns. -/
def modify (p : FixedPool T) (idx : Index) (f : T → T) : Checked (FixedPool T) := do
  let v ← p.unchecked idx
  return p.setValue idx (f v)

/-- `allocate`: the invalid handle if no slot is free. -/
def allocate (p : FixedPool T) (value : T) : Checked (Handle × FixedPool T) :=
  if p.freeHead = kNilIndex then return ({}, p)
  else do
    let idx := p.freeHead
    let next ← p.nextFreeAt idx
    return (makeHandle idx (p.generationAt idx), { p.setValue idx value with freeHead := next })

/-- `validate`: the handle is one of the current generation of its slot. -/
def validate (p : FixedPool T) (h : Handle) : Bool :=
  h.valid && h.index.toNat < p.slots.size && h.generation == p.generationAt h.index

/-- `free`: a no-op on a handle that does not validate. -/
def free (p : FixedPool T) (h : Handle) : FixedPool T :=
  if p.validate h then
    { slots := p.slots.setIfInBounds h.index.toNat (.nextFree p.freeHead)
      generations := p.generations.setIfInBounds h.index.toNat (p.generationAt h.index + 1)
      freeHead := h.index
      size_generations := by simpa using p.size_generations }
  else p

/-- `get`, followed by a read of what it points to. -/
def get (p : FixedPool T) (h : Handle) : Checked (Option T) :=
  if p.validate h then some <$> p.unchecked h.index else pure none

/-- `handle_of`: the handle of a slot that the caller knows to be occupied. -/
def handleOf (p : FixedPool T) (idx : Index) : Checked Handle := do
  match ← orFault p.slots[idx.toNat]? .outOfRange with
  | .value _ => pure (makeHandle idx (p.generationAt idx))
  | .nextFree _ => throw .callerGuarantee

/-- The number of slots. -/
def capacity (p : FixedPool T) : Index := UInt32.ofNat p.slots.size

/-- The loop of `free_slots`, at index `i` with `n` slots counted so far. -/
def freeSlotsFrom (p : FixedPool T) : ℕ → Index → Index → Checked Index
  | 0, _, _ => throw .diverges
  | fuel + 1, n, i => do
    if i = kNilIndex then return n
    if p.slots.size < (n + 1).toNat then return UInt32.ofNat p.slots.size + 1
    p.freeSlotsFrom fuel (n + 1) (← p.nextFreeAt i)

/-- `free_slots`: the length of the free list, or capacity + 1 if it cycles. -/
def freeSlots (p : FixedPool T) : Checked Index :=
  p.freeSlotsFrom (p.slots.size + 2) 0 p.freeHead

end FixedPool

end MatchingEngine
