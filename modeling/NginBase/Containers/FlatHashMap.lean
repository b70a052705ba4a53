import NginBase.Library.Command

namespace NginBase.Containers

open Library Command

/-! `FlatHashMap`: open addressing with linear probing and backward-shift deletion. -/

structure Entry (Key Value : Type) where
  hash : UInt64
  key : Key
  value : Value

structure FlatHashMap (Key Value : Type) where
  buckets : List (Option (Entry Key Value)) := []
  capacity : Nat := 0
  mask : Nat := 0
  size : Nat := 0

/-- Which branch `operator=(FlatHashMap&&)` is compiled with. -/
inductive MovePolicy
  | propagates
  | alwaysEqual
  | relocates

/-- What a map is instantiated with, and the double `count / kMaxLoadFactor` of `Reserve`, truncated. -/
structure Policy (Key : Type) where
  hash : Key → UInt64
  equal : Key → Key → Bool
  quotient : Nat → Nat := fun count => count * 4 / 3
  move : MovePolicy := .alwaysEqual

/-- `std::bad_alloc`; the bounds of the loops are never reached. -/
inductive Exception
  | badAlloc
  | bound

def kInitialCapacity : Nat := 16

def nextPow2 (value : Nat) : Nat := 2 ^ Nat.clog 2 value

/-- `(to - from) & mask`: the subtraction wraps at a multiple of `mask + 1`. -/
def distance (first last mask : Nat) : Nat := (last + (mask + 1) - first) &&& mask

def targetCapacity (requested : Nat) : Nat :=
  if nextPow2 requested < kInitialCapacity then kInitialCapacity else nextPow2 requested

namespace FlatHashMap

variable {Key Value : Type} (policy : Policy Key)

def holds (key : Key) (h : UInt64) (entry : Entry Key Value) : Bool := entry.hash = h && policy.equal entry.key key

def findIndexLoop (m : FlatHashMap Key Value) (key : Key) (h : UInt64) : Nat → Nat → Option Nat
  | 0, _ => none
  | probes + 1, index =>
    match m.buckets.getD index none with
    | none => none
    | some entry =>
      if holds policy key h entry then some index else findIndexLoop m key h probes ((index + 1) &&& m.mask)

def findIndex (m : FlatHashMap Key Value) (key : Key) (h : UInt64) : Option Nat :=
  if m.capacity = 0 then none else findIndexLoop policy m key h m.capacity (h.toNat &&& m.mask)

def findInsertSlotLoop (m : FlatHashMap Key Value) (key : Key) (h : UInt64) : Nat → Nat → Option Nat
  | 0, _ => none
  | probes + 1, index =>
    match m.buckets.getD index none with
    | none => some index
    | some entry =>
      if holds policy key h entry then some index else findInsertSlotLoop m key h probes ((index + 1) &&& m.mask)

def findInsertSlot (m : FlatHashMap Key Value) (key : Key) (h : UInt64) : Option Nat :=
  findInsertSlotLoop policy m key h m.capacity (h.toNat &&& m.mask)

def getPtr (m : FlatHashMap Key Value) (key : Key) : Option Value :=
  match findIndex policy m key (policy.hash key) with
  | none => none
  | some index => (m.buckets.getD index none).map (·.value)

/-- `Advance_`: on to the next occupied bucket or the end. -/
def advance (m : FlatHashMap Key Value) : Nat → Nat → Nat
  | 0, index => index
  | steps + 1, index => if (m.buckets.getD index none).isNone then advance m steps (index + 1) else index

/-- What a loop from an iterator at `index` to the end visits. -/
def visit (m : FlatHashMap Key Value) : Nat → Nat → List (Entry Key Value)
  | 0, _ => []
  | steps + 1, index =>
    match m.buckets.getD (advance m (m.capacity - index) index) none with
    | none => []
    | some entry => entry :: visit m steps (advance m (m.capacity - index) index + 1)

def iterate (m : FlatHashMap Key Value) : List (Entry Key Value) := visit m m.capacity 0

def backwardShift (mask : Nat) : Nat → List (Option (Entry Key Value)) → Nat → Nat → Option (List (Option (Entry Key Value)))
  | 0, _, _, _ => none
  | steps + 1, buckets, hole, next =>
    match buckets.getD next none with
    | none => some buckets
    | some entry =>
      let home := entry.hash.toNat &&& mask
      if distance home hole mask < distance home next mask then
        backwardShift mask steps ((buckets.set hole (some entry)).set next none) next ((next + 1) &&& mask)
      else backwardShift mask steps buckets hole ((next + 1) &&& mask)

end FlatHashMap

/-- A map and the number of bucket allocations the call has made. -/
structure Allocating (Key Value : Type) where
  map : FlatHashMap Key Value := {}
  requests : Nat := 0

namespace FlatHashMap

variable {Key Value : Type} (policy : Policy Key) (grants : Nat → Bool)

abbrev Action (Key Value α : Type) := Command Exception (Allocating Key Value) α

def current : Action Key Value (FlatHashMap Key Value) := do
  let state ← get
  return state.map

def store (map : FlatHashMap Key Value) : Action Key Value Unit := modify fun state => { state with map }

def allocateBuckets (capacity : Nat) : Action Key Value (List (Option (Entry Key Value))) := do
  let state ← get
  modify fun state => { state with requests := state.requests + 1 }
  if grants state.requests then return List.replicate capacity none else fail .badAlloc

def initializeTable (requestedCapacity : Nat) : Action Key Value Unit := do
  let capacity := targetCapacity requestedCapacity
  let buckets ← allocateBuckets grants capacity
  store ⟨buckets, capacity, capacity - 1, 0⟩

def insertExisting (entry : Entry Key Value) : Action Key Value Unit := do
  let m ← current
  match findInsertSlot policy m entry.key entry.hash with
  | none => fail .badAlloc
  | some index => store { m with buckets := m.buckets.set index (some entry), size := m.size + 1 }

def insertAll : List (Option (Entry Key Value)) → Action Key Value Unit
  | [] => pure ()
  | none :: rest => insertAll rest
  | some entry :: rest => do
    insertExisting policy entry
    insertAll rest

def rehash (newBucketCount : Nat) : Action Key Value Unit := do
  let m ← current
  if targetCapacity newBucketCount = m.capacity then return ()
  else
    store {}
    initializeTable grants (targetCapacity newBucketCount)
    insertAll policy m.buckets

/-- `LoadFactor_() <= kMaxLoadFactor`; the capacity is a power of two, so the division is exact. -/
def withinLoadFactor (m : FlatHashMap Key Value) : Bool := 4 * m.size ≤ 3 * m.capacity

def maybeGrow : Action Key Value Unit := do
  let m ← current
  if withinLoadFactor m then return () else rehash policy grants (m.capacity * 2)

def reserveBuckets (count : Nat) : Nat :=
  nextPow2 (if policy.quotient count + 1 < kInitialCapacity then kInitialCapacity else policy.quotient count + 1)

def reserve (count : Nat) : Action Key Value Unit := do
  let m ← current
  if reserveBuckets policy count ≤ m.capacity then return () else rehash policy grants (reserveBuckets policy count)

def clear : Action Key Value Unit := do
  let m ← current
  if m.buckets = [] then return () else store { m with buckets := m.buckets.map fun _ => none, size := 0 }

/-- `InsertImpl_` after `MaybeGrow_`; `again` is its call of itself. -/
def insertGrown (key : Key) (value : Value) (again : Action Key Value Unit) : Action Key Value Unit := do
  let m ← current
  match findInsertSlot policy m key (policy.hash key) with
  | none =>
    rehash policy grants (max kInitialCapacity (m.capacity * 2))
    again
  | some index =>
    match m.buckets.getD index none with
    | some entry => store { m with buckets := m.buckets.set index (some { entry with value }) }
    | none => store { m with buckets := m.buckets.set index (some ⟨policy.hash key, key, value⟩), size := m.size + 1 }

/-- `InsertImpl_`, with a bound on how often it calls itself. -/
def insertImpl (key : Key) (value : Value) : Nat → Action Key Value Unit
  | 0 => fail .bound
  | calls + 1 => do
    maybeGrow policy grants
    insertGrown policy grants key value (insertImpl key value calls)

def insert (key : Key) (value : Value) : Action Key Value Unit := insertImpl policy grants key value 2

def remove (key : Key) : Action Key Value Unit := do
  let m ← current
  match findIndex policy m key (policy.hash key) with
  | none => return ()
  | some index =>
    match backwardShift m.mask (m.capacity * m.capacity * m.capacity) (m.buckets.set index none) index
        ((index + 1) &&& m.mask) with
    | none => fail .bound
    | some buckets => store { m with buckets, size := m.size - 1 }

/-- The value a pointer from `GetPtr` refers to, written through the pointer. -/
def writeValue (key : Key) (write : Value → Value) : Action Key Value Unit := do
  let m ← current
  match findIndex policy m key (policy.hash key) with
  | none => return ()
  | some index =>
    let written := (m.buckets.getD index none).map fun entry => { entry with value := write entry.value }
    store { m with buckets := m.buckets.set index written }

/-- `operator[]` and what the caller does with the reference it returns. -/
def index [Inhabited Value] (key : Key) (write : Value → Value) : Action Key Value Unit := do
  let m ← current
  if (getPtr policy m key).isSome then writeValue policy key write
  else
    insert policy grants key default
    writeValue policy key write

def construct (initialCapacity : Nat) : Action Key Value Unit := do
  store {}
  initializeTable grants initialCapacity

/-- The copy constructor, and `operator=(const FlatHashMap&)` after the release of the old table. -/
def copyFrom (other : FlatHashMap Key Value) : Action Key Value Unit := do
  store {}
  initializeTable grants other.capacity
  insertAll policy other.buckets

def insertEach : List (Entry Key Value) → Action Key Value Unit
  | [] => pure ()
  | entry :: rest => do
    insert policy grants entry.key entry.value
    insertEach rest

def relocateFrom (other : FlatHashMap Key Value) : Action Key Value Unit := do
  clear
  reserve policy grants other.size
  insertEach policy grants other.iterate

end FlatHashMap

end NginBase.Containers
