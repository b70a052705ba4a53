import NginBase.Library.Command
import NginBase.Library.Lifetime

namespace NginBase.Containers

open Library Command

/-! `Vector`: contiguous storage that grows by half. The storage of a null pointer has no slots. Exceptions that
    an element throws are left out. -/

structure Vector (α Alloc : Type) where
  alloc : Alloc
  data : Storage α := []
  size : Nat := 0
  capacity : Nat := 0

/-- `AllocatorPropagationTraits`, and the equality of the allocator if it has one. -/
structure AllocatorTraits (Alloc : Type) where
  propagateOnCopyAssignment : Bool := false
  propagateOnMoveAssignment : Bool := true
  isAlwaysEqual : Bool := true
  equal : Option (Alloc → Alloc → Bool) := none

/-- What a call throws, or that its behaviour is undefined. -/
inductive VectorException
  | outOfRange (what : String)
  | lengthError (what : String)
  | badAlloc
  | undefined
  deriving DecidableEq

/-- How an element is constructed from the argument of a call. -/
inductive Argument
  | copied
  | moved
  | emplaced

def Argument.value {α : Type} (T : ObjectType α) (x : α) : Argument → α
  | copied => T.copy x
  | moved => (T.move x).1
  | emplaced => x

/-- The vectors of a program, and the number of allocations they have asked for. -/
structure Vectors (α Alloc : Type) where
  vectors : Nat → Vector α Alloc
  requests : Nat := 0

namespace Vector

variable {α Alloc : Type} (T : ObjectType α) (traits : AllocatorTraits Alloc) (grants : Nat → Nat → Bool)

abbrev Action (α Alloc β : Type) := Command VectorException (Vectors α Alloc) β

def current (self : Nat) : Action α Alloc (Vector α Alloc) := do
  let state ← get
  return state.vectors self

def store (self : Nat) (v : Vector α Alloc) : Action α Alloc Unit :=
  modify fun state => { state with vectors := Function.update state.vectors self v }

def defined {β : Type} : Option β → Action α Alloc β
  | some x => pure x
  | none => fail .undefined

/-- `Allocate` and the test of its result: as many slots as fit the bytes. -/
def allocate (bytes : Nat) : Action α Alloc (Storage α) := do
  let state ← get
  modify fun state => { state with requests := state.requests + 1 }
  if grants state.requests bytes then return List.replicate (bytes / T.bytes) none else fail .badAlloc

def allocateStorage (capacity : Nat) : Action α Alloc (Storage α) := allocate T grants (capacity * T.bytes % 2 ^ 64)

def destroyElements (v : Vector α Alloc) : Option (Storage α) := T.destroyRange v.data 0 v.size

def releaseStorage (self : Nat) : Action α Alloc Unit := do
  let v ← current self
  let _ ← defined (destroyElements T v)
  store self { v with data := [], size := 0, capacity := 0 }

def stealStorageFrom (self other : Nat) : Action α Alloc Unit := do
  let v ← current self
  let o ← current other
  store self { v with data := o.data, size := o.size, capacity := o.capacity }
  store other { o with data := [], size := 0, capacity := 0 }

/-- How `Reserve` and `ShrinkToFit` carry the elements over. -/
def relocation : Transfer :=
  if T.bitwise then .bytes else if T.nothrowMove || !T.copyConstructible then .moves else .copies

/-- How `ConstructElements` fills storage from a source of type `SourceType*`. -/
def construction (constSource : Bool) : Transfer :=
  if T.bitwise then .bytes
  else if constSource then .copies
  else if T.nothrowMove || !T.copyConstructible then .moves
  else .copies

def relocate (self capacity : Nat) (fresh : Storage α) : Action α Alloc Unit := do
  let v ← current self
  let (data, old) ← defined (T.transfer (relocation T) v.size fresh v.data)
  let _ ← defined (if T.bitwise then some old else T.destroyRange old 0 v.size)
  store self { v with data, capacity }

def reserve (self newCapacity : Nat) : Action α Alloc Unit := do
  let v ← current self
  if newCapacity ≤ v.capacity then return ()
  else if (2 ^ 64 - 1) / T.bytes < newCapacity then fail (.lengthError "Vector::Reserve size overflow")
  else
    let fresh ← allocate T grants (newCapacity * T.bytes % 2 ^ 64)
    relocate T self newCapacity fresh

def shrinkToFit (self : Nat) : Action α Alloc Unit := do
  let v ← current self
  if v.size = v.capacity then return ()
  else if v.size = 0 then store self { v with data := [], capacity := 0 }
  else if v.capacity < v.size * 2 % 2 ^ 64 then return ()
  else
    let fresh ← allocate T grants (v.size * T.bytes % 2 ^ 64)
    relocate T self v.size fresh

def nextCapacity (capacity : Nat) : Nat :=
  let next := if capacity ≠ 0 then (capacity + capacity >>> 1 + 1) % 2 ^ 64 else 1
  if next < capacity then (capacity + 1) % 2 ^ 64 else next

def ensureCapacityForOne (self : Nat) : Action α Alloc Unit := do
  let v ← current self
  if v.size < v.capacity then return () else reserve T grants self (nextCapacity v.capacity)

def constructAtEnd (self : Nat) (value : α) : Action α Alloc Unit := do
  let v ← current self
  let data ← defined (T.construct v.data v.size value)
  store self { v with data, size := v.size + 1 }

def pushBack (self : Nat) (argument : Argument) (x : α) : Action α Alloc Unit := do
  ensureCapacityForOne T grants self
  constructAtEnd T self (argument.value T x)

def insertInto (v : Vector α Alloc) (index : Nat) (value : α) : Option (Storage α) :=
  if T.bitwise then
    (ObjectType.memmove v.data (index + 1) index (v.size - index)).bind fun data => T.construct data index value
  else
    (T.moveConstruct v.data v.size (v.size - 1)).bind fun data =>
      (T.shiftRight index (v.size - 1) data).bind fun data =>
        (ObjectType.destroy data index).bind fun data => T.construct data index value

def insertAt (what : String) (self index : Nat) (argument : Argument) (x : α) : Action α Alloc Unit := do
  let v ← current self
  if v.size < index then fail (.outOfRange what)
  else
    ensureCapacityForOne T grants self
    let v ← current self
    if index = v.size then constructAtEnd T self (argument.value T x)
    else
      let data ← defined (insertInto T v index (argument.value T x))
      store self { v with data, size := v.size + 1 }

def pushAt (self index : Nat) (argument : Argument) (x : α) : Action α Alloc Unit :=
  insertAt T grants "Vector::PushAt: index out of range" self index argument x

def emplaceAt (self index : Nat) (x : α) : Action α Alloc Unit :=
  insertAt T grants "Vector::EmplaceAt: index out of range" self index .emplaced x

def popBack (self : Nat) : Action α Alloc Unit := do
  let v ← current self
  if v.size = 0 then fail (.outOfRange "Vector::PopBack: vector is empty")
  else
    let data ← defined (T.destroyRange v.data (v.size - 1) 1)
    store self { v with data, size := v.size - 1 }

def eraseFrom (v : Vector α Alloc) (index : Nat) : Option (Storage α) :=
  if T.bitwise then ObjectType.memmove v.data index (index + 1) (v.size - index - 1)
  else
    (T.shiftLeft (v.size - 1 - index) index v.data).bind fun data => T.destroyRange data (v.size - 1) 1

def erase (self index : Nat) : Action α Alloc Unit := do
  let v ← current self
  if v.size ≤ index then fail (.outOfRange "Vector::Erase: index out of range")
  else
    let data ← defined (eraseFrom T v index)
    store self { v with data, size := v.size - 1 }

def clear (self : Nat) : Action α Alloc Unit := do
  let v ← current self
  let data ← defined (destroyElements T v)
  store self { v with data, size := 0 }

/-- Storage of the size of another vector, filled from it. `m_data` is a `T*` in a constant vector as well, so
    the source type is never constant. -/
def constructFrom (other : Nat) : Action α Alloc (Storage α) := do
  let o ← current other
  let fresh ← allocateStorage T grants o.size
  let (data, left) ← defined (T.transfer (construction T false) o.size fresh o.data)
  store other { o with data := left }
  return data

/-- Assign to the living elements, construct the missing ones and destroy those that are left over. -/
def assignInPlace (moves : Bool) (self other : Nat) : Action α Alloc Unit := do
  let v ← current self
  let o ← current other
  let shared := min v.size o.size
  let (data, left) ← defined (T.assignLoop moves shared 0 v.data o.data)
  let (data, left) ← defined (T.transferLoop moves (o.size - shared) shared data left)
  let data ← if o.size < v.size then defined (T.destroyRange data o.size (v.size - o.size)) else pure data
  store other { o with data := left }
  store self { v with data, size := o.size }

def adopt (self : Nat) (data : Storage α) (size : Nat) : Action α Alloc Unit := do
  releaseStorage T self
  let v ← current self
  store self { v with data, size, capacity := size }

def assignFromCopy (self other : Nat) : Action α Alloc Unit := do
  let v ← current self
  let o ← current other
  if traits.propagateOnCopyAssignment then
    releaseStorage T self
    let v ← current self
    store self { v with alloc := o.alloc }
    if o.size = 0 then return ()
    else
      let data ← constructFrom T grants other
      let v ← current self
      store self { v with data, size := o.size, capacity := o.size }
  else if v.capacity < o.size then
    let data ← constructFrom T grants other
    adopt T self data o.size
  else assignInPlace T false self other

def assignFromMoved (self other : Nat) : Action α Alloc Unit := do
  let v ← current self
  let o ← current other
  if v.capacity < o.size then
    let data ← constructFrom T grants other
    adopt T self data o.size
  else assignInPlace T true self other
  clear T other

def copyAssign (self other : Nat) : Action α Alloc Unit :=
  if self ≠ other then assignFromCopy T traits grants self other else pure ()

def steal (self other : Nat) : Action α Alloc Unit := do
  releaseStorage T self
  stealStorageFrom self other

def takeOver (self other : Nat) : Action α Alloc Unit := do
  releaseStorage T self
  let v ← current self
  let o ← current other
  store self { v with alloc := o.alloc }
  stealStorageFrom self other

def moveAssign (self other : Nat) : Action α Alloc Unit :=
  if self ≠ other then do
    let v ← current self
    let o ← current other
    if traits.propagateOnMoveAssignment then takeOver T self other
    else if traits.isAlwaysEqual then steal T self other
    else
      match traits.equal with
      | some equal => if equal v.alloc o.alloc then steal T self other else assignFromMoved T grants self other
      | none => assignFromMoved T grants self other
  else pure ()

/-- The constructor from a vector that is moved, of a vector in the place of one that is destroyed. -/
def moveConstruct (self other : Nat) : Action α Alloc Unit := takeOver T self other

end Vector

end NginBase.Containers
