import NginBase.Library.Block
import NginBase.Library.Command

namespace NginBase.Text

open Library Block Command

/-! `BasicString`: code units in a buffer inside the object or on the heap, with a zero after the last of them. The
    highest bit of the size says which of the two is in use. -/

/-- The template arguments of the class with its static assertions. -/
structure StringLayout (C : Type) where
  zero : C
  charBytes : Nat
  sboBytes : Nat
  grow : Nat → Nat → Nat
  charPositive : 0 < charBytes
  room : charBytes ≤ sboBytes
  addressable : sboBytes < 2 ^ 64
  packed : sboBytes / charBytes - 1 ≤ 2 ^ 63 - 1

namespace DefaultGrowthPolicy

def smallCapThreshold : Nat := 64

def nextPow2 (value : Nat) : Nat :=
  if value ≤ 1 then 1
  else
    let value := value - 1
    let value := value ||| value >>> 1
    let value := value ||| value >>> 2
    let value := value ||| value >>> 4
    let value := value ||| value >>> 8
    let value := value ||| value >>> 16
    let value := value ||| value >>> 32
    (value + 1) % 2 ^ 64

def grow (oldCap required : Nat) : Nat :=
  if oldCap < smallCapThreshold then nextPow2 required
  else
    let grown := (oldCap + oldCap / 2) % 2 ^ 64
    if grown < required then required else grown

end DefaultGrowthPolicy

def heapFlag : Nat := 2 ^ 63

def sizeMask : Nat := 2 ^ 63 - 1

namespace StringLayout

variable {C : Type} (L : StringLayout C)

def sboChars : Nat := L.sboBytes / L.charBytes - 1

def maxCapacity : Nat := min ((2 ^ 64 - 1) / L.charBytes - 1) sizeMask

/-- A buffer inside the object, as `SmallStorage buffer {}` makes it. -/
def smallStorage : List C := List.replicate (L.sboChars + 1) L.zero

end StringLayout

inductive StringStorage (C : Type)
  | small (buffer : List C)
  | heap (buffer : List C) (capacity : Nat)

structure BasicString (C Alloc : Type) where
  sizeAndFlags : Nat
  storage : StringStorage C
  alloc : Alloc

/-- `AllocatorPropagationTraits`, and whether assigning an allocator can throw. -/
structure StringAllocatorTraits where
  propagateOnCopyAssignment : Bool := false
  propagateOnMoveAssignment : Bool := true
  propagateOnSwap : Bool := true
  isAlwaysEqual : Bool := true
  nothrowCopyAssignable : Bool := true
  nothrowMoveAssignable : Bool := true

/-- What a call throws, or that its behaviour is undefined. -/
inductive StringException
  | outOfRange (what : String)
  | lengthError (what : String)
  | badAlloc
  | undefined

/-- A view: units elsewhere, or a range of the units of a string. -/
inductive StringView (C : Type)
  | outside (units : List C)
  | within (index offset count : Nat)

def StringView.size {C : Type} : StringView C → Nat
  | outside units => units.length
  | within _ _ count => count

/-- The strings of a program, and the number of allocations they have asked for. -/
structure Strings (C Alloc : Type) where
  strings : Nat → BasicString C Alloc
  requests : Nat := 0

namespace BasicString

variable {C Alloc : Type} (L : StringLayout C)

section

variable (v : BasicString C Alloc)

def isSmall : Bool := v.sizeAndFlags &&& heapFlag == 0

def rawSize : Nat := v.sizeAndFlags &&& sizeMask

def smallData : Option (List C) :=
  match v.storage with
  | .small buffer => some buffer
  | .heap _ _ => none

def heapData : Option (List C) :=
  match v.storage with
  | .small _ => none
  | .heap buffer _ => some buffer

def heapCapacity : Option Nat :=
  match v.storage with
  | .small _ => none
  | .heap _ capacity => some capacity

def data : Option (List C) := if v.isSmall then v.smallData else v.heapData

def rawCapacity : Option Nat := if v.isSmall then some L.sboChars else v.heapCapacity

def withBuffer (buffer : List C) : BasicString C Alloc :=
  match v.storage with
  | .small _ => { v with storage := .small buffer }
  | .heap _ capacity => { v with storage := .heap buffer capacity }

def writeData (offset : Nat) (units : List C) : Option (BasicString C Alloc) := do
  let buffer ← v.data
  let buffer ← write buffer offset units
  return v.withBuffer buffer

def setSmallSize (size : Nat) : Option (BasicString C Alloc) := do
  let buffer ← v.smallData
  let buffer ← write buffer size [L.zero]
  return { v with sizeAndFlags := size, storage := .small buffer }

def setHeapSize (size : Nat) : Option (BasicString C Alloc) := do
  let buffer ← v.heapData
  let capacity ← v.heapCapacity
  let buffer ← write buffer size [L.zero]
  return { v with sizeAndFlags := size ||| heapFlag, storage := .heap buffer capacity }

def setSize (size : Nat) : Option (BasicString C Alloc) :=
  { v with sizeAndFlags := if v.isSmall then size else size ||| heapFlag }.writeData size [L.zero]

/-- `BecomeEmptySmallAfterHeapReleased`, and `DestroyAndBecomeEmptySmall`. -/
def becomeEmptySmall : Option (BasicString C Alloc) :=
  let storage := if v.isSmall then v.storage else .small L.smallStorage
  { v with sizeAndFlags := 0, storage }.setSmallSize L 0

def commitSmall (source : List C) (count : Nat) : Option (BasicString C Alloc) := do
  let empty ← v.becomeEmptySmall L
  let units ← read source 0 count
  let filled ← empty.writeData 0 units
  filled.setSmallSize L count

def commitHeap (buffer : List C) (capacity size : Nat) : Option (BasicString C Alloc) :=
  { v with sizeAndFlags := heapFlag, storage := .heap buffer capacity }.setHeapSize L size

def stage (units : List C) : Option (List C) := do
  let buffer ← write L.smallStorage 0 units
  write buffer units.length [L.zero]

def swapValueState (v w : BasicString C Alloc) : Option (BasicString C Alloc × BasicString C Alloc) :=
  if v.isSmall == w.isSmall then
    some ({ v with sizeAndFlags := w.sizeAndFlags, storage := w.storage },
      { w with sizeAndFlags := v.sizeAndFlags, storage := v.storage })
  else if v.isSmall then do
    let buffer ← v.smallData
    let (heap, capacity) ← (w.heapData.bind fun heap => w.heapCapacity.map (heap, ·))
    return ({ v with sizeAndFlags := w.rawSize ||| heapFlag, storage := .heap heap capacity },
      { w with sizeAndFlags := v.rawSize, storage := .small buffer })
  else do
    let buffer ← w.smallData
    let (heap, capacity) ← (v.heapData.bind fun heap => v.heapCapacity.map (heap, ·))
    return ({ v with sizeAndFlags := w.rawSize, storage := .small buffer },
      { w with sizeAndFlags := v.rawSize ||| heapFlag, storage := .heap heap capacity })

end

abbrev Action (C Alloc β : Type) := Command StringException (Strings C Alloc) β

/-- The memory a request is given, if it is: as many units as fit the bytes, with any contents. -/
abbrev Grants (C : Type) := Nat → Nat → Option (Nat → C)

variable (traits : StringAllocatorTraits) (grants : Grants C)

def current (self : Nat) : Action C Alloc (BasicString C Alloc) := do
  let state ← get
  return state.strings self

def store (self : Nat) (v : BasicString C Alloc) : Action C Alloc Unit :=
  modify fun state => { state with strings := Function.update state.strings self v }

def defined {β : Type} : Option β → Action C Alloc β
  | some x => pure x
  | none => fail .undefined

def update (self : Nat) (f : BasicString C Alloc → Action C Alloc (BasicString C Alloc)) : Action C Alloc Unit := do
  let v ← current self
  let v ← f v
  store self v

def fetch : StringView C → Action C Alloc (List C)
  | .outside units => pure units
  | .within index offset count => do
    let v ← current index
    let buffer ← defined v.data
    defined (read buffer offset count)

def validateCapacity (capacity : Nat) : Action C Alloc Unit :=
  if L.maxCapacity < capacity then fail (.lengthError "BasicString capacity overflow") else pure ()

def checkedGrow (oldCap required : Nat) : Action C Alloc Nat :=
  if L.maxCapacity < required then fail (.lengthError "BasicString capacity overflow")
  else
    let grown := L.grow oldCap required
    let grown := if grown < required then required else grown
    pure (if L.maxCapacity < grown then L.maxCapacity else grown)

def checkedAppendSize (lhs rhs : Nat) : Action C Alloc Nat :=
  if (L.maxCapacity + 2 ^ 64 - lhs) % 2 ^ 64 < rhs then fail (.lengthError "BasicString capacity overflow")
  else pure ((lhs + rhs) % 2 ^ 64)

def allocateWith (capacity : Nat) : Action C Alloc (List C) := do
  validateCapacity L capacity
  let bytes := (capacity + 1) * L.charBytes % 2 ^ 64
  let state ← get
  modify fun state => { state with requests := state.requests + 1 }
  match grants state.requests bytes with
  | some contents => pure ((List.range (bytes / L.charBytes)).map contents)
  | none => fail .badAlloc

def reallocated (v : BasicString C Alloc) (newCapacity : Nat) : Action C Alloc (BasicString C Alloc) := do
  validateCapacity L newCapacity
  if newCapacity ≤ L.sboChars then
    if v.isSmall then return v
    else
      let buffer ← defined v.heapData
      let units ← defined (read buffer 0 v.rawSize)
      let staged ← defined (stage L units)
      defined (v.commitSmall L staged v.rawSize)
  else
    let fresh ← allocateWith L grants newCapacity
    let buffer ← defined v.data
    let units ← defined (read buffer 0 (v.rawSize + 1))
    let filled ← defined (write fresh 0 units)
    defined (v.commitHeap L filled newCapacity v.rawSize)

def grown (v : BasicString C Alloc) (required : Nat) : Action C Alloc (BasicString C Alloc) := do
  let capacity ← defined (v.rawCapacity L)
  let newCapacity ← checkedGrow L capacity required
  reallocated L grants v newCapacity

def grownIf (v : BasicString C Alloc) (full : Bool) (required : Nat) : Action C Alloc (BasicString C Alloc) :=
  if full then grown L grants v required else pure v

/-- `Data()` filled from `RawSize()` on, after it has grown if `full`. -/
def extended (v : BasicString C Alloc) (full : Bool) (size : Nat) (units : List C) :
    Action C Alloc (BasicString C Alloc) := do
  let v ← grownIf L grants v full size
  let v ← defined (v.writeData v.rawSize units)
  defined (v.setSize L size)

def cleared (v : BasicString C Alloc) : Action C Alloc (BasicString C Alloc) := defined (v.setSize L 0)

def reserved (v : BasicString C Alloc) (newCap : Nat) : Action C Alloc (BasicString C Alloc) := do
  let capacity ← defined (v.rawCapacity L)
  if newCap ≤ capacity then return v else grown L grants v newCap

def reservedExactly (v : BasicString C Alloc) (newCap : Nat) : Action C Alloc (BasicString C Alloc) := do
  let capacity ← defined (v.rawCapacity L)
  if newCap ≤ capacity then return v else reallocated L grants v newCap

def shrunkToFit (v : BasicString C Alloc) : Action C Alloc (BasicString C Alloc) := do
  if v.isSmall then return v
  else if v.rawSize ≤ L.sboChars then
    let buffer ← defined v.heapData
    let units ← defined (read buffer 0 v.rawSize)
    let staged ← defined (stage L units)
    defined (v.commitSmall L staged v.rawSize)
  else
    let capacity ← defined v.heapCapacity
    if v.rawSize < capacity then reallocated L grants v v.rawSize else return v

def resized (v : BasicString C Alloc) (count : Nat) (ch : C) : Action C Alloc (BasicString C Alloc) := do
  if count ≤ v.rawSize then defined (v.setSize L count)
  else
    let capacity ← defined (v.rawCapacity L)
    extended L grants v (capacity < count) count (List.replicate (count - v.rawSize) ch)

def pushedBack (v : BasicString C Alloc) (ch : C) : Action C Alloc (BasicString C Alloc) := do
  let capacity ← defined (v.rawCapacity L)
  extended L grants v (v.rawSize = capacity) (v.rawSize + 1) [ch]

def poppedBack (v : BasicString C Alloc) : Action C Alloc (BasicString C Alloc) :=
  if v.rawSize = 0 then pure v else defined (v.setSize L (v.rawSize - 1))

def assigned (v : BasicString C Alloc) (view : StringView C) : Action C Alloc (BasicString C Alloc) := do
  let count := view.size
  if count ≤ L.sboChars then
    let units ← fetch view
    let staged ← defined (stage L units)
    defined (v.commitSmall L staged count)
  else
    let capacity ← defined (v.rawCapacity L)
    if !v.isSmall ∧ count ≤ capacity then
      let units ← fetch view
      let v ← defined (v.writeData 0 units)
      defined (v.setHeapSize L count)
    else
      let newCapacity ← checkedGrow L capacity count
      let fresh ← allocateWith L grants newCapacity
      let units ← fetch view
      let filled ← defined (write fresh 0 units)
      let filled ← defined (write filled count [L.zero])
      defined (v.commitHeap L filled newCapacity count)

def filledWith (v : BasicString C Alloc) (count : Nat) (ch : C) : Action C Alloc (BasicString C Alloc) :=
  if count = 0 then pure v
  else do
    let newSize ← checkedAppendSize L v.rawSize count
    let capacity ← defined (v.rawCapacity L)
    extended L grants v (capacity < newSize) newSize (List.replicate count ch)

/-- Whether a range of units shares memory with the units of the string, by comparison of addresses. -/
def overlaps (v : BasicString C Alloc) (self : Nat) : StringView C → Bool
  | .outside _ => false
  | .within index offset count => index = self ∧ offset < v.rawSize ∧ 0 < offset + count

/-- A `memcpy` from a range of the string into itself is undefined where the ranges overlap. -/
def copyable (self offset : Nat) : StringView C → Bool
  | .outside _ => true
  | .within index source count => index ≠ self ∨ Block.Separate offset source count

def appendedView (self : Nat) (v : BasicString C Alloc) (view : StringView C) : Action C Alloc (BasicString C Alloc) :=
  if view.size = 0 then pure v
  else do
    let oldSize := v.rawSize
    let newSize ← checkedAppendSize L oldSize view.size
    let capacity ← defined (v.rawCapacity L)
    if capacity < newSize then
      let newCapacity ← checkedGrow L capacity newSize
      let fresh ← allocateWith L grants newCapacity
      let buffer ← defined v.data
      let old ← defined (read buffer 0 oldSize)
      let filled ← defined (write fresh 0 old)
      let units ← fetch view
      let filled ← defined (write filled oldSize units)
      let filled ← defined (write filled newSize [L.zero])
      defined (v.commitHeap L filled newCapacity newSize)
    else if overlaps v self view || copyable self oldSize view then
      let units ← fetch view
      let v ← defined (v.writeData oldSize units)
      defined (v.setSize L newSize)
    else fail .undefined

def content (v : BasicString C Alloc) : Option (List C) := do
  let buffer ← v.data
  read buffer 0 v.rawSize

def constructed (alloc : Alloc) : Option (BasicString C Alloc) :=
  ({ sizeAndFlags := 0, storage := .small L.smallStorage, alloc } : BasicString C Alloc).becomeEmptySmall L

def constructedFrom (alloc : Alloc) (view : StringView C) : Action C Alloc (BasicString C Alloc) := do
  let v ← defined (constructed L alloc)
  if view.size = 0 then return v else assigned L grants v view

def constructedFilled (alloc : Alloc) (count : Nat) (ch : C) : Action C Alloc (BasicString C Alloc) := do
  let v ← defined (constructed L alloc)
  let capacity ← defined (v.rawCapacity L)
  if capacity < count then
    let newCapacity ← checkedGrow L 0 count
    let v ← reallocated L grants v newCapacity
    let v ← defined (v.writeData 0 (List.replicate count ch))
    defined (v.setSize L count)
  else
    let v ← defined (v.writeData 0 (List.replicate count ch))
    defined (v.setSize L count)

def assemble (block head middle tail : List C) : Option (List C) := do
  let block ← write block 0 head
  let block ← write block head.length middle
  let block ← write block (head.length + middle.length) tail
  write block (head.length + middle.length + tail.length) [L.zero]

def surroundings (v : BasicString C Alloc) (pos eraseCount : Nat) : Option (List C × List C) := do
  let buffer ← v.data
  let head ← read buffer 0 pos
  let tail ← read buffer (pos + eraseCount) (v.rawSize - pos - eraseCount)
  return (head, tail)

/-- `Data()` with the units behind the range moved to where the replacement will end. -/
def moveTail (v : BasicString C Alloc) (pos eraseCount size : Nat) : Option (BasicString C Alloc) :=
  if size ≠ eraseCount then do
    let buffer ← v.data
    let buffer ← move buffer (pos + size) (pos + eraseCount) (v.rawSize - pos - eraseCount)
    return v.withBuffer buffer
  else some v

def replaceRange (self pos eraseCount : Nat) (replacement : StringView C) : Action C Alloc Unit := do
  let v ← current self
  let newSize ← checkedAppendSize L (v.rawSize - eraseCount) replacement.size
  let capacity ← defined (v.rawCapacity L)
  if newSize ≤ L.sboChars then
    let (head, tail) ← defined (surroundings v pos eraseCount)
    let units ← fetch replacement
    let staged ← defined (assemble L L.smallStorage head units tail)
    let v ← defined (v.commitSmall L staged newSize)
    store self v
  else if !v.isSmall ∧ newSize ≤ capacity then
    let v ← defined (moveTail v pos eraseCount replacement.size)
    store self v
    if copyable self pos replacement then
      let units ← fetch replacement
      let v ← defined (v.writeData pos units)
      let v ← defined (v.setSize L newSize)
      store self v
    else fail .undefined
  else
    let newCapacity ← checkedGrow L capacity newSize
    let fresh ← allocateWith L grants newCapacity
    let (head, tail) ← defined (surroundings v pos eraseCount)
    let units ← fetch replacement
    let filled ← defined (assemble L fresh head units tail)
    let v ← defined (v.commitHeap L filled newCapacity newSize)
    store self v

def overlapsSelf (v : BasicString C Alloc) (self : Nat) (view : StringView C) : Bool :=
  view.size ≠ 0 ∧ overlaps v self view

/-- The replacement in storage of its own if it shares memory with the string. -/
def detached (self : Nat) (view : StringView C) : Action C Alloc (StringView C) := do
  let v ← current self
  if overlapsSelf v self view then
    let storage ← defined (constructed L v.alloc)
    let storage ← assigned L grants storage view
    let units ← defined storage.content
    return .outside units
  else return view

def replace (self pos count : Nat) (replacement : StringView C) : Action C Alloc Unit := do
  let v ← current self
  if v.rawSize < pos then fail (.outOfRange "BasicString::Replace")
  else
    let view ← detached L grants self replacement
    replaceRange L grants self pos (min count (v.rawSize - pos)) view

def insert (self pos : Nat) (value : StringView C) : Action C Alloc Unit := replace L grants self pos 0 value

def insertFilled (self pos count : Nat) (ch : C) : Action C Alloc Unit :=
  if count = 0 then pure ()
  else do
    let v ← current self
    let fill ← constructedFilled L grants v.alloc count ch
    let units ← defined fill.content
    replace L grants self pos 0 (.outside units)

def erase (self pos count : Nat) : Action C Alloc Unit := replace L grants self pos count (.outside [])

def removePrefix (self count : Nat) : Action C Alloc Unit := do
  let v ← current self
  if v.rawSize < count then fail (.outOfRange "BasicString::RemovePrefix") else erase L grants self 0 count

def removeSuffix (self count : Nat) : Action C Alloc Unit := do
  let v ← current self
  if v.rawSize < count then fail (.outOfRange "BasicString::RemoveSuffix")
  else erase L grants self (v.rawSize - count) count

def view (index : Nat) (v : BasicString C Alloc) : StringView C := .within index 0 v.rawSize

def copyConstructed (v o : BasicString C Alloc) : Action C Alloc (BasicString C Alloc) :=
  if o.isSmall then do
    let buffer ← defined o.smallData
    let units ← defined (read buffer 0 (o.rawSize + 1))
    let v ← defined (v.writeData 0 units)
    defined (v.setSmallSize L o.rawSize)
  else do
    let capacity ← defined o.heapCapacity
    let fresh ← allocateWith L grants capacity
    let buffer ← defined o.heapData
    let units ← defined (read buffer 0 (o.rawSize + 1))
    let filled ← defined (write fresh 0 units)
    defined (v.commitHeap L filled capacity o.rawSize)

def moveConstructed (v o : BasicString C Alloc) : Option (BasicString C Alloc × BasicString C Alloc) :=
  if o.isSmall then do
    let buffer ← o.smallData
    let units ← read buffer 0 (o.rawSize + 1)
    let v ← v.writeData 0 units
    let v ← v.setSmallSize L o.rawSize
    let o ← o.becomeEmptySmall L
    return (v, o)
  else do
    let v : BasicString C Alloc := { v with sizeAndFlags := o.rawSize ||| heapFlag, storage := o.storage }
    let o ← o.becomeEmptySmall L
    return (v, o)

def copyConstruct (self other : Nat) : Action C Alloc Unit := do
  let o ← current other
  let v ← defined (constructed L o.alloc)
  let v ← copyConstructed L grants v o
  store self v

def moveConstruct (self other : Nat) : Action C Alloc Unit := do
  let o ← current other
  let v ← defined (constructed L o.alloc)
  let (v, o) ← defined (moveConstructed L v o)
  store other o
  store self v

/-- The value of a temporary string taken over, after the own one is destroyed. -/
def takeValue (v temp : BasicString C Alloc) (alloc : Alloc) : Option (BasicString C Alloc) := do
  let empty ← v.becomeEmptySmall L
  let (v, _) ← swapValueState { empty with alloc } temp
  return v

def copyAssignFrom (self other : Nat) : Action C Alloc Unit := do
  let v ← current self
  let o ← current other
  if traits.propagateOnCopyAssignment then
    if traits.nothrowCopyAssignable then
      let temp ← defined (constructed L o.alloc)
      let temp ← copyConstructed L grants temp o
      let v ← defined (takeValue L v temp o.alloc)
      store self v
    else
      let empty ← defined (v.becomeEmptySmall L)
      let empty := { empty with alloc := o.alloc }
      store self empty
      let v ← copyConstructed L grants empty o
      store self v
  else update self fun v => assigned L grants v (view other o)

def copyAssign (self other : Nat) : Action C Alloc Unit :=
  if self = other then pure () else copyAssignFrom L traits grants self other

def moveAssignFrom (self other : Nat) : Action C Alloc Unit := do
  let v ← current self
  let o ← current other
  if traits.propagateOnMoveAssignment then
    if traits.nothrowMoveAssignable then
      let temp ← defined (constructed L o.alloc)
      let (temp, o) ← defined (moveConstructed L temp o)
      store other o
      let v ← defined (takeValue L v temp temp.alloc)
      store self v
    else
      let empty ← defined (v.becomeEmptySmall L)
      let (v, o) ← defined (moveConstructed L { empty with alloc := o.alloc } o)
      store other o
      store self v
  else if traits.isAlwaysEqual then
    let empty ← defined (v.becomeEmptySmall L)
    let (v, o) ← defined (swapValueState empty o)
    store other o
    store self v
  else
    update self fun v => assigned L grants v (view other o)
    update other fun o => cleared L o

def moveAssign (self other : Nat) : Action C Alloc Unit :=
  if self = other then pure () else moveAssignFrom L traits grants self other

def swapDistinct (self other : Nat) : Action C Alloc Unit := do
  let v ← current self
  let o ← current other
  if traits.propagateOnSwap || traits.isAlwaysEqual then
    let (v', o') ← defined (swapValueState v o)
    if traits.propagateOnSwap then
      store self { v' with alloc := o.alloc }
      store other { o' with alloc := v.alloc }
    else
      store self v'
      store other o'
  else
    let newThis ← constructedFrom L grants v.alloc (view other o)
    let newOther ← constructedFrom L grants o.alloc (view self v)
    let v ← defined (takeValue L v newThis v.alloc)
    let o ← defined (takeValue L o newOther o.alloc)
    store self v
    store other o

def swap (self other : Nat) : Action C Alloc Unit :=
  if self = other then pure () else swapDistinct L traits grants self other

end BasicString

end NginBase.Text
