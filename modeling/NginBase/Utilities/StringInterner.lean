import NginBase.Library.Block
import NginBase.Text.Utf8

namespace NginBase.Utilities

open Library

/-! An access to memory outside a block is undefined, which is `none`. -/

/-- A page owns the block that `data` points to. -/
structure Page where
  data : Bytes
  used : Nat := 0
  capacity : Nat

structure Entry where
  page : Nat
  offset : Nat
  length : Nat
  hash : UInt64

def minPageCapacity : Nat := 4 * 1024

def invalidId : Nat := 2 ^ 32 - 1

/-- `buckets` is the map from hashes to the identifiers of the strings with that hash. -/
structure StringInterner where
  pages : List Page := []
  entries : List Entry := []
  buckets : UInt64 → Option (List Nat) := fun _ => none
  nextPageCapacity : Nat := minPageCapacity

namespace StringInterner

variable (x : StringInterner)

def getEntry (id : Nat) : Option Entry := if id = invalidId ∨ id ≥ x.entries.length then none else x.entries[id]?

def readEntry (entry : Entry) : Option Bytes := do
  let page ← x.pages[entry.page]?
  Block.read page.data entry.offset entry.length

def findIn (value : Bytes) : List Nat → Option (Option Nat)
  | [] => some none
  | candidate :: rest =>
    match x.getEntry candidate with
    | none => findIn value rest
    | some entry =>
      if entry.length = value.length then
        if value = [] then some (some candidate)
        else do
          let data ← x.readEntry entry
          if data = value then some (some candidate) else findIn value rest
      else findIn value rest

def findId (hash : UInt64) (value : Bytes) : Option (Option Nat) :=
  match x.buckets hash with
  | none => some none
  | some bucket => x.findIn value bucket

def growCapacity (minCapacity : Nat) : Nat → Nat → Nat
  | 0, capacity => capacity
  | fuel + 1, capacity =>
    if capacity < minCapacity then
      if capacity > (2 ^ 32 - 1) / 2 then minCapacity else growCapacity minCapacity fuel (capacity * 2)
    else capacity

/-- `memory` is what the allocator returns: null, or a block with any content. -/
def allocatePage (memory : Option (Nat → UInt8)) (minCapacity : Nat) : Option StringInterner :=
  let capacity := growCapacity minCapacity 32 (max minPageCapacity x.nextPageCapacity)
  memory.map fun content =>
    { x with
      pages := x.pages ++ [{ data := (List.range capacity).map content, capacity }]
      nextPageCapacity := capacity * 2 % 2 ^ 32 }

def remainingInLastPage : Nat :=
  match x.pages.getLast? with
  | none => 0
  | some page => page.capacity - page.used

/-- The bytes that are taken from the last page, which is the first component's last page. -/
def takeBytes (byteCount : Nat) : Option (StringInterner × Nat) := do
  let page ← x.pages.getLast?
  pure ({ x with pages := x.pages.set (x.pages.length - 1) { page with used := page.used + byteCount } }, page.used)

def allocateBytes (memory : Option (Nat → UInt8)) (byteCount : Nat) : Option (StringInterner × Nat) :=
  if byteCount = 0 then none
  else if x.pages.length = 0 ∨ x.remainingInLastPage < byteCount then
    match x.allocatePage memory (max x.nextPageCapacity byteCount) with
    | none => none
    | some x => x.takeBytes byteCount
  else x.takeBytes byteCount

def insertAt (hash : UInt64) (value : Bytes) (storage : Nat) : Option (Nat × StringInterner) := do
  let length := value.length % 2 ^ 32
  let allocBytes := (length + 1) % 2 ^ 32
  let page ← x.pages.getLast?
  let data ← Block.write page.data storage (value.take length ++ [0])
  let pages := x.pages.set (x.pages.length - 1) { page with data }
  let pageIndex := (pages.length - 1) % 2 ^ 32
  let page ← pages[pageIndex]?
  let id := x.entries.length % 2 ^ 32
  let ids := match x.buckets hash with
    | some bucket => bucket ++ [id]
    | none => [id]
  pure (id, { x with
    pages
    entries := x.entries ++ [{ page := pageIndex, offset := page.used - allocBytes, length, hash }]
    buckets := Function.update x.buckets hash (some ids) })

def insertOrGet (hashOf : Bytes → UInt64) (memory : Option (Nat → UInt8)) (value : Bytes) :
    Option (Nat × StringInterner) := do
  match ← x.findId (hashOf value) value with
  | some existing => pure (existing, x)
  | none =>
    match x.allocateBytes memory ((value.length % 2 ^ 32 + 1) % 2 ^ 32) with
    | none => pure (invalidId, x)
    | some (x, storage) => x.insertAt (hashOf value) value storage

def tryGetId (hashOf : Bytes → UInt64) (value : Bytes) : Option (Option Nat) := x.findId (hashOf value) value

def view (id : Nat) : Option Bytes :=
  match x.getEntry id with
  | none => some []
  | some entry => x.readEntry entry

def clear (_ : StringInterner) : StringInterner := {}

def moveFrom (other : StringInterner) : StringInterner × StringInterner := (other, {})

end StringInterner

end NginBase.Utilities
