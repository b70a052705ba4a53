import NginBase.Containers.ConcurrentCalls
import NginBase.Library.Command

namespace NginBase.Containers.ConcurrentHashMap.Throwing

open Library Command

/-! The updates of `ConcurrentHashMap` down to the single allocations and copies, any one of which may throw. A block of
    memory is known by the number of its allocation. -/

/-- What may throw: an allocation, by what it is for, or a copy. -/
inductive Site
  | table
  | buckets
  | node
  | vector
  | record
  | key
  | value
deriving DecidableEq

/-- The one allocation or copy of a call that throws, among those of its kind. -/
structure Fault where
  site : Site
  ordinal : Nat

structure Memory where
  next : Nat
  live : List Nat

section

variable (Key Value : Type)

/-- A node, and a chain is the list of its nodes from the head on. -/
structure Cell where
  block : Nat
  hash : Nat
  key : Key
  value : Value

structure Table where
  block : Nat
  array : Nat
  buckets : List (List (Cell Key Value))

inductive Retired
  | chain (cells : List (Cell Key Value))
  | table (table : Table Key Value)

/-- The table of a shard is null only after the map has been destroyed. -/
structure Shard where
  table : Table Key Value
  bucketCount : Nat
  size : Nat := 0
  retired : List (Retired Key Value) := []

/-- What a call sees that holds the write lock of a shard. `total` is `m_size`, and `made` counts what has not thrown. -/
structure World where
  shard : Shard Key Value
  total : Nat
  memory : Memory
  made : Site → Nat

abbrev Update (α : Type) := Command Site (World Key Value) α

end

variable {Key Value : Type}

def blocksOf (cells : List (Cell Key Value)) : List Nat := cells.map Cell.block

def Table.cells (table : Table Key Value) : List (Cell Key Value) := table.buckets.flatten

def Table.blocks (table : Table Key Value) : List Nat := table.block :: table.array :: blocksOf table.cells

def Retired.blocks : Retired Key Value → List Nat
  | .chain cells => blocksOf cells
  | .table retired => retired.blocks

def Shard.blocks (shard : Shard Key Value) : List Nat := shard.table.blocks ++ shard.retired.flatMap Retired.blocks

section

variable (fault : Fault)

def mayThrow (site : Site) : Update Key Value Unit := fun w =>
  if fault.site = site ∧ fault.ordinal = w.made site then (.error site, w)
  else (.ok (), { w with made := Function.update w.made site (w.made site + 1) })

def takeBlock : Update Key Value Nat := fun w =>
  (.ok w.memory.next, { w with memory := { next := w.memory.next + 1, live := w.memory.next :: w.memory.live } })

def allocateBytes (site : Site) : Update Key Value Nat := do
  mayThrow fault site
  takeBlock

def deallocate (block : Nat) (w : World Key Value) : World Key Value :=
  { w with memory := { w.memory with live := w.memory.live.erase block } }

def destroyChain (cells : List (Cell Key Value)) (w : World Key Value) : World Key Value :=
  cells.foldl (fun w cell => deallocate cell.block w) w

def destroyTable (table : Table Key Value) (w : World Key Value) : World Key Value :=
  deallocate table.block (deallocate table.array (table.buckets.foldl (fun w cells => destroyChain cells w) w))

def allocateEmptyTable (bucketCount : Nat) : Update Key Value (Table Key Value) := do
  let block ← allocateBytes fault .table
  let array ← (allocateBytes fault .buckets).onFailure (deallocate block)
  pure { block, array, buckets := List.replicate bucketCount [] }

def allocateNode (hash : Nat) (next : List (Cell Key Value)) (key : Key) (value : Value) :
    Update Key Value (List (Cell Key Value)) := do
  let block ← allocateBytes fault .node
  let construct : Update Key Value Unit := do
    mayThrow fault .key
    mayThrow fault .value
  construct.onFailure (deallocate block)
  pure ({ block, hash, key, value } :: next)

end

section

variable (fault : Fault)

def collectNodes : List (Cell Key Value) → Update Key Value Unit
  | [] => pure ()
  | _ :: rest => do
    mayThrow fault .vector
    collectNodes rest

/-- The loop over the collected nodes, from the last one to the head. What has been made is destroyed if a step throws. -/
def cloneLoop (step : Cell Key Value → List (Cell Key Value) → Update Key Value (List (Cell Key Value))) :
    List (Cell Key Value) → List (Cell Key Value) → Update Key Value (List (Cell Key Value))
  | [], newHead => pure newHead
  | source :: rest, newHead => do
    let newHead ← (step source newHead).onFailure (destroyChain newHead)
    cloneLoop step rest newHead

def cloneWith (step : Cell Key Value → List (Cell Key Value) → Update Key Value (List (Cell Key Value)))
    (head : List (Cell Key Value)) : Update Key Value (List (Cell Key Value)) := do
  collectNodes fault head
  cloneLoop step head.reverse []

def copyNode (source : Cell Key Value) (newHead : List (Cell Key Value)) : Update Key Value (List (Cell Key Value)) :=
  allocateNode fault source.hash newHead source.key source.value

def cloneChain (head : List (Cell Key Value)) : Update Key Value (List (Cell Key Value)) :=
  cloneWith fault (copyNode fault) head

variable [DecidableEq Key] (key : Key) (hash : Nat)

def Cell.isAt (cell : Cell Key Value) : Bool := cell.hash = hash && cell.key = key

def cloneChainReplacingValue (head : List (Cell Key Value)) (factory : Value → Update Key Value Value) :
    Update Key Value (List (Cell Key Value)) :=
  cloneWith fault (fun source newHead =>
    if source.isAt key hash then do
      let value ← factory source.value
      allocateNode fault source.hash newHead source.key value
    else copyNode fault source newHead) head

def cloneChainWithoutKey (head : List (Cell Key Value)) : Update Key Value (List (Cell Key Value)) :=
  cloneWith fault (fun source newHead =>
    if source.isAt key hash then pure newHead else copyNode fault source newHead) head

omit [DecidableEq Key] in
def cloneChainWithPrepended (head : List (Cell Key Value)) (value : Value) : Update Key Value (List (Cell Key Value)) := do
  let cloned ← cloneChain fault head
  (allocateNode fault hash cloned key value).onFailure (destroyChain cloned)

end

section

variable (fault : Fault)

/-- `Retire` makes a record first, and none for a null object. -/
def retireChain (cells : List (Cell Key Value)) : Update Key Value Unit :=
  if cells = [] then pure ()
  else do
    mayThrow fault .record
    modify fun w => { w with shard.retired := .chain cells :: w.shard.retired }

def retireTable (table : Table Key Value) : Update Key Value Unit := do
  mayThrow fault .record
  modify fun w => { w with shard.retired := .table table :: w.shard.retired }

def destroyRetired : Retired Key Value → World Key Value → World Key Value
  | .chain cells => destroyChain cells
  | .table retired => destroyTable retired

/-- `guarded` says what readers may still use, by whatever policy. -/
def reclaimIf (guarded : Retired Key Value → Bool) :
    List (Retired Key Value) → List (Retired Key Value) → World Key Value → World Key Value
  | [], survivors, w => { w with shard.retired := survivors }
  | record :: rest, survivors, w =>
    if guarded record then reclaimIf guarded rest (record :: survivors) w
    else reclaimIf guarded rest survivors (destroyRetired record w)

def poll (guarded : Retired Key Value → Bool) : Update Key Value Unit :=
  modify fun w => reclaimIf guarded w.shard.retired [] { w with shard.retired := [] }

end

section

variable (fault : Fault)

def resizeLoop (replacement : Table Key Value) : List (Cell Key Value) → Update Key Value (Table Key Value)
  | [] => pure replacement
  | node :: rest => do
    let targetIndex := bucketIndex node.hash replacement.buckets.length
    let head := replacement.buckets.getD targetIndex []
    let copy ← (allocateNode fault node.hash head node.key node.value).onFailure (destroyTable replacement)
    resizeLoop { replacement with buckets := replacement.buckets.set targetIndex copy } rest

def resizeTable (current : Table Key Value) (desiredElements : Nat) : Update Key Value (Option (Table Key Value)) :=
  let newBucketCount := bucketCountForElements desiredElements
  if current.buckets.length ≥ newBucketCount then pure none
  else do
    let replacement ← allocateEmptyTable fault newBucketCount
    let resized ← resizeLoop fault replacement current.cells
    pure (some resized)

def ensureShardCapacity (desiredElements : Nat) : Update Key Value Unit := do
  let current := (← get).shard.table
  match ← resizeTable fault current desiredElements with
  | none => pure ()
  | some resized => do
    modify fun w => { w with shard.table := resized, shard.bucketCount := resized.buckets.length }
    retireTable fault current

def storeBucket (index : Nat) (newHead : List (Cell Key Value)) : Update Key Value Unit :=
  modify fun w => { w with shard.table.buckets := w.shard.table.buckets.set index newHead }

def World.inserted (w : World Key Value) : World Key Value := { w with shard.size := w.shard.size + 1, total := w.total + 1 }

def World.removed (w : World Key Value) : World Key Value := { w with shard.size := w.shard.size - 1, total := w.total - 1 }

def countInserted : Update Key Value Unit := modify World.inserted

def countRemoved : Update Key Value Unit := modify World.removed

variable [DecidableEq Key] (guarded : Retired Key Value → Bool) (hash : Nat) (key : Key)

def insertOrAssignInternal (value : Value) : Update Key Value Bool := do
  ensureShardCapacity fault ((← get).shard.size + 1)
  let table := (← get).shard.table
  let index := bucketIndex hash table.buckets.length
  let oldHead := table.buckets.getD index []
  let inserted := (oldHead.find? (Cell.isAt key hash)).isNone
  let replaceFactory (_ : Value) : Update Key Value Value := do
    mayThrow fault .value
    pure value
  let newHead ← if inserted then cloneChainWithPrepended fault key hash oldHead value
    else cloneChainReplacingValue fault key hash oldHead replaceFactory
  storeBucket index newHead
  retireChain fault oldHead
  if inserted then countInserted
  poll guarded
  pure inserted

def upsertInternal (value : Value) (updater : Value → Value → Value) : Update Key Value Bool := do
  ensureShardCapacity fault ((← get).shard.size + 1)
  let table := (← get).shard.table
  let index := bucketIndex hash table.buckets.length
  let oldHead := table.buckets.getD index []
  let inserted := (oldHead.find? (Cell.isAt key hash)).isNone
  let replaceFactory (current : Value) : Update Key Value Value := do
    -- the copy, and what the updater does with it
    mayThrow fault .value
    mayThrow fault .value
    pure (updater current value)
  let newHead ← if inserted then do
      let newHead ← cloneChainWithPrepended fault key hash oldHead value
      countInserted
      pure newHead
    else cloneChainReplacingValue fault key hash oldHead replaceFactory
  storeBucket index newHead
  retireChain fault oldHead
  poll guarded
  pure inserted

def remove : Update Key Value Bool := do
  let table := (← get).shard.table
  let index := bucketIndex hash table.buckets.length
  let oldHead := table.buckets.getD index []
  if (oldHead.find? (Cell.isAt key hash)).isNone then pure false
  else do
    let newHead ← cloneChainWithoutKey fault key hash oldHead
    storeBucket index newHead
    retireChain fault oldHead
    countRemoved
    poll guarded
    pure true

omit [DecidableEq Key] in
def reserveShard (perShardCapacity : Nat) : Update Key Value Unit := do
  ensureShardCapacity fault perShardCapacity
  poll guarded

omit [DecidableEq Key] in
def clearShard : Update Key Value Unit := do
  let current := (← get).shard.table
  let replacement ← allocateEmptyTable fault current.buckets.length
  modify fun w => { w with
    shard.table := replacement
    shard.bucketCount := replacement.buckets.length
    total := w.total - w.shard.size
    shard.size := 0 }
  retireTable fault current
  poll guarded

end

end NginBase.Containers.ConcurrentHashMap.Throwing
