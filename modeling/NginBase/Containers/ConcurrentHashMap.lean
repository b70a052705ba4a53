import NginBase.Library.Heap

namespace NginBase.Containers.ConcurrentHashMap

open Library

/-! One shard of `ConcurrentHashMap`, as the atomic steps of its readers and of the call that holds its write lock. -/

/-- The policies with lock-free readers; `ManualQuiesce` leaves the readers to its user. -/
inductive ReclamationPolicy
  | hazardPointers
  | localEpoch

structure Node (Key Value : Type) where
  hash : Nat
  key : Key
  value : Value

/-- A table is its array of buckets, of which each is the address of a chain or 0. The nodes of a chain never change
    and are destroyed together: a chain is one object, at the address of its head. -/
inductive Object (Key Value : Type)
  | table (buckets : List Nat)
  | chain (nodes : List (Node Key Value))

namespace Object

variable {Key Value : Type}

def buckets : Object Key Value → List Nat
  | table buckets => buckets
  | chain _ => []

def nodes : Object Key Value → List (Node Key Value)
  | table _ => []
  | chain nodes => nodes

def setBucket (index head : Nat) : Object Key Value → Object Key Value
  | table buckets => table (buckets.set index head)
  | chain nodes => chain nodes

@[simp] theorem buckets_setBucket (index head : Nat) (o : Object Key Value) :
    (o.setBucket index head).buckets = o.buckets.set index head := by
  cases o <;> simp [setBucket, buckets]

end Object

abbrev Memory (Key Value : Type) := Heap (Object Key Value)

def word : Nat := 2 ^ 64

def kMinBucketsPerShard : Nat := 8

def ceilDivide (numerator denominator : Nat) : Nat :=
  if denominator = 0 then 0 else (numerator + denominator - 1) % word / denominator

/-- `std::bit_ceil` of the number of buckets that keeps the load under 3/4. -/
def bucketCountForElements (desiredElements : Nat) : Nat :=
  2 ^ Nat.clog 2 (max kMinBucketsPerShard
    (if desiredElements = 0 then kMinBucketsPerShard else ceilDivide ((desiredElements * 4 + 2) % word) 3))

def bucketIndex (hash bucketCount : Nat) : Nat := hash &&& (bucketCount - 1)

section

variable {Key Value : Type}

def chainNodes (memory : Memory Key Value) (head : Nat) : List (Node Key Value) :=
  if head = 0 then [] else (memory.object head).nodes

def tableBuckets (memory : Memory Key Value) (table : Nat) : List Nat :=
  if table = 0 then [] else (memory.object table).buckets

variable [DecidableEq Key] (key : Key) (hash : Nat)

def Node.isAt (node : Node Key Value) : Bool := node.hash = hash && node.key = key

def findNodeInChain (nodes : List (Node Key Value)) : Option (Node Key Value) := nodes.find? (Node.isAt key hash)

def cloneChainReplacingValue (nodes : List (Node Key Value)) (factory : Value → Value) : List (Node Key Value) :=
  nodes.map fun node => if node.isAt key hash then { node with value := factory node.value } else node

def cloneChainWithoutKey (nodes : List (Node Key Value)) : List (Node Key Value) :=
  nodes.filter fun node => !node.isAt key hash

def cloneChainWithPrepended (nodes : List (Node Key Value)) (value : Value) : List (Node Key Value) :=
  ⟨hash, key, value⟩ :: nodes

end

section

variable {Key Value : Type}

def allocateChain (memory : Memory Key Value) (address : Nat) (nodes : List (Node Key Value)) :
    Option (Memory Key Value × Nat) :=
  if nodes = [] then some (memory, 0)
  else if memory.Free address then some (memory.allocate address (.chain nodes), address)
  else none

def allocateChains (memory : Memory Key Value) (choice : Nat → Nat) :
    List (List (Node Key Value)) → Nat → Option (Memory Key Value × List Nat)
  | [], _ => some (memory, [])
  | nodes :: rest, i => do
    let (memory, head) ← allocateChain memory (choice i) nodes
    let (memory, heads) ← allocateChains memory choice rest (i + 1)
    return (memory, head :: heads)

/-- The nodes by their bucket in a table of `bucketCount` buckets, each put in front of those before it. -/
def distribute (bucketCount : Nat) (nodes : List (Node Key Value)) : List (List (Node Key Value)) :=
  nodes.foldl (fun buckets node => buckets.modify (bucketIndex node.hash bucketCount) (node :: ·))
    (List.replicate bucketCount [])

/-- A table in fresh memory with the given chains. The order of the allocations shows in nothing. -/
def allocateTable (memory : Memory Key Value) (choice : Nat → Nat) (chains : List (List (Node Key Value))) :
    Option (Memory Key Value × Nat) := do
  let (memory, buckets) ← allocateChains memory choice chains 1
  if memory.Free (choice 0) then return (memory.allocate (choice 0) (.table buckets), choice 0) else none

end

/-- What a reader passes to `Protect`: the pointer of the shard, or a bucket of a table. -/
inductive Location
  | table
  | bucket (table index : Nat)

inductive Phase
  | outside
  | entering
  /-- With epochs: the epoch is read, and the record is not linked yet. -/
  | registering
  | protect (location : Location)
  /-- With hazard pointers: the candidate is loaded, and not published yet. -/
  | publish (location : Location) (candidate : Nat)
  /-- With hazard pointers: the candidate is published, and the pointer is to be loaded again. -/
  | check (location : Location) (candidate : Nat)
  | atTable (table : Nat)
  | visit (table index head : Nat)
  | leaving
  | clearing
  | unlinking
  | finished

inductive Goal (Key : Type)
  | lookup (hash : Nat) (key : Key)
  | forEach

/-- A pointer that `Protect` returned, with the number of the allocation it pointed to. -/
structure Held where
  address : Nat
  serial : Nat

/-- A reader with its guard. The record has an epoch or two hazards, by the policy. What the guard answers for is the
    table and the chains that `Protect` returned; with hazard pointers a chain only until another takes its slot. -/
structure Reader (Key Value : Type) where
  goal : Goal Key := .forEach
  phase : Phase := .outside
  epoch : Nat := 0
  tableHazard : Nat := 0
  chainHazard : Nat := 0
  heldTable : Option Held := none
  heldChains : List Held := []
  seen : List (Node Key Value) := []

namespace Reader

variable {Key Value : Type} (r : Reader Key Value)

def holds : List Held := r.heldTable.toList ++ r.heldChains

def obtain (memory : Memory Key Value) (location : Location) (pointer : Nat) : Reader Key Value :=
  let held := if pointer = 0 then none else some ⟨pointer, memory.serial pointer⟩
  match location with
  | .table => { r with heldTable := held, phase := .atTable pointer }
  | .bucket table index => { r with heldChains := held.toList ++ r.heldChains, phase := .visit table index pointer }

/-- `hazard.store`: the first `Protect` of a guard has the slot of the table, and all others that of the chain. -/
def publish (location : Location) (candidate : Nat) : Reader Key Value :=
  match location with
  | .table => { r with tableHazard := candidate, phase := .check location candidate }
  | .bucket .. => { r with chainHazard := candidate, heldChains := [], phase := .check location candidate }

def enterTable (table : Nat) (buckets : List Nat) : Reader Key Value :=
  if buckets = [] then { r with phase := .leaving }
  else
    match r.goal with
    | .lookup hash _ => { r with phase := .protect (.bucket table (bucketIndex hash buckets.length)) }
    | .forEach => { r with phase := .protect (.bucket table 0) }

def visitChain [DecidableEq Key] (table index : Nat) (buckets : List Nat) (nodes : List (Node Key Value)) :
    Reader Key Value :=
  match r.goal with
  | .lookup hash key => { r with seen := (findNodeInChain key hash nodes).toList, phase := .leaving }
  | .forEach =>
    { r with
      seen := r.seen ++ nodes
      phase := if index + 1 < buckets.length then .protect (.bucket table (index + 1)) else .leaving }

def letGo (phase : Phase) : Reader Key Value := { r with heldTable := none, heldChains := [], phase := phase }

end Reader

/-- `DestroyChainThunk` and `DestroyTableThunk`. -/
inductive Deleter
  | chain
  | table

structure RetiredRecord where
  object : Nat
  deleter : Deleter
  retireEpoch : Nat

inductive HazardSlot
  | table
  | chain

/-- The predicates that `ReclaimIf` is called with. -/
inductive Criterion
  | below (minimum : Nat)
  | unguarded
  | everything

inductive Change (Key Value : Type)
  | insertOrAssign (hash : Nat) (key : Key) (value : Value)
  | upsert (hash : Nat) (key : Key) (value : Value) (updater : Value → Value → Value)
  | remove (hash : Nat) (key : Key)

/-- What the holder of the lock still has to do, with the local variables it does it with. -/
inductive Task (Key Value : Type)
  | ensureShardCapacity (desiredElements : Nat)
  | publishTable (replacement current counted : Nat)
  | storeBucketCount (bucketCount : Nat)
  | applyChange (change : Change Key Value)
  | storeBucket (table index newHead oldHead : Nat)
  | retire (object : Nat) (deleter : Deleter)
  | count (difference : Int)
  | renew
  | poll
  | minimumActiveEpoch
  | reclaimIf (criterion : Criterion) (current survivors : List RetiredRecord)
  | isHazard (record : RetiredRecord) (slots : List (Nat × HazardSlot)) (current survivors : List RetiredRecord)
  | destroy (record : RetiredRecord) (bucketIndex : Nat)
  | awaitReaders

def Task.counts {Key Value : Type} (difference : Int) (rest : List (Task Key Value)) : List (Task Key Value) :=
  if difference = 0 then rest else .count difference :: rest

structure Writer (Key Value : Type) where
  call : Nat
  result : Bool := false
  todo : List (Task Key Value)

/-- `readers` has for each call the reader it is, or one outside. `records` is the list of the linked records. -/
structure Shard (Key Value : Type) where
  memory : Memory Key Value
  table : Nat
  bucketCount : Nat
  size : Nat := 0
  epoch : Nat := 1
  records : List Nat := []
  readers : Nat → Reader Key Value := fun _ => {}
  retired : List RetiredRecord := []
  writer : Option (Writer Key Value) := none

namespace Shard

variable {Key Value : Type} (s : Shard Key Value)

def load : Location → Nat
  | .table => s.table
  | .bucket table index => (s.memory.object table).buckets.getD index 0

def setReader (i : Nat) (r : Reader Key Value) : Shard Key Value :=
  { s with readers := Function.update s.readers i r }

def todo : List (Task Key Value) :=
  match s.writer with
  | none => []
  | some w => w.todo

def scanning : Bool :=
  match s.todo with
  | .isHazard .. :: _ => true
  | _ => false

def enter (i : Nat) (goal : Goal Key) : Option (Shard Key Value) :=
  match (s.readers i).phase with
  | .outside => some (s.setReader i { goal := goal, phase := .entering })
  | _ => none

def register (i : Nat) : Option (Shard Key Value) :=
  if s.scanning then none
  else some { s.setReader i { s.readers i with phase := .protect .table } with records := i :: s.records }

def unregister (i : Nat) : Option (Shard Key Value) :=
  if s.scanning then none
  else some { s.setReader i ((s.readers i).letGo .finished) with records := s.records.erase i }

def read [DecidableEq Key] (policy : ReclamationPolicy) (i : Nat) : Option (Shard Key Value) :=
  let r := s.readers i
  match r.phase, policy with
  | .outside, _ => none
  | .entering, .localEpoch => some (s.setReader i { r with epoch := s.epoch, phase := .registering })
  | .entering, .hazardPointers => s.register i
  | .registering, _ => s.register i
  | .protect location, .localEpoch => some (s.setReader i (r.obtain s.memory location (s.load location)))
  | .protect location, .hazardPointers =>
    some (s.setReader i { r with phase := .publish location (s.load location) })
  | .publish location candidate, _ => some (s.setReader i (r.publish location candidate))
  | .check location candidate, _ =>
    if candidate = s.load location then some (s.setReader i (r.obtain s.memory location candidate))
    else some (s.setReader i { r with phase := .protect location })
  | .atTable table, _ => some (s.setReader i (r.enterTable table (tableBuckets s.memory table)))
  | .visit table index head, _ =>
    some (s.setReader i (r.visitChain table index (tableBuckets s.memory table) (chainNodes s.memory head)))
  | .leaving, .localEpoch => s.unregister i
  | .leaving, .hazardPointers => some (s.setReader i { r.letGo .clearing with tableHazard := 0 })
  | .clearing, _ => some (s.setReader i { r with chainHazard := 0, phase := .unlinking })
  | .unlinking, _ => s.unregister i
  | .finished, _ => none

def leave (i : Nat) : Option (Shard Key Value) :=
  match (s.readers i).phase with
  | .finished => some (s.setReader i {})
  | _ => none

def minimumActiveEpoch : Nat := s.records.foldl (fun minimum i => min minimum (s.readers i).epoch) s.epoch

/-- The hazards of the linked records, in the order in which `IsHazard` loads them. -/
def hazardSlots : List (Nat × HazardSlot) := s.records.flatMap fun i => [(i, .table), (i, .chain)]

def hazard (slot : Nat × HazardSlot) : Nat :=
  match slot.2 with
  | .table => (s.readers slot.1).tableHazard
  | .chain => (s.readers slot.1).chainHazard

def lock (call : Nat) (todo : List (Task Key Value)) : Option (Shard Key Value) :=
  match s.writer with
  | none => some { s with writer := some { call := call, todo := todo } }
  | some _ => none

def unlock : Option (Shard Key Value) :=
  match s.writer with
  | some { todo := [], .. } => some { s with writer := none }
  | _ => none

def proceed (w : Writer Key Value) (todo : List (Task Key Value)) : Shard Key Value :=
  { s with writer := some { w with todo := todo } }

/-- The chain of a change is looked up, cloned and changed, while no other call can change it. -/
def applyChange [DecidableEq Key] (choice : Nat → Nat) (w : Writer Key Value) (rest : List (Task Key Value))
    (change : Change Key Value) : Option (Shard Key Value) :=
  let buckets := (s.memory.object s.table).buckets
  match change with
  | .insertOrAssign hash key value => do
    let index := bucketIndex hash buckets.length
    let oldHead ← buckets[index]?
    let nodes := chainNodes s.memory oldHead
    let inserted := (findNodeInChain key hash nodes).isNone
    let (memory, newHead) ← allocateChain s.memory (choice 0)
      (if inserted then cloneChainWithPrepended key hash nodes value
       else cloneChainReplacingValue key hash nodes fun _ => value)
    return { s with memory := memory }.proceed { w with result := inserted }
      (.storeBucket s.table index newHead oldHead :: Task.counts (if inserted then 1 else 0) (.poll :: rest))
  | .upsert hash key value updater => do
    let index := bucketIndex hash buckets.length
    let oldHead ← buckets[index]?
    let nodes := chainNodes s.memory oldHead
    let inserted := (findNodeInChain key hash nodes).isNone
    let (memory, newHead) ← allocateChain s.memory (choice 0)
      (if inserted then cloneChainWithPrepended key hash nodes value
       else cloneChainReplacingValue key hash nodes fun current => updater current value)
    return { s with memory := memory }.proceed { w with result := inserted }
      (Task.counts (if inserted then 1 else 0) (.storeBucket s.table index newHead oldHead :: .poll :: rest))
  | .remove hash key =>
    if s.table = 0 then some (s.proceed { w with result := false } rest)
    else do
      let index := bucketIndex hash buckets.length
      let oldHead ← buckets[index]?
      let nodes := chainNodes s.memory oldHead
      if (findNodeInChain key hash nodes).isNone then some (s.proceed { w with result := false } rest)
      else do
        let (memory, newHead) ← allocateChain s.memory (choice 0) (cloneChainWithoutKey key hash nodes)
        return { s with memory := memory }.proceed { w with result := true }
          (.storeBucket s.table index newHead oldHead :: .count (-1) :: .poll :: rest)

/-- One task, up to its atomic access to what others can see. The holder of the lock may read and allocate before it,
    as nobody else writes what it reads. -/
def perform [DecidableEq Key] (policy : ReclamationPolicy) (choice : Nat → Nat) (w : Writer Key Value)
    (rest : List (Task Key Value)) : Task Key Value → Option (Shard Key Value)
  | .ensureShardCapacity desiredElements =>
    let buckets := tableBuckets s.memory s.table
    let newBucketCount := bucketCountForElements desiredElements
    if s.table ≠ 0 ∧ newBucketCount ≤ buckets.length then some (s.proceed w rest)
    else do
      let (memory, replacement) ← allocateTable s.memory choice
        (distribute newBucketCount (buckets.flatMap (chainNodes s.memory)))
      return { s with memory := memory }.proceed w (.publishTable replacement s.table 0 :: rest)
  | .publishTable replacement current counted =>
    some ({ s with table := replacement }.proceed w
      (.storeBucketCount (tableBuckets s.memory replacement).length ::
        Task.counts (-counted) (.retire current .table :: rest)))
  | .storeBucketCount bucketCount => some ({ s with bucketCount := bucketCount }.proceed w rest)
  | .applyChange change => s.applyChange choice w rest change
  | .storeBucket table index newHead oldHead =>
    let changed := (s.memory.object table).setBucket index newHead
    some ({ s with memory := s.memory.assign table changed }.proceed w (.retire oldHead .chain :: rest))
  | .retire object deleter =>
    if object = 0 then some (s.proceed w rest)
    else
      let retireEpoch := match policy with
        | .localEpoch => s.epoch
        | .hazardPointers => 0
      some ({ s with retired := ⟨object, deleter, retireEpoch⟩ :: s.retired }.proceed w rest)
  | .count difference => some ({ s with size := (s.size + difference).toNat }.proceed w rest)
  | .renew =>
    if s.table = 0 then some (s.proceed w rest)
    else do
      let (memory, replacement) ← allocateTable s.memory choice
        (List.replicate (tableBuckets s.memory s.table).length [])
      return { s with memory := memory }.proceed w (.publishTable replacement s.table s.size :: .poll :: rest)
  | .poll =>
    match policy with
    | .localEpoch => some ({ s with epoch := s.epoch + 1 }.proceed w (.minimumActiveEpoch :: rest))
    | .hazardPointers => some ({ s with retired := [] }.proceed w (.reclaimIf .unguarded s.retired [] :: rest))
  | .minimumActiveEpoch =>
    some ({ s with retired := [] }.proceed w (.reclaimIf (.below s.minimumActiveEpoch) s.retired [] :: rest))
  | .reclaimIf _ [] survivors => some ({ s with retired := survivors }.proceed w rest)
  | .reclaimIf criterion (record :: current) survivors =>
    match criterion with
    | .below minimum =>
      if record.retireEpoch < minimum then
        some (s.proceed w (.destroy record 0 :: .reclaimIf criterion current survivors :: rest))
      else some (s.proceed w (.reclaimIf criterion current (record :: survivors) :: rest))
    | .unguarded => some (s.proceed w (.isHazard record s.hazardSlots current survivors :: rest))
    | .everything => some (s.proceed w (.destroy record 0 :: .reclaimIf criterion current survivors :: rest))
  | .isHazard record [] current survivors =>
    some (s.proceed w (.destroy record 0 :: .reclaimIf .unguarded current survivors :: rest))
  | .isHazard record (slot :: slots) current survivors =>
    if s.hazard slot = record.object then
      some (s.proceed w (.reclaimIf .unguarded current (record :: survivors) :: rest))
    else some (s.proceed w (.isHazard record slots current survivors :: rest))
  | .destroy record bucketIndex =>
    match record.deleter with
    | .chain => some ({ s with memory := s.memory.destroy record.object }.proceed w rest)
    | .table =>
      match (s.memory.object record.object).buckets[bucketIndex]? with
      | some head =>
        let memory := if head = 0 then s.memory else s.memory.destroy head
        some ({ s with memory := memory }.proceed w (.destroy record (bucketIndex + 1) :: rest))
      | none => some ({ s with memory := s.memory.destroy record.object }.proceed w rest)
  | .awaitReaders =>
    if s.records = [] then
      some ({ s with retired := [] }.proceed w (.reclaimIf .everything s.retired [] :: rest))
    else some s

def write [DecidableEq Key] (policy : ReclamationPolicy) (choice : Nat → Nat) : Option (Shard Key Value) :=
  match s.writer with
  | some w =>
    match w.todo with
    | task :: rest => s.perform policy choice w rest task
    | [] => none
  | none => none

end Shard

end NginBase.Containers.ConcurrentHashMap
