import NginBase.Containers.ConcurrentHashMap
import NginBase.Library.Interleaving

namespace NginBase.Containers.ConcurrentHashMap

open Library Library.Concurrent

/-! The map: its shards, and any number of calls that take their atomic steps in any order. -/

structure Parameters (Key : Type) where
  hash : Key → Nat
  policy : ReclamationPolicy
  shardCount : Nat
  shardCount_pos : 0 < shardCount

inductive Operation (Key Value : Type)
  | insert (key : Key) (value : Value)
  | insertOrAssign (key : Key) (value : Value)
  | upsert (key : Key) (value : Value) (updater : Value → Value → Value)
  | remove (key : Key)
  | contains (key : Key)
  | tryGet (key : Key)
  | getOptional (key : Key)
  | reserve (desiredCapacity : Nat)
  | clear
  | forEach
  | quiesce

inductive Result (Value : Type)
  | flag (value : Bool)
  | value (value : Option Value)
  | none

section

variable {Key Value : Type} (parameters : Parameters Key)

def isPowerOfTwoShardCount (value : Nat) : Bool := value != 0 && value &&& (value - 1) == 0

def shardIndex (hash : Nat) : Nat :=
  if isPowerOfTwoShardCount parameters.shardCount then hash &&& (parameters.shardCount - 1)
  else hash % parameters.shardCount

def perShardCapacity (desiredCapacity : Nat) : Nat :=
  ceilDivide (max desiredCapacity parameters.shardCount) parameters.shardCount

namespace Operation

def key? : Operation Key Value → Option Key
  | insert key _ => some key
  | insertOrAssign key _ => some key
  | upsert key _ _ => some key
  | remove key => some key
  | contains key => some key
  | tryGet key => some key
  | getOptional key => some key
  | reserve _ => none
  | clear => none
  | forEach => none
  | quiesce => none

def firstShard (op : Operation Key Value) : Nat :=
  match op.key? with
  | some key => shardIndex parameters (parameters.hash key)
  | none => 0

def nextShard (op : Operation Key Value) (shard : Nat) : Option Nat :=
  match op.key? with
  | some _ => none
  | none => if shard + 1 < parameters.shardCount then some (shard + 1) else none

def goal : Operation Key Value → Option (Goal Key)
  | contains key => some (.lookup (parameters.hash key) key)
  | tryGet key => some (.lookup (parameters.hash key) key)
  | getOptional key => some (.lookup (parameters.hash key) key)
  | forEach => some .forEach
  | _ => none

def tasks (op : Operation Key Value) (size : Nat) : List (Task Key Value) :=
  match op with
  | insert key value => [.ensureShardCapacity (size + 1), .applyChange (.insertOrAssign (parameters.hash key) key value)]
  | insertOrAssign key value =>
    [.ensureShardCapacity (size + 1), .applyChange (.insertOrAssign (parameters.hash key) key value)]
  | upsert key value updater =>
    [.ensureShardCapacity (size + 1), .applyChange (.upsert (parameters.hash key) key value updater)]
  | remove key => [.applyChange (.remove (parameters.hash key) key)]
  | reserve desiredCapacity => [.ensureShardCapacity (perShardCapacity parameters desiredCapacity), .poll]
  | clear => [.renew]
  | quiesce => [.awaitReaders]
  | _ => []

def readResult (op : Operation Key Value) (seen : List (Node Key Value)) : Result Value :=
  match op with
  | contains _ => .flag seen.head?.isSome
  | tryGet _ => .value (seen.head?.map Node.value)
  | getOptional _ => .value (seen.head?.map Node.value)
  | _ => .none

def writeResult (op : Operation Key Value) (result : Bool) : Result Value :=
  match op with
  | insert .. => .flag result
  | insertOrAssign .. => .flag result
  | upsert .. => .flag result
  | remove _ => .flag result
  | _ => .none

end Operation

end

inductive Stage
  | waiting (shard : Nat)
  | visiting (shard : Nat)
  | returned

structure Call (Key Value : Type) where
  operation : Operation Key Value
  stage : Stage

/-- `size` is `m_size`, which counts the keys of all shards. -/
structure Map (Key Value : Type) where
  shards : Nat → Shard Key Value
  size : Int := 0
  calls : List (Call Key Value) := []
  history : List (Event (Operation Key Value) (Result Value)) := []

/-- What moves the map: a call is made, or a call takes its next step. The allocator chooses the addresses. -/
inductive Action (Key Value : Type)
  | invoke (operation : Operation Key Value)
  | advance (call : Nat) (choice : Nat → Nat)

namespace Shard

variable {Key Value : Type}

def initial (bucketCount : Nat) : Shard Key Value where
  memory :=
    { object := fun _ => .table (List.replicate bucketCount 0)
      serial := fun _ => 0
      live := fun a => a = 1
      allocations := 1
      destroyed := [] }
  table := 1
  bucketCount := bucketCount

def counted (s : Shard Key Value) : Int :=
  match s.todo with
  | .count difference :: _ => difference
  | _ => 0

end Shard

namespace Map

variable {Key Value : Type} (parameters : Parameters Key) (m : Map Key Value)

def initial (initialCapacity : Nat) : Map Key Value where
  shards _ := .initial (bucketCountForElements (perShardCapacity parameters initialCapacity))

def setShard (x : Nat) (s : Shard Key Value) : Map Key Value := { m with shards := Function.update m.shards x s }

def setStage (i : Nat) (operation : Operation Key Value) (stage : Stage) : Map Key Value :=
  { m with calls := m.calls.set i ⟨operation, stage⟩ }

def invoke (operation : Operation Key Value) : Map Key Value :=
  { m with
    calls := m.calls ++ [⟨operation, .waiting (operation.firstShard parameters)⟩]
    history := m.history ++ [.invoke m.calls.length operation] }

def depart (i x : Nat) (operation : Operation Key Value) (result : Result Value) : Map Key Value :=
  match operation.nextShard parameters x with
  | some next => m.setStage i operation (.waiting next)
  | none => { m.setStage i operation .returned with history := m.history ++ [.respond i result] }

def advanceReader [DecidableEq Key] (i x : Nat) (operation : Operation Key Value) : Option (Map Key Value) :=
  let s := m.shards x
  match (s.readers i).phase with
  | .finished => do
    let left ← s.leave i
    return (m.setShard x left).depart parameters i x operation (operation.readResult (s.readers i).seen)
  | _ => do
    let moved ← s.read parameters.policy i
    return m.setShard x moved

def advanceWriter [DecidableEq Key] (i x : Nat) (choice : Nat → Nat) (operation : Operation Key Value) :
    Option (Map Key Value) := do
  let s := m.shards x
  let w ← s.writer
  if w.call ≠ i then none
  else
    match w.todo with
    | [] =>
      let unlocked ← s.unlock
      return (m.setShard x unlocked).depart parameters i x operation (operation.writeResult w.result)
    | _ =>
      let moved ← s.write parameters.policy choice
      return { m.setShard x moved with size := m.size + s.counted }

def advance [DecidableEq Key] (i : Nat) (choice : Nat → Nat) : Option (Map Key Value) := do
  let call ← m.calls[i]?
  match call.stage, call.operation.goal parameters with
  | .waiting x, some goal =>
    let entered ← (m.shards x).enter i goal
    return (m.setShard x entered).setStage i call.operation (.visiting x)
  | .waiting x, none =>
    let s := m.shards x
    let locked ← s.lock i (call.operation.tasks parameters s.size)
    return (m.setShard x locked).setStage i call.operation (.visiting x)
  | .visiting x, some _ => m.advanceReader parameters i x call.operation
  | .visiting x, none => m.advanceWriter parameters i x choice call.operation
  | .returned, _ => none

def act [DecidableEq Key] : Action Key Value → Option (Map Key Value)
  | .invoke operation => some (m.invoke parameters operation)
  | .advance i choice => m.advance parameters i choice

def run [DecidableEq Key] (m : Map Key Value) : List (Action Key Value) → Option (Map Key Value)
  | [] => some m
  | action :: actions => do
    let next ← m.act parameters action
    run next actions

end Map

end NginBase.Containers.ConcurrentHashMap
