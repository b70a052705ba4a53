import NginBase.Json.Parser
import NginBase.Library.Command

namespace NginBase.Json

open Library

/-! The builder: documents made node by node, with handles that may be shared. -/

inductive BuildErrorCode
  | invalidHandle
  | invalidString
  | duplicateKey
  | nodeLimitExceeded
  | memberLimitExceeded
  | memoryLimitExceeded
  | outOfMemory
  | alreadyFinished

structure BuildDiagnostic where
  code : BuildErrorCode := .invalidHandle
  message : String := ""

structure ObjectMember where
  key : Bytes := []
  value : NodeId

structure BuilderState where
  arena : Bytes := []
  nodes : List NodeRecord := []
  elements : List NodeId := []
  members : List MemberRecord := []
  requests : Nat := 0

abbrev Builder := Option BuilderState

namespace BuilderState

abbrev Step (α : Type) := Command BuildDiagnostic BuilderState α

def memory (s : BuilderState) : Memory := { source := [], arena := s.arena }

/-- `DocumentState::Node(id)`: the last identifier is reserved. -/
def Valid (s : BuilderState) (id : NodeId) : Prop := id ≠ 2 ^ 32 - 1 ∧ id < s.nodes.length

instance (s : BuilderState) (id : NodeId) : Decidable (s.Valid id) := inferInstanceAs (Decidable (_ ∧ _))

variable (limits : ParseLimits) (resources : Resources)

def request : Step Bool := fun s => (.ok (resources.grants s.requests), { s with requests := s.requests + 1 })

def add (payload : NodePayload) : Step NodeId := do
  let s ← .get
  if limits.maxNodes ≤ s.nodes.length ∨ 2 ^ 32 - 1 ≤ s.nodes.length then
    .fail ⟨.nodeLimitExceeded, "JSON builder node limit exceeded"⟩
  else
    let granted ← request resources
    if granted = false then .fail ⟨.outOfMemory, "JSON builder node allocation failed"⟩
    else
      .modify fun s => { s with nodes := s.nodes ++ [⟨payload, {}⟩] }
      let s ← .get
      if limits.maxTotalMemoryBytes < resources.committed s.requests then
        .modify fun s => { s with nodes := s.nodes.dropLast }
        .fail ⟨.memoryLimitExceeded, "JSON builder memory limit exceeded"⟩
      else return s.nodes.length - 1

/-- `SegmentedArena::CopyString`, with the message its callers make of a refusal. -/
def copyString (value : Bytes) (refused : String) : Step StringRef := do
  if value = [] then return { region := .arena }
  else
    let granted ← request resources
    if granted = false then .fail ⟨.outOfMemory, refused⟩
    else
      let s ← .get
      .modify fun s => { s with arena := s.arena ++ value }
      return ⟨.arena, s.arena.length, value.length⟩

def string (value : Bytes) : Step NodeId := do
  if limits.maxDecodedStringBytes < value.length then
    .fail ⟨.memoryLimitExceeded, "JSON string byte limit exceeded"⟩
  else if Unicode.isValidUtf8 value = false then .fail ⟨.invalidString, "JSON string is not valid UTF-8"⟩
  else
    let ref ← copyString resources value "JSON string allocation failed"
    add limits resources (.string ref)

def array (values : List NodeId) : Step NodeId := do
  let s ← .get
  if ¬ ∀ value ∈ values, s.Valid value then .fail ⟨.invalidHandle, "JSON array contains an invalid value handle"⟩
  else
    let first := s.elements.length
    let granted ← request resources
    if granted = false then .fail ⟨.outOfMemory, "JSON array allocation failed"⟩
    else
      .modify fun s => { s with elements := s.elements ++ values }
      (add limits resources (.array ⟨first, values.length⟩)).onFailure fun s =>
        { s with elements := s.elements.take first }

/-- The checks that `Object` makes of its keys, in the order it makes them. -/
def checkKeys : List ObjectMember → Step Unit
  | [] => return
  | member :: rest =>
    if Unicode.isValidUtf8 member.key = false then .fail ⟨.invalidString, "JSON object key is not valid UTF-8"⟩
    else if ∃ other ∈ rest, member.key = other.key then
      .fail ⟨.duplicateKey, "JSON builder object contains a duplicate key"⟩
    else checkKeys rest

def storeMembers : List ObjectMember → Step Unit
  | [] => return
  | member :: rest => do
    let s ← .get
    if ¬ s.Valid member.value then .fail ⟨.invalidHandle, "JSON object contains an invalid value handle"⟩
    else
      let key ← copyString resources member.key "JSON object key allocation failed"
      .modify fun s => { s with members := s.members ++ [⟨key, member.value, {}⟩] }
      storeMembers rest

def storeObject (first : Nat) (members : List ObjectMember) : Step NodeId := do
  -- `reserve`, so that no `push_back` below can throw
  let granted ← request resources
  if granted = false then .fail ⟨.outOfMemory, "JSON object allocation failed"⟩
  else
    storeMembers resources members
    add limits resources (.object ⟨first, members.length⟩)

def object (members : List ObjectMember) : Step NodeId := do
  let s ← .get
  if limits.maxMembers < s.members.length ∨ limits.maxMembers - s.members.length < members.length then
    .fail ⟨.memberLimitExceeded, "JSON builder member limit exceeded"⟩
  else
    let first := s.members.length
    checkKeys members
    (storeObject limits resources first members).onFailure fun s => { s with members := s.members.take first }

def finish (root : NodeId) : Step Document := do
  let s ← .get
  if ¬ s.Valid root then .fail ⟨.invalidHandle, "JSON builder root handle is invalid"⟩
  else
    let granted ← request resources
    if granted = false then .fail ⟨.outOfMemory, "JSON view allocation failed"⟩
    else
      let s ← .get
      if limits.maxTotalMemoryBytes < resources.committed s.requests then
        .fail ⟨.memoryLimitExceeded, "JSON builder memory limit exceeded"⟩
      else return ⟨s.memory, s.nodes, s.elements, s.members, root⟩

end BuilderState

namespace Builder

variable (limits : ParseLimits) (resources : Resources)

inductive Call
  | null
  | bool (value : Bool)
  | int (value : Int64)
  | uint (value : UInt64)
  | double (value : F64)
  | string (value : Bytes)
  | array (values : List NodeId)
  | object (members : List ObjectMember)

def step : Call → BuilderState.Step NodeId
  | .null => BuilderState.add limits resources (.plain .null)
  | .bool value => BuilderState.add limits resources (.plain (.bool value))
  | .int value => BuilderState.add limits resources (.plain (.int64 value))
  | .uint value => BuilderState.add limits resources (.plain (.uint64 value))
  | .double value => BuilderState.add limits resources (.plain (.double value))
  | .string value => BuilderState.string limits resources value
  | .array values => BuilderState.array limits resources values
  | .object members => BuilderState.object limits resources members

def alreadyFinished : BuildDiagnostic := ⟨.alreadyFinished, "JSON builder has already been finished"⟩

def refusal : Call → Option BuildDiagnostic
  | .double value => if value.isFinite = false then some ⟨.invalidHandle, "JSON numbers must be finite"⟩ else none
  | _ => none

def make (call : Call) : Command BuildDiagnostic Builder NodeId := fun builder =>
  match refusal call, builder with
  | some e, builder => (.error e, builder)
  | none, none => (.error alreadyFinished, none)
  | none, some s => ((step limits resources call s).1, some (step limits resources call s).2)

/-- `Finish`, which hands the state over when it succeeds. -/
def finish (root : NodeId) : Command BuildDiagnostic Builder Document := fun builder =>
  match builder with
  | none => (.error alreadyFinished, none)
  | some s =>
    match BuilderState.finish limits resources root s with
    | (.ok doc, _) => (.ok doc, none)
    | (.error e, s') => (.error e, some s')

/-- The builders that calls lead to, whatever the calls answer. -/
inductive Reachable : Builder → Prop
  | fresh : Reachable (some {})
  | made {builder : Builder} (earlier : Reachable builder) (call : Call) : Reachable (make limits resources call builder).2
  | finished {builder : Builder} (earlier : Reachable builder) (root : NodeId) :
    Reachable (finish limits resources root builder).2

end Builder

end NginBase.Json
