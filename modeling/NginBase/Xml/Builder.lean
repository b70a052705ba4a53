import NginBase.Library.Command
import NginBase.Library.Search
import NginBase.Xml.Types

namespace NginBase.Xml

open Library

/-! The builder: nodes are made one by one, and an element takes over nodes that have no parent. -/

inductive BuildErrorCode
  | invalidHandle
  | invalidName
  | invalidContent
  | nodeLimitExceeded
  | memberLimitExceeded
  | memoryLimitExceeded
  | outOfMemory
  | alreadyFinished

structure BuildDiagnostic where
  code : BuildErrorCode := .invalidHandle
  message : String := ""

structure Attribute where
  name : Bytes := []
  value : Bytes := []

/-- What allocators and containers answer, by the number of earlier requests: whether a request is
    granted, and the bytes `MemoryCommitted` then reports. -/
structure BuildResources where
  grants : Nat → Bool
  committed : Nat → Nat

/-- The document under construction, and for every node whether it has a parent. -/
structure BuilderState where
  decoded : List Bytes := []
  nodes : List NodeRecord := []
  elements : List ElementRecord := []
  attributes : List AttributeRecord := []
  childCount : Nat := 0
  attached : List Bool := []
  requests : Nat := 0

abbrev Builder := Option BuilderState

/-- The document that `Finish` hands over. -/
structure BuiltDocument where
  tables : BuilderState
  root : NodeId

namespace BuilderState

abbrev Step (α : Type) := Command BuildDiagnostic BuilderState α

variable (limits : ParseLimits) (resources : BuildResources)

def request : Step Bool := fun s => (.ok (resources.grants s.requests), { s with requests := s.requests + 1 })

/-- `Copy`: the arena's copy of a text and its entry among the decoded texts, none when either is
    refused. -/
def copy (value : Bytes) : Step (Option TextRef) := do
  if value = [] then return some {}
  else
    let granted ← request resources
    if granted = false then return none
    else
      let s ← .get
      if 2 ^ 32 - 1 < value.length ∨ decodedBit ≤ s.decoded.length then return none
      else
        let granted ← request resources
        if granted = false then return none
        else
          .modify fun s => { s with decoded := s.decoded ++ [value] }
          return some ⟨decodedBit + s.decoded.length, value.length⟩

def add (node : NodeRecord) : Step NodeId := do
  let s ← .get
  if limits.maxNodes ≤ s.nodes.length ∨ 2 ^ 32 - 1 ≤ s.nodes.length then
    .fail ⟨.nodeLimitExceeded, "XML builder node limit exceeded"⟩
  else
    let granted ← request resources
    if granted = false then .fail ⟨.outOfMemory, "XML builder node allocation failed"⟩
    else
      .modify fun s => { s with nodes := s.nodes ++ [node] }
      let granted ← request resources
      if granted = false then
        .modify fun s => { s with nodes := s.nodes.dropLast }
        .fail ⟨.outOfMemory, "XML builder node allocation failed"⟩
      else
        .modify fun s => { s with attached := s.attached ++ [false] }
        let s ← .get
        return s.nodes.length - 1

def leaf (kind : NodeKind) (value : Bytes) (refused : String) : Step NodeId := do
  let text ← copy resources value
  match text with
  | none => .fail ⟨.outOfMemory, refused⟩
  | some text => add limits resources { kind, text }

def text (value : Bytes) : Step NodeId := do
  if isXmlText value = false then .fail ⟨.invalidContent, "XML text contains an invalid character"⟩
  else leaf limits resources .text value "XML text allocation failed"

def cdata (value : Bytes) : Step NodeId := do
  if isXmlText value = false then .fail ⟨.invalidContent, "XML CDATA contains an invalid character"⟩
  else leaf limits resources .cdata value "XML CDATA allocation failed"

def comment (value : Bytes) : Step NodeId := leaf limits resources .comment value "XML comment allocation failed"

def processingInstruction (target value : Bytes) : Step NodeId := do
  let targetCopy ← copy resources target
  let valueCopy ← copy resources value
  match targetCopy, valueCopy with
  | some name, some text => add limits resources { kind := .processingInstruction, name, text }
  | _, _ => .fail ⟨.outOfMemory, "XML processing instruction allocation failed"⟩

def checkAttributes : List Attribute → Step Unit
  | [] => return
  | entry :: rest =>
    if isName entry.name = false then .fail ⟨.invalidName, "XML attribute name is invalid"⟩
    else if isXmlText entry.value = false then
      .fail ⟨.invalidContent, "XML attribute value contains an invalid character"⟩
    else if ∃ other ∈ rest, entry.name = other.name then
      .fail ⟨.invalidContent, "XML element has duplicate attributes"⟩
    else checkAttributes rest

def checkChildren : List NodeId → List NodeId → Step Unit
  | _, [] => return
  | earlier, child :: rest => do
    let s ← .get
    if nodeAt s.nodes child = none then .fail ⟨.invalidHandle, "XML element contains an invalid child handle"⟩
    else if s.attached[child]? ≠ some false then .fail ⟨.invalidHandle, "XML child already belongs to an element"⟩
    else if child ∈ earlier then .fail ⟨.invalidHandle, "XML element contains a duplicate child handle"⟩
    else checkChildren (earlier ++ [child]) rest

def storeAttributes : List Attribute → Step Unit
  | [] => return
  | entry :: rest => do
    let key ← copy resources entry.name
    let value ← copy resources entry.value
    match key, value with
    | some name, some value =>
      .modify fun s => { s with attributes := s.attributes ++ [{ name, value }] }
      storeAttributes rest
    | _, _ => .fail ⟨.outOfMemory, "XML attribute allocation failed"⟩

/-- The part of `Element` under `try`, up to the record of the element. -/
def storeElement (name : Bytes) (attributes : List Attribute) (children : List NodeId) : Step Unit := do
  let s ← .get
  let attributeBegin := s.attributes.length
  -- `reserve`, so that no `push_back` of an attribute can throw
  let granted ← request resources
  if granted = false then .fail ⟨.outOfMemory, "XML element allocation failed"⟩
  else
    storeAttributes resources attributes
    let elementName ← copy resources name
    match elementName with
    | none => .fail ⟨.outOfMemory, "XML element name allocation failed"⟩
    | some name =>
      let granted ← request resources
      if granted = false then .fail ⟨.outOfMemory, "XML element allocation failed"⟩
      else
        .modify fun s => { s with elements := s.elements ++
          [{ name, attributes := ⟨attributeBegin, attributes.length⟩,
             children := ⟨children.headD sentinel, children.length⟩ }] }

/-- The last loop of `Element`: every child points to the next one and is marked. -/
def linkChildren : List NodeId → BuilderState → BuilderState
  | [], s => s
  | child :: rest, s =>
    linkChildren rest
      { s with
        nodes := s.nodes.modify child fun node => { node with nextSibling := rest.headD sentinel }
        attached := s.attached.set child true }

def element (name : Bytes) (attributes : List Attribute) (children : List NodeId) : Step NodeId := do
  let s ← .get
  let maxIndex := 2 ^ 32 - 1
  if limits.maxMembers < s.attributes.length ∨ limits.maxMembers - s.attributes.length < attributes.length ∨
      limits.maxMembers < s.childCount ∨ limits.maxMembers - s.childCount < children.length ∨
      maxIndex < attributes.length ∨ maxIndex < children.length ∨
      maxIndex - attributes.length < s.attributes.length ∨ maxIndex ≤ s.elements.length then
    .fail ⟨.memberLimitExceeded, "XML builder mem limit exceeded"⟩
  else
    checkAttributes attributes
    checkChildren [] children
    let attributeBegin := s.attributes.length
    let elementIndex := s.elements.length
    (storeElement resources name attributes children).onFailure fun s =>
      { s with attributes := s.attributes.take attributeBegin }
    let id ← (add limits resources { kind := .element, name := ⟨elementIndex, 0⟩ }).onFailure fun s =>
      { s with elements := s.elements.dropLast, attributes := s.attributes.take attributeBegin }
    .modify (linkChildren children)
    .modify fun s => { s with childCount := s.childCount + children.length }
    return id

def finish (root : NodeId) : Step BuiltDocument := do
  let s ← .get
  match nodeAt s.nodes root with
  | none => .fail ⟨.invalidHandle, "XML document root must be an element"⟩
  | some node =>
    if node.kind ≠ .element then .fail ⟨.invalidHandle, "XML document root must be an element"⟩
    else if s.attached[root]? ≠ some false then
      .fail ⟨.invalidHandle, "XML document root already belongs to an element"⟩
    else if limits.maxTotalMemoryBytes < resources.committed s.requests then
      .fail ⟨.memoryLimitExceeded, "XML builder memory limit exceeded"⟩
    else return ⟨s, root⟩

end BuilderState

namespace Builder

variable (limits : ParseLimits) (resources : BuildResources)

inductive Call
  | text (value : Bytes)
  | cdata (value : Bytes)
  | comment (value : Bytes)
  | processingInstruction (target value : Bytes)
  | element (name : Bytes) (attributes : List Attribute) (children : List NodeId)

def step : Call → BuilderState.Step NodeId
  | .text value => BuilderState.text limits resources value
  | .cdata value => BuilderState.cdata limits resources value
  | .comment value => BuilderState.comment limits resources value
  | .processingInstruction target value => BuilderState.processingInstruction limits resources target value
  | .element name attributes children => BuilderState.element limits resources name attributes children

def alreadyFinished : BuildDiagnostic := ⟨.alreadyFinished, "XML builder has already been finished"⟩

def refusal : Call → Option BuildDiagnostic
  | .comment value =>
    if isXmlText value = false ∨ (find [0x2D, 0x2D] value).isSome ∨ value.getLast? = some 0x2D then
      some ⟨.invalidContent, "XML comment content is invalid"⟩
    else none
  | .processingInstruction target value =>
    if isName target = false ∨ isXmlText value = false ∨ reservedXml target ∨ (find [0x3F, 0x3E] value).isSome then
      some ⟨.invalidContent, "XML processing instruction target or content is invalid"⟩
    else none
  | .element name _ _ => if isName name = false then some ⟨.invalidName, "XML element name is invalid"⟩ else none
  | _ => none

def make (call : Call) : Command BuildDiagnostic Builder NodeId := fun builder =>
  match refusal call, builder with
  | some e, builder => (.error e, builder)
  | none, none => (.error alreadyFinished, none)
  | none, some s => ((step limits resources call s).1, some (step limits resources call s).2)

/-- `Finish`, which hands the state over when it succeeds. -/
def finish (root : NodeId) : Command BuildDiagnostic Builder BuiltDocument := fun builder =>
  match builder with
  | none => (.error alreadyFinished, none)
  | some s =>
    match BuilderState.finish limits resources root s with
    | (.ok doc, _) => (.ok doc, none)
    | (.error e, s') => (.error e, some s')

def passed : Call → Except BuildDiagnostic NodeId → List (List NodeId)
  | .element _ _ children, .ok _ => [children]
  | _, _ => []

/-- The builders that calls lead to, whatever the calls answer, with the child lists of the elements
    made on the way. -/
inductive Reachable : Builder → List (List NodeId) → Prop
  | fresh : Reachable (some {}) []
  | made {builder : Builder} {lists : List (List NodeId)} (earlier : Reachable builder lists) (call : Call) :
    Reachable (make limits resources call builder).2 (lists ++ passed call (make limits resources call builder).1)
  | finished {builder : Builder} {lists : List (List NodeId)} (earlier : Reachable builder lists) (root : NodeId) :
    Reachable (finish limits resources root builder).2 lists

end Builder

end NginBase.Xml
