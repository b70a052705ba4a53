import NginBase.Json.Reader

namespace NginBase.Json

/-! The document parser: recursive descent into flat tables of nodes, elements and members. -/

abbrev NodeId := Nat

structure NodeRange where
  first : Nat := 0
  count : Nat := 0

/-- The kind of a node with the payload that kind uses; `plain` holds no string. -/
inductive NodePayload
  | plain (value : Scalar)
  | string (ref : StringRef)
  | array (range : NodeRange)
  | object (range : NodeRange)

structure NodeRecord where
  payload : NodePayload
  span : SourceSpan

structure MemberRecord where
  key : StringRef
  value : NodeId
  span : SourceSpan

/-- A parsed document: its tables, the memory its strings point into and the root node. -/
structure Document where
  memory : Memory
  nodes : List NodeRecord
  elements : List NodeId
  members : List MemberRecord
  root : NodeId

structure ParseContext where
  reader : Reader
  depth : Nat := 0
  nodes : List NodeRecord := []
  elements : List NodeId := []
  members : List MemberRecord := []

namespace ParseContext

variable (setup : Setup)

def nodeSpan (ctx : ParseContext) (id : NodeId) : SourceSpan :=
  match ctx.nodes[id]? with
  | some node => node.span
  | none => {}

def lex {α : Type} (ctx : ParseContext) (read : Cursor → Except Failure (α × Cursor)) :
    Except Failure (α × ParseContext) := do
  let (a, reader) ← ctx.reader.lex read
  return (a, { ctx with reader })

def parseString (ctx : ParseContext) : Except Failure (ParsedString × ParseContext) := do
  let (string, reader) ← ctx.reader.parseString setup "JSON string allocation failed"
  return (string, { ctx with reader })

/-- A container growing by `push_back` or `insert`; `error` is made when `std::bad_alloc` is caught. -/
def grow (ctx : ParseContext) (error : Failure) : Except Failure ParseContext :=
  let (granted, reader) := ctx.reader.request setup
  if granted then .ok { ctx with reader } else .error error

def errorAt (ctx : ParseContext) (code : ParseErrorCode) (message : String) (span : SourceSpan) : Failure :=
  ctx.reader.errorAt setup code message span.first span.last

def addNode (ctx : ParseContext) (node : NodeRecord) : Except Failure (NodeId × ParseContext) := do
  if setup.limits.maxNodes ≤ ctx.nodes.length ∨ 2 ^ 32 - 1 ≤ ctx.nodes.length then
    throw (ctx.errorAt setup .limitExceeded "JSON node limit exceeded" node.span)
  else
    let ctx ← ctx.grow setup (ctx.errorAt setup .outOfMemory "JSON node allocation failed" node.span)
    if setup.limits.maxTotalMemoryBytes < setup.resources.committed ctx.reader.requests then
      throw (ctx.errorAt setup .limitExceeded "JSON memory limit exceeded" node.span)
    else return (ctx.nodes.length, { ctx with nodes := ctx.nodes ++ [node] })

def pass (ctx : ParseContext) (depth : Nat) : ParseContext :=
  { ctx with depth, reader := { ctx.reader with offset := ctx.reader.offset + 1 } }

section

variable (parseValue : ParseContext → Except Failure (NodeId × ParseContext))

/-- The loop of `ParseArray`, which leaves the cursor on the closing bracket. -/
def arrayLoop : Nat → ParseContext → List NodeId → Except Failure (List NodeId × ParseContext)
  | 0, _, _ => .error .fuel
  | fuel + 1, ctx, values => do
    let (value, ctx) ← parseValue ctx
    let ctx ← ctx.grow setup (ctx.reader.errorHere setup .outOfMemory "JSON array allocation failed")
    let values := values ++ [value]
    let (closed, ctx) ← ctx.lex
      (Cursor.separator setup.toProfile 0x5D "Expected ',' or ']' in JSON array" "Trailing comma in JSON array")
    if closed then return (values, ctx) else arrayLoop fuel ctx values

def arrayValues (ctx : ParseContext) : Except Failure (List NodeId × ParseContext) :=
  if peekByte ctx.reader.cursor.rest = 0x5D then .ok ([], ctx)
  else arrayLoop setup parseValue (ctx.reader.cursor.rest.length + 1) ctx []

/-- The end of `ParseArray`: store the range of elements and its node. -/
def storeArray (ctx : ParseContext) (start : Nat) (values : List NodeId) : Except Failure (NodeId × ParseContext) := do
  let span : SourceSpan := ⟨setup.source, start, ctx.reader.offset⟩
  if setup.limits.maxMembers < ctx.elements.length ∨
      setup.limits.maxMembers - ctx.elements.length < values.length then
    throw (ctx.errorAt setup .limitExceeded "JSON array element limit exceeded" span)
  else
    let first := ctx.elements.length
    let ctx ← ctx.grow setup (ctx.errorAt setup .outOfMemory "JSON array storage allocation failed" span)
    addNode setup { ctx with elements := ctx.elements ++ values } ⟨.array ⟨first, values.length⟩, span⟩

def parseArray (ctx : ParseContext) : Except Failure (NodeId × ParseContext) := do
  if setup.limits.maxDepth ≤ ctx.depth then
    throw (ctx.reader.errorHere setup .depthExceeded "JSON depth limit exceeded")
  else
    let start := ctx.reader.offset
    let (_, ctx) ← (ctx.pass (ctx.depth + 1)).lex (Cursor.skipTrivia setup.toProfile)
    let (values, ctx) ← arrayValues setup parseValue ctx
    storeArray setup (ctx.pass (ctx.depth - 1)) start values

/-- What `ParseObject` does with a parsed member, by the policy for duplicate keys. -/
def placeMember (ctx : ParseContext) (members : List MemberRecord) (member : MemberRecord)
    (keySpan : SourceSpan) : Except Failure (List MemberRecord × ParseContext) := do
  let append := do
    let ctx ← ctx.grow setup (ctx.reader.errorHere setup .outOfMemory "JSON object allocation failed")
    return (members ++ [member], ctx)
  match members.findIdx? fun earlier => ctx.reader.memory.view earlier.key = ctx.reader.memory.view member.key with
  | none => append
  | some duplicate =>
    match setup.options.duplicateKeys with
    | .reject =>
      throw (.diagnostic
        { makeErrorAt setup.source ctx.reader.memory.source .duplicateName "Duplicate JSON object key"
            keySpan.first keySpan.last with
          related := members[duplicate]?.map (·.span) })
    | .keepFirst => return (members, ctx)
    | .keepLast => return (members.set duplicate member, ctx)
    | .preserve => append

/-- The loop of `ParseObject`, which leaves the cursor on the closing brace. -/
def objectLoop : Nat → ParseContext → List MemberRecord → Except Failure (List MemberRecord × ParseContext)
  | 0, _, _ => .error .fuel
  | fuel + 1, ctx, members => do
    let (key, ctx) ← ctx.parseString setup
    let (_, ctx) ← ctx.lex (Cursor.colon setup.toProfile "Expected ':' after JSON key")
    let (_, ctx) ← ctx.lex (Cursor.skipTrivia setup.toProfile)
    let (value, ctx) ← parseValue ctx
    let member : MemberRecord :=
      ⟨key.value, value, ⟨setup.source, key.span.first, (ctx.nodeSpan value).last⟩⟩
    let (members, ctx) ← placeMember setup ctx members member key.span
    let (closed, ctx) ← ctx.lex
      (Cursor.separator setup.toProfile 0x7D "Expected ',' or '\x7d' in JSON object" "Trailing comma in JSON object")
    if closed then return (members, ctx) else objectLoop fuel ctx members

def objectMembers (ctx : ParseContext) : Except Failure (List MemberRecord × ParseContext) :=
  if peekByte ctx.reader.cursor.rest = 0x7D then .ok ([], ctx)
  else objectLoop setup parseValue (ctx.reader.cursor.rest.length + 1) ctx []

/-- The end of `ParseObject`: store the range of members and its node. -/
def storeObject (ctx : ParseContext) (start : Nat) (members : List MemberRecord) :
    Except Failure (NodeId × ParseContext) := do
  let span : SourceSpan := ⟨setup.source, start, ctx.reader.offset⟩
  if setup.limits.maxMembers < ctx.members.length ∨
      setup.limits.maxMembers - ctx.members.length < members.length then
    throw (ctx.errorAt setup .limitExceeded "JSON object member limit exceeded" span)
  else
    let first := ctx.members.length
    let ctx ← ctx.grow setup (ctx.errorAt setup .outOfMemory "JSON object storage allocation failed" span)
    addNode setup { ctx with members := ctx.members ++ members } ⟨.object ⟨first, members.length⟩, span⟩

def parseObject (ctx : ParseContext) : Except Failure (NodeId × ParseContext) := do
  if setup.limits.maxDepth ≤ ctx.depth then
    throw (ctx.reader.errorHere setup .depthExceeded "JSON depth limit exceeded")
  else
    let start := ctx.reader.offset
    let (_, ctx) ← (ctx.pass (ctx.depth + 1)).lex (Cursor.skipTrivia setup.toProfile)
    let (members, ctx) ← objectMembers setup parseValue ctx
    storeObject setup (ctx.pass (ctx.depth - 1)) start members

end

def parseValue : Nat → ParseContext → Except Failure (NodeId × ParseContext)
  | 0, _ => .error .fuel
  | fuel + 1, ctx => do
    let (_, ctx) ← ctx.lex (Cursor.skipTrivia setup.toProfile)
    let token := peekByte ctx.reader.cursor.rest
    if token = 0x7B then parseObject setup (parseValue fuel) ctx
    else if token = 0x5B then parseArray setup (parseValue fuel) ctx
    else if token = 0x22 then
      let (string, ctx) ← ctx.parseString setup
      ctx.addNode setup ⟨.string string.value, string.span⟩
    else
      let ((value, span), ctx) ← ctx.lex (Cursor.readScalar setup.toProfile)
      ctx.addNode setup ⟨.plain value, span⟩

def document (ctx : ParseContext) (root : NodeId) : Document :=
  ⟨ctx.reader.memory, ctx.nodes, ctx.elements, ctx.members, root⟩

end ParseContext

/-- `ParseState`; `refused` is the error made from a `std::bad_alloc` that escapes it. -/
def parseState (setup : Setup) (refused : Failure) (memory : Memory) (requests : Nat) :
    Except Failure Document := do
  let source := memory.source
  let errorAt code message := Failure.diagnostic (makeErrorAt setup.source source code message 0 source.length)
  if setup.limits.maxInputBytes < source.length then throw (errorAt .limitExceeded "JSON input byte limit exceeded")
  else if setup.options.utf8 = .validate ∧ Unicode.isValidUtf8 source = false then
    throw (errorAt .invalidEncoding "JSON input is not valid UTF-8")
  else
    let ctx : ParseContext := { reader := { memory, requests } }
    let (root, ctx) ← ctx.parseValue setup (source.length + 1)
    let (_, ctx) ← ctx.lex (Cursor.skipTrivia setup.toProfile)
    if ctx.reader.cursor.rest ≠ [] then
      throw (ctx.reader.errorHere setup .trailingCharacters "Trailing characters after JSON value")
    else
      -- `FinalizeViews` reserves one view for every node
      let ctx ← ctx.grow setup refused
      if setup.limits.maxTotalMemoryBytes < setup.resources.committed ctx.reader.requests then
        throw (ctx.reader.errorAt setup .limitExceeded "JSON total memory limit exceeded" 0 source.length)
      else return ctx.document root

/-- The three entry points: they differ in who owns the text and in the message of a failure to
    allocate the document itself. -/
def parseWith (setup : Setup) (message : String) (memory : Memory) : Except Failure Document :=
  let refused := Failure.diagnostic { code := .outOfMemory, message }
  if setup.resources.grants 0 then parseState setup refused memory 1 else .error refused

namespace Parser

def parse (setup : Setup) (input : Bytes) : Except Failure Document :=
  parseWith { setup with ownership := .owned } "Failed to allocate JSON document" { source := input }

def parseInSitu (setup : Setup) (input : Bytes) : Except Failure Document :=
  parseWith { setup with ownership := .inSitu } "Failed to allocate in-situ JSON document" { source := input }

/-- The scratch storage is reset and given room for the whole input before the parse. -/
def parseBorrowed (setup : Setup) (scratch : ParseScratch) (input : Bytes) : Except Failure Document :=
  parseWith { setup with ownership := .borrowed } "Failed to allocate borrowed JSON document"
    { source := input, scratch := scratch.reset.reserve input.length }

end Parser

def Document.present (doc : Document) (child : NodeId → SpannedValue) (node : NodeRecord) : SpannedValue :=
  match node.payload with
  | .plain value => .scalar node.span value
  | .string ref => .scalar node.span (.string (doc.memory.view ref))
  | .array range => .array node.span (((doc.elements.drop range.first).take range.count).map child)
  | .object range =>
    .object node.span (((doc.members.drop range.first).take range.count).map fun member =>
      (doc.memory.view member.key, member.span, child member.value))

/-- The tree that the views of a document present. Children have smaller ids than their parent, so
    as many levels as there are nodes are enough. -/
def Document.treeAt (doc : Document) : Nat → NodeId → SpannedValue
  | 0, _ => .scalar {} .null
  | fuel + 1, id =>
    match doc.nodes[id]? with
    | none => .scalar {} .null
    | some node => doc.present (doc.treeAt fuel) node

def Document.tree (doc : Document) : SpannedValue := doc.treeAt doc.nodes.length doc.root

end NginBase.Json
