import NginBase.Json.Reader

namespace NginBase.Json

/-! The event parser: the same grammar, delivered to a handler instead of stored. -/

/-- The kind of an event with the payload that kind uses. -/
inductive EventData
  | null
  | bool (value : Bool)
  | int64 (value : Int64)
  | uint64 (value : UInt64)
  | double (value : F64)
  | string (text : Bytes)
  | startArray
  | endArray
  | startObject
  | key (text : Bytes)
  | endObject
  deriving DecidableEq

structure Event where
  data : EventData
  span : SourceSpan
  deriving DecidableEq

structure EventAction where
  continueParsing : Bool := true
  consumerContext : Nat := 0

abbrev EventHandler := List Event → Event → EventAction

structure SeenKey where
  value : StringRef
  span : SourceSpan

structure EventContext where
  reader : Reader
  depth : Nat := 0
  nodeCount : Nat := 0
  memberCount : Nat := 0
  events : List Event := []

def scalarEvent : Scalar → EventData
  | .null => .null
  | .bool value => .bool value
  | .int64 value => .int64 value
  | .uint64 value => .uint64 value
  | .double value => .double value
  | .string text => .string text

namespace EventContext

variable (setup : Setup) (handler : EventHandler)

def lex {α : Type} (ctx : EventContext) (read : Cursor → Except Failure (α × Cursor)) :
    Except Failure (α × EventContext) := do
  let (a, reader) ← ctx.reader.lex read
  return (a, { ctx with reader })

def parseString (ctx : EventContext) : Except Failure (ParsedString × EventContext) := do
  let (string, reader) ← ctx.reader.parseString setup "JSON event string allocation failed"
  return (string, { ctx with reader })

def deliver (ctx : EventContext) (event : Event) (emit : Bool) : Except Failure EventContext :=
  if emit = false then .ok ctx
  else
    let action := handler ctx.events event
    if action.continueParsing then .ok { ctx with events := ctx.events ++ [event] }
    else
      .error (.diagnostic
        { code := .handlerRejected, span := event.span, location := { offset := event.span.first },
          consumerContext := action.consumerContext, message := "JSON event handler stopped parsing" })

def beginValue (ctx : EventContext) : Except Failure EventContext :=
  if setup.limits.maxNodes ≤ ctx.nodeCount then
    .error (ctx.reader.errorHere setup .limitExceeded "JSON node limit exceeded")
  else .ok { ctx with nodeCount := ctx.nodeCount + 1 }

/-- The checks of `ParseArray` and `ParseObject` on the opening bracket, and its event. -/
def openContainer (ctx : EventContext) (data : EventData) (emit : Bool) : Except Failure EventContext := do
  let start := ctx.reader.offset
  let ctx ← ctx.beginValue setup
  if setup.limits.maxDepth ≤ ctx.depth then
    throw (ctx.reader.errorAt setup .limitExceeded "JSON nesting depth limit exceeded" start (start + 1))
  else
    let ctx := { ctx with depth := ctx.depth + 1, reader := { ctx.reader with offset := start + 1 } }
    ctx.deliver handler ⟨data, ⟨setup.source, start, start + 1⟩⟩ emit

def closeContainer (ctx : EventContext) (close : UInt8) (unterminated : String) (data : EventData) (emit : Bool) :
    Except Failure EventContext :=
  let endStart := ctx.reader.offset
  if peekByte ctx.reader.cursor.rest ≠ close then
    .error (ctx.reader.errorHere setup .unexpectedEnd unterminated)
  else
    let ctx := { ctx with depth := ctx.depth - 1, reader := { ctx.reader with offset := endStart + 1 } }
    ctx.deliver handler ⟨data, ⟨setup.source, endStart, endStart + 1⟩⟩ emit

section

variable (parseValue : EventContext → Bool → Except Failure EventContext)

def arrayLoop (emit : Bool) : Nat → EventContext → Except Failure EventContext
  | 0, _ => .error .fuel
  | fuel + 1, ctx => do
    let ctx ← parseValue ctx emit
    let (closed, ctx) ← ctx.lex
      (Cursor.separator setup.toProfile 0x5D "Expected ',' or ']' in JSON array" "Trailing comma in JSON array")
    if closed then return ctx else arrayLoop emit fuel ctx

def arrayValues (ctx : EventContext) (emit : Bool) : Except Failure EventContext :=
  if peekByte ctx.reader.cursor.rest = 0x5D then .ok ctx
  else arrayLoop setup parseValue emit (ctx.reader.cursor.rest.length + 1) ctx

def parseArray (ctx : EventContext) (emit : Bool) : Except Failure EventContext := do
  let ctx ← ctx.openContainer setup handler .startArray emit
  let (_, ctx) ← ctx.lex (Cursor.skipTrivia setup.toProfile)
  let ctx ← arrayValues setup parseValue ctx emit
  ctx.closeContainer setup handler 0x5D "Unterminated JSON array" .endArray emit

/-- What `ParseObject` decides when it has read a key: refuse it, or keep its member or not. -/
def admitKey (ctx : EventContext) (keys : List SeenKey) (key : ParsedString) :
    Except Failure (Bool × List SeenKey × EventContext) := do
  let errorAt code message := ctx.reader.errorAt setup code message key.span.first key.span.last
  let duplicate :=
    if setup.options.duplicateKeys = .preserve then none
    else keys.find? fun candidate => ctx.reader.memory.view candidate.value = ctx.reader.memory.view key.value
  if duplicate.isSome ∧ setup.options.duplicateKeys = .reject then
    throw (.diagnostic
      { makeErrorAt setup.source ctx.reader.memory.source .duplicateName "Duplicate JSON object key"
          key.span.first key.span.last with related := duplicate.map (·.span) })
  else if duplicate.isSome then return (false, keys, ctx)
  else if setup.limits.maxMembers ≤ ctx.memberCount then
    throw (errorAt .limitExceeded "JSON object member limit exceeded")
  else
    let ctx := { ctx with memberCount := ctx.memberCount + 1 }
    if setup.options.duplicateKeys = .preserve then return (true, keys, ctx)
    else
      let (granted, reader) := ctx.reader.request setup
      if granted then return (true, keys ++ [⟨key.value, key.span⟩], { ctx with reader })
      else throw (errorAt .outOfMemory "JSON event key tracking allocation failed")

def objectLoop (emit : Bool) : Nat → EventContext → List SeenKey → Except Failure EventContext
  | 0, _, _ => .error .fuel
  | fuel + 1, ctx, keys => do
    if peekByte ctx.reader.cursor.rest ≠ 0x22 then
      throw (ctx.reader.errorHere setup .invalidToken "Expected JSON object key")
    else
      let (key, ctx) ← ctx.parseString setup
      let (keepMember, keys, ctx) ← admitKey setup ctx keys key
      let (_, ctx) ← ctx.lex (Cursor.colon setup.toProfile "Expected ':' after JSON object key")
      let ctx ← ctx.deliver handler ⟨.key (ctx.reader.memory.view key.value), key.span⟩ (emit && keepMember)
      let ctx ← parseValue ctx (emit && keepMember)
      let (closed, ctx) ← ctx.lex
        (Cursor.separator setup.toProfile 0x7D "Expected ',' or '\x7d' in JSON object" "Trailing comma in JSON object")
      if closed then return ctx else objectLoop emit fuel ctx keys

def objectMembers (ctx : EventContext) (emit : Bool) : Except Failure EventContext :=
  if peekByte ctx.reader.cursor.rest = 0x7D then .ok ctx
  else objectLoop setup handler parseValue emit (ctx.reader.cursor.rest.length + 1) ctx []

def parseObject (ctx : EventContext) (emit : Bool) : Except Failure EventContext := do
  let ctx ← ctx.openContainer setup handler .startObject emit
  let (_, ctx) ← ctx.lex (Cursor.skipTrivia setup.toProfile)
  let ctx ← objectMembers setup handler parseValue ctx emit
  ctx.closeContainer setup handler 0x7D "Unterminated JSON object" .endObject emit

end

def parseValue : Nat → EventContext → Bool → Except Failure EventContext
  | 0, _, _ => .error .fuel
  | fuel + 1, ctx, emit => do
    let (_, ctx) ← ctx.lex (Cursor.skipTrivia setup.toProfile)
    let token := peekByte ctx.reader.cursor.rest
    if token = 0x7B then parseObject setup handler (parseValue fuel) ctx emit
    else if token = 0x5B then parseArray setup handler (parseValue fuel) ctx emit
    else
      let ctx ← ctx.beginValue setup
      if token = 0x22 then
        let (string, ctx) ← ctx.parseString setup
        ctx.deliver handler ⟨.string (ctx.reader.memory.view string.value), string.span⟩ emit
      else
        let ((value, span), ctx) ← ctx.lex (Cursor.readScalar setup.toProfile)
        ctx.deliver handler ⟨scalarEvent value, span⟩ emit

end EventContext

/-- `ParseEventsContiguous`: the events delivered by a run that succeeds. -/
def parseEventsContiguous (setup : Setup) (handler : EventHandler) (scratch : ParseScratch) (input : Bytes) :
    Except Failure (List Event) := do
  let setup := { setup with ownership := .borrowed }
  let errorAt code message := Failure.diagnostic (makeErrorAt setup.source input code message 0 input.length)
  if setup.limits.maxInputBytes < input.length then throw (errorAt .limitExceeded "JSON input byte limit exceeded")
  else if setup.options.utf8 = .validate ∧ Unicode.isValidUtf8 input = false then
    throw (errorAt .invalidEncoding "JSON input is not valid UTF-8")
  else if setup.resources.grants 0 = false then
    throw (.diagnostic
      { code := .outOfMemory, message := "Failed to allocate JSON event parser scratch storage" })
  else
    let memory : Memory := { source := input, scratch := scratch.reset.reserve input.length }
    let ctx : EventContext := { reader := { memory, requests := 1 } }
    let ctx ← ctx.parseValue setup handler (input.length + 1) true
    let (_, ctx) ← ctx.lex (Cursor.skipTrivia setup.toProfile)
    if ctx.reader.cursor.rest ≠ [] then
      throw (ctx.reader.errorHere setup .trailingCharacters "Trailing characters after JSON value")
    else return ctx.events

end NginBase.Json
