import NginBase.Json.Lexer

namespace NginBase.Json.Reference

/-! The document parser without memory: it reads an immutable text, counts instead of storing and
returns the tree at once. The parser of the code simulates it in every ownership mode. -/

/-- How far the tables and the decoded strings have grown. -/
structure Tally where
  nodes : Nat := 0
  elements : Nat := 0
  members : Nat := 0
  decoded : Nat := 0

structure State where
  cursor : Cursor
  tally : Tally := {}

def State.pass (s : State) : State := { s with cursor := s.cursor.advance 1 }

abbrev Member := Bytes × SourceSpan × SpannedValue

variable (profile : Profile)

def lex {α : Type} (s : State) (read : Cursor → Except Failure (α × Cursor)) : Except Failure (α × State) := do
  let (a, cursor) ← read s.cursor
  return (a, { s with cursor })

def errorAt (code : ParseErrorCode) (message : String) (span : SourceSpan) : Failure :=
  Cursor.errorAt profile code message span.first span.last

def parseString (s : State) : Except Failure ((Bytes × SourceSpan) × State) := do
  let (token, s) ← lex s (Cursor.scanString profile)
  let span := token.span profile
  if token.escaped = false then return ((token.raw, span), s)
  else if profile.limits.maxDecodedStringBytes < s.tally.decoded ∨
      profile.limits.maxDecodedStringBytes - s.tally.decoded < token.raw.length then
    throw (errorAt profile .limitExceeded "Decoded JSON string limit exceeded" span)
  else
    let text ← token.text profile
    return ((text, span), { s with tally := { s.tally with decoded := s.tally.decoded + text.length } })

def addNode (s : State) (value : SpannedValue) : Except Failure (SpannedValue × State) :=
  if profile.limits.maxNodes ≤ s.tally.nodes ∨ 2 ^ 32 - 1 ≤ s.tally.nodes then
    .error (errorAt profile .limitExceeded "JSON node limit exceeded" value.span)
  else .ok (value, { s with tally := { s.tally with nodes := s.tally.nodes + 1 } })

section

variable (parseValue : State → Except Failure (SpannedValue × State))

def arrayLoop : Nat → State → List SpannedValue → Except Failure (List SpannedValue × State)
  | 0, _, _ => .error .fuel
  | fuel + 1, s, values => do
    let (value, s) ← parseValue s
    let values := values ++ [value]
    let (closed, s) ← lex s
      (Cursor.separator profile 0x5D "Expected ',' or ']' in JSON array" "Trailing comma in JSON array")
    if closed then return (values, s) else arrayLoop fuel s values

def arrayValues (s : State) : Except Failure (List SpannedValue × State) :=
  if peekByte s.cursor.rest = 0x5D then .ok ([], s)
  else arrayLoop profile parseValue (s.cursor.rest.length + 1) s []

def storeArray (s : State) (start : Nat) (values : List SpannedValue) : Except Failure (SpannedValue × State) :=
  let span : SourceSpan := ⟨profile.source, start, s.cursor.offset⟩
  if profile.limits.maxMembers < s.tally.elements ∨
      profile.limits.maxMembers - s.tally.elements < values.length then
    .error (errorAt profile .limitExceeded "JSON array element limit exceeded" span)
  else
    addNode profile { s with tally := { s.tally with elements := s.tally.elements + values.length } } (.array span values)

def parseArray (depth : Nat) (s : State) : Except Failure (SpannedValue × State) := do
  if profile.limits.maxDepth ≤ depth then
    throw (s.cursor.errorHere profile .depthExceeded "JSON depth limit exceeded")
  else
    let start := s.cursor.offset
    let (_, s) ← lex s.pass (Cursor.skipTrivia profile)
    let (values, s) ← arrayValues profile parseValue s
    storeArray profile s.pass start values

def placeMember (members : List Member) (member : Member) (keySpan : SourceSpan) :
    Except Failure (List Member) :=
  match members.findIdx? fun earlier => earlier.1 = member.1 with
  | none => .ok (members ++ [member])
  | some duplicate =>
    match profile.options.duplicateKeys with
    | .reject =>
      .error (.diagnostic
        { fault profile.source .duplicateName "Duplicate JSON object key" keySpan.first keySpan.last with
          related := members[duplicate]?.map (·.2.1) })
    | .keepFirst => .ok members
    | .keepLast => .ok (members.set duplicate member)
    | .preserve => .ok (members ++ [member])

def objectLoop : Nat → State → List Member → Except Failure (List Member × State)
  | 0, _, _ => .error .fuel
  | fuel + 1, s, members => do
    let ((key, keySpan), s) ← parseString profile s
    let (_, s) ← lex s (Cursor.colon profile "Expected ':' after JSON key")
    let (_, s) ← lex s (Cursor.skipTrivia profile)
    let (value, s) ← parseValue s
    let member : Member := (key, ⟨profile.source, keySpan.first, value.span.last⟩, value)
    let members ← placeMember profile members member keySpan
    let (closed, s) ← lex s
      (Cursor.separator profile 0x7D "Expected ',' or '\x7d' in JSON object" "Trailing comma in JSON object")
    if closed then return (members, s) else objectLoop fuel s members

def objectMembers (s : State) : Except Failure (List Member × State) :=
  if peekByte s.cursor.rest = 0x7D then .ok ([], s)
  else objectLoop profile parseValue (s.cursor.rest.length + 1) s []

def storeObject (s : State) (start : Nat) (members : List Member) : Except Failure (SpannedValue × State) :=
  let span : SourceSpan := ⟨profile.source, start, s.cursor.offset⟩
  if profile.limits.maxMembers < s.tally.members ∨
      profile.limits.maxMembers - s.tally.members < members.length then
    .error (errorAt profile .limitExceeded "JSON object member limit exceeded" span)
  else
    addNode profile { s with tally := { s.tally with members := s.tally.members + members.length } } (.object span members)

def parseObject (depth : Nat) (s : State) : Except Failure (SpannedValue × State) := do
  if profile.limits.maxDepth ≤ depth then
    throw (s.cursor.errorHere profile .depthExceeded "JSON depth limit exceeded")
  else
    let start := s.cursor.offset
    let (_, s) ← lex s.pass (Cursor.skipTrivia profile)
    let (members, s) ← objectMembers profile parseValue s
    storeObject profile s.pass start members

end

def parseValue : Nat → Nat → State → Except Failure (SpannedValue × State)
  | 0, _, _ => .error .fuel
  | fuel + 1, depth, s => do
    let (_, s) ← lex s (Cursor.skipTrivia profile)
    let token := peekByte s.cursor.rest
    if token = 0x7B then parseObject profile (parseValue fuel (depth + 1)) depth s
    else if token = 0x5B then parseArray profile (parseValue fuel (depth + 1)) depth s
    else if token = 0x22 then
      let ((text, span), s) ← parseString profile s
      addNode profile s (.scalar span (.string text))
    else
      let ((value, span), s) ← lex s (Cursor.readScalar profile)
      addNode profile s (.scalar span value)

def parse (input : Bytes) : Except Failure SpannedValue := do
  let errorAt code message := Cursor.errorAt profile code message 0 input.length
  if profile.limits.maxInputBytes < input.length then throw (errorAt .limitExceeded "JSON input byte limit exceeded")
  else if profile.options.utf8 = .validate ∧ Unicode.isValidUtf8 input = false then
    throw (errorAt .invalidEncoding "JSON input is not valid UTF-8")
  else
    let (root, s) ← parseValue profile (input.length + 1) 0 { cursor := { rest := input } }
    let (_, s) ← lex s (Cursor.skipTrivia profile)
    if s.cursor.rest ≠ [] then
      throw (s.cursor.errorHere profile .trailingCharacters "Trailing characters after JSON value")
    else return root

end NginBase.Json.Reference
