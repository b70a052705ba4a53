import NginBase.Json.Types
import NginBase.Library.Search
import NginBase.Library.Transducer

namespace NginBase.Json

open Library

/-! Tokens of the JSON parsers. The document parser and the event parser have the same code for
them, so each is defined once here, on the bytes ahead of the cursor. -/

def isDigit (b : UInt8) : Bool := 0x30 ≤ b && b ≤ 0x39

def skipComment (rest : Bytes) : Except LexError Nat :=
  if peekByte rest ≠ 0x2F then .ok 0
  else if peekByte rest 1 = 0x2F then
    .ok (2 + ((rest.drop 2).takeWhile fun b => b ≠ 0x0D && b ≠ 0x0A).length)
  else if peekByte rest 1 = 0x2A then
    match find [0x2A, 0x2F] (rest.drop 2) with
    | some close => .ok (2 + close + 2)
    | none => .error ⟨.unexpectedEnd, "Unterminated block comment", 0, rest.length⟩
  else .error ⟨.invalidToken, "Invalid comment token", 0, 1⟩

/-- The loop of `SkipTrivia`; every further round has consumed a comment. -/
def triviaLoop (comments : CommentPolicy) : Nat → Bytes → Nat → Except LexError Nat
  | 0, _, consumed => .ok consumed
  | fuel + 1, rest, consumed =>
    let start := consumed + whitespaceLength rest
    let rest := rest.drop (whitespaceLength rest)
    if peekByte rest ≠ 0x2F then .ok start
    else if comments = .reject then
      .error ⟨.invalidToken, "JSON comments are disabled", start, start + 1⟩
    else
      match skipComment rest with
      | .error e => .error { e with first := start + e.first, last := start + e.last }
      | .ok length => triviaLoop comments fuel (rest.drop length) (start + length)

def skipTrivia (comments : CommentPolicy) (rest : Bytes) : Except LexError Nat :=
  triviaLoop comments (rest.length + 1) rest 0

/-- `FindAnyByte`: offset of the first of the two bytes, or the length when there is none. -/
def findAnyByte (scan : Bytes) (a b : UInt8) : Nat := (scan.takeWhile fun c => c ≠ a && c ≠ b).length

/-- First pass over a string: find the closing quote, refuse control characters and note escapes.
    `scan` starts `position` bytes after the opening quote of a token with `total` bytes ahead. -/
def scanLoop (total : Nat) : Nat → Bytes → Nat → Bool → Except LexError (Nat × Bool)
  | 0, _, _, _ => .error ⟨.unexpectedEnd, "Unterminated JSON string", 0, 1 + total⟩
  | fuel + 1, scan, position, hasEscapes =>
    let offset := findAnyByte scan 0x22 0x5C
    match (scan.take offset).findIdx? (· < 0x20) with
    | some i =>
      .error ⟨.invalidToken, "Control character in JSON string", 1 + position + i, 1 + position + i + 1⟩
    | none =>
      match scan.drop offset with
      | [] => .error ⟨.unexpectedEnd, "Unterminated JSON string", 0, 1 + total⟩
      | next :: after =>
        if next = 0x22 then .ok (position + offset, hasEscapes)
        else
          match after with
          | [] => .error ⟨.unexpectedEnd, "Unterminated JSON escape", 1 + position + offset, 1 + total⟩
          | _ :: scan => scanLoop total fuel scan (position + offset + 2) true

/-- Raw length and escape flag of the string whose opening quote has just been passed. -/
def scanString (rest : Bytes) : Except LexError (Nat × Bool) :=
  scanLoop rest.length (rest.length + 1) rest 0 false

def hexValue (b : UInt8) : Option Nat :=
  if 0x30 ≤ b ∧ b ≤ 0x39 then some (b.toNat - 0x30)
  else if 0x61 ≤ b ∧ b ≤ 0x66 then some (b.toNat - 0x61 + 10)
  else if 0x41 ≤ b ∧ b ≤ 0x46 then some (b.toNat - 0x41 + 10)
  else none

def decodeHex4 : Bytes → Option Nat
  | a :: b :: c :: d :: _ => do
    let a ← hexValue a
    let b ← hexValue b
    let c ← hexValue c
    let d ← hexValue d
    return ((a * 16 + b) * 16 + c) * 16 + d
  | _ => none

def simpleEscape (b : UInt8) : Option UInt8 :=
  if b = 0x22 then some 0x22
  else if b = 0x5C then some 0x5C
  else if b = 0x2F then some 0x2F
  else if b = 0x62 then some 0x08
  else if b = 0x66 then some 0x0C
  else if b = 0x6E then some 0x0A
  else if b = 0x72 then some 0x0D
  else if b = 0x74 then some 0x09
  else none

/-- A `\u` escape whose digits start `text`; `escape` is the offset of its backslash. -/
def unicodeEscape (rawLength escape : Nat) (text : Bytes) : Except LexError (Bytes × Nat) :=
  if text.length < 4 then
    .error ⟨.invalidUnicodeEscape, "Truncated JSON Unicode escape", escape, rawLength + 2⟩
  else
    match decodeHex4 text with
    | none => .error ⟨.invalidUnicodeEscape, "Invalid JSON Unicode escape", escape, escape + 6⟩
    | some codePoint =>
      if 0xD800 ≤ codePoint ∧ codePoint ≤ 0xDBFF then
        let after := text.drop 4
        if after.length < 6 ∨ peekByte after ≠ 0x5C ∨ peekByte after 1 ≠ 0x75 then
          .error ⟨.invalidUnicodeEscape, "Missing low surrogate", escape, escape + 6⟩
        else
          match (decodeHex4 (after.drop 2)).filter fun low => 0xDC00 ≤ low && low ≤ 0xDFFF with
          | none => .error ⟨.invalidUnicodeEscape, "Invalid low surrogate", escape + 6, escape + 12⟩
          | some low =>
            .ok (Unicode.encodeUtf8 (0x10000 + ((codePoint - 0xD800) <<< 10) + (low - 0xDC00)), 12)
      else if 0xDC00 ≤ codePoint ∧ codePoint ≤ 0xDFFF then
        .error ⟨.invalidUnicodeEscape, "Unexpected low surrogate", escape, escape + 6⟩
      else .ok (Unicode.encodeUtf8 codePoint, 6)

/-- Second pass over a string: the bytes one round of the decode loop writes and the number it
    reads. `position` counts from the first byte after the opening quote. -/
def decodeStep (rawLength position : Nat) : Bytes → Except LexError (Bytes × Nat)
  | [] => .ok ([], 1)
  | value :: rest =>
    if value ≠ 0x5C then .ok ([value], 1)
    else
      match rest with
      | [] => .error ⟨.invalidStringEscape, "Truncated JSON escape", 1 + position, 1 + position + 1⟩
      | letter :: text =>
        match simpleEscape letter with
        | some byte => .ok ([byte], 2)
        | none =>
          if letter = 0x75 then unicodeEscape rawLength (1 + position) text
          else .error ⟨.invalidStringEscape, "Invalid JSON string escape", 1 + position, 1 + position + 2⟩

def decodeString (raw : Bytes) : Except LexError Bytes :=
  translate (decodeStep raw.length) raw.length 0 raw

def digitsLength (rest : Bytes) : Nat := (rest.takeWhile isDigit).length

def scanInteger (sign : Nat) (body : Bytes) : Except LexError Nat :=
  if peekByte body = 0x30 then
    if isDigit (peekByte (body.drop 1)) then
      .error ⟨.invalidNumber, "Leading zero in JSON number", 0, sign + 1 + 1⟩
    else .ok 1
  else if isDigit (peekByte body) then .ok (digitsLength body)
  else .error ⟨.invalidNumber, "Invalid JSON number", 0, 0⟩

def scanFraction (rest : Bytes) : Except LexError Nat :=
  if peekByte rest = 0x2E then
    if isDigit (peekByte (rest.drop 1)) then .ok (1 + digitsLength (rest.drop 1))
    else .error ⟨.invalidNumber, "Invalid JSON fraction", 0, 0⟩
  else .ok 0

def exponentSign (rest : Bytes) : Nat :=
  if peekByte rest = 0x2B ∨ peekByte rest = 0x2D then 1 else 0

def scanExponent (rest : Bytes) : Except LexError Nat :=
  if peekByte rest = 0x65 ∨ peekByte rest = 0x45 then
    let digits := rest.drop (1 + exponentSign (rest.drop 1))
    if isDigit (peekByte digits) then .ok (1 + exponentSign (rest.drop 1) + digitsLength digits)
    else .error ⟨.invalidNumber, "Invalid JSON exponent", 0, 0⟩
  else .ok 0

def signLength (rest : Bytes) : Nat := if peekByte rest = 0x2D then 1 else 0

def scanNumber (rest : Bytes) : Except LexError (Nat × Bool) :=
  let sign := signLength rest
  let body := rest.drop sign
  if body = [] then .error ⟨.unexpectedEnd, "Truncated JSON number", 0, 0⟩
  else do
    let integer ← scanInteger sign body
    let fraction ← scanFraction (body.drop integer)
    let exponent ← scanExponent (body.drop (integer + fraction))
    return (sign + integer + fraction + exponent, fraction ≠ 0 || exponent ≠ 0)

def convertNumber (fromChars : Bytes → FromCharsDouble) (token : Bytes) (isFloating : Bool) :
    Except LexError Scalar :=
  if isFloating then
    let result := fromChars token
    if result.ok ∧ result.consumed = token.length ∧ result.value.isFinite then .ok (.double result.value)
    else .error ⟨.invalidNumber, "JSON floating-point value is out of range", 0, token.length⟩
  else if peekByte token = 0x2D then
    match (fromCharsInt64 token).filter (·.2 = token.length) with
    | some (value, _) => .ok (.int64 (.ofInt value))
    | none => .error ⟨.invalidNumber, "JSON signed integer is out of range", 0, token.length⟩
  else
    match (fromCharsUnsigned 10 (2 ^ 64) token).filter (·.2 = token.length) with
    | some (value, _) =>
      if value ≤ 2 ^ 63 - 1 then .ok (.int64 (.ofNat value)) else .ok (.uint64 (.ofNat value))
    | none => .error ⟨.invalidNumber, "JSON unsigned integer is out of range", 0, token.length⟩

def readNumber (fromChars : Bytes → FromCharsDouble) (rest : Bytes) : Except LexError (Nat × Scalar) := do
  let (length, isFloating) ← scanNumber rest
  let value ← convertNumber fromChars (rest.take length) isFloating
  return (length, value)

def nullText : Bytes := [0x6E, 0x75, 0x6C, 0x6C]
def trueText : Bytes := [0x74, 0x72, 0x75, 0x65]
def falseText : Bytes := [0x66, 0x61, 0x6C, 0x73, 0x65]

def matchLiteral (rest literal : Bytes) : Bool := literal.length ≤ rest.length && rest.take literal.length = literal

/-- The literal that starts here, as `ParseValue` tries them. -/
def readLiteral (rest : Bytes) : Except LexError (Nat × Scalar) :=
  if peekByte rest = 0x6E ∧ matchLiteral rest nullText then .ok (4, .null)
  else if peekByte rest = 0x74 ∧ matchLiteral rest trueText then .ok (4, .bool true)
  else if peekByte rest = 0x66 ∧ matchLiteral rest falseText then .ok (5, .bool false)
  else if rest = [] then .error ⟨.unexpectedEnd, "Expected JSON value", 0, 0⟩
  else .error ⟨.unexpectedCharacter, "Unexpected JSON token", 0, 1⟩

end NginBase.Json

namespace NginBase.Json

/-- How the parser owns the text, which decides where escaped strings are decoded. -/
inductive Ownership
  | owned
  | inSitu
  | borrowed

/-- What allocators and containers answer, by the number of earlier requests: whether a request is
    granted, and the bytes `MemoryCommitted` then reports. -/
structure Resources where
  grants : Nat → Bool
  committed : Nat → Nat

/-- What decides the result of a parse besides the text. -/
structure Profile where
  source : SourceId := 0
  options : ParseOptions := {}
  limits : ParseLimits := {}
  fromChars : Bytes → FromCharsDouble

/-- A profile together with where strings are decoded and what allocators answer. -/
structure Setup extends Profile where
  ownership : Ownership := .owned
  resources : Resources := { grants := fun _ => true, committed := fun _ => 0 }

/-- Some request of this parse is refused, or reports more memory than the limit. -/
def Setup.Scarce (setup : Setup) : Prop :=
  ∃ n, setup.resources.grants n = false ∨ setup.limits.maxTotalMemoryBytes < setup.resources.committed n

/-- The failures that come from an allocator or from the limit on total memory. -/
def MemoryFailure : Failure → Prop
  | .diagnostic d => d.code = .outOfMemory ∨
      d.code = .limitExceeded ∧ (d.message = "JSON memory limit exceeded" ∨ d.message = "JSON total memory limit exceeded")
  | .fuel => False

/-- A parse may give up with a memory failure, but only when its resources are scarce. -/
def Exhausted (setup : Setup) (e : Failure) : Prop := setup.Scarce ∧ MemoryFailure e

/-- A string token: the offset of its opening quote, the bytes between the quotes and whether
    there is an escape among them. -/
structure StringToken where
  first : Nat
  raw : Bytes
  escaped : Bool

structure Cursor where
  offset : Nat := 0
  rest : Bytes

namespace Cursor

variable (profile : Profile)

def advance (c : Cursor) (count : Nat) : Cursor := ⟨c.offset + count, c.rest.drop count⟩

def errorAt (code : ParseErrorCode) (message : String) (first last : Nat) : Failure :=
  .diagnostic (fault profile.source code message first last)

def errorHere (c : Cursor) (code : ParseErrorCode) (message : String) : Failure :=
  errorAt profile code message c.offset c.offset

def lexError (start : Nat) (e : LexError) : Failure :=
  errorAt profile e.code e.message (start + e.first) (start + e.last)

def skipTrivia (c : Cursor) : Except Failure (Unit × Cursor) :=
  match Json.skipTrivia profile.options.comments c.rest with
  | .error e => .error (lexError profile c.offset e)
  | .ok length => .ok ((), c.advance length)

/-- What follows an element or a member: its container ends here, or a comma and the next one. -/
def separator (close : UInt8) (expected trailing : String) (c : Cursor) : Except Failure (Bool × Cursor) := do
  let (_, c) ← c.skipTrivia profile
  if peekByte c.rest = close then return (true, c)
  else if peekByte c.rest ≠ 0x2C then throw (c.errorHere profile .unexpectedCharacter expected)
  else
    let (_, c) ← (c.advance 1).skipTrivia profile
    if peekByte c.rest = close then
      if profile.options.trailingCommas = .reject then throw (c.errorHere profile .invalidToken trailing)
      else return (true, c)
    else return (false, c)

def colon (expected : String) (c : Cursor) : Except Failure (Unit × Cursor) := do
  let (_, c) ← c.skipTrivia profile
  if peekByte c.rest ≠ 0x3A then throw (c.errorHere profile .unexpectedCharacter expected)
  else return ((), c.advance 1)

/-- The first pass of `ParseString`, which leaves the cursor behind the closing quote. -/
def scanString (c : Cursor) : Except Failure (StringToken × Cursor) :=
  if peekByte c.rest ≠ 0x22 then .error (c.errorHere profile .invalidToken "Expected JSON string")
  else
    match Json.scanString (c.rest.drop 1) with
    | .error e => .error (lexError profile c.offset e)
    | .ok (rawLength, escaped) =>
      .ok (⟨c.offset, (c.rest.drop 1).take rawLength, escaped⟩, c.advance (1 + rawLength + 1))

def readScalar (c : Cursor) : Except Failure ((Scalar × SourceSpan) × Cursor) :=
  let token := peekByte c.rest
  let read := if token = 0x2D ∨ isDigit token then readNumber profile.fromChars c.rest else readLiteral c.rest
  match read with
  | .error e => .error (lexError profile c.offset e)
  | .ok (length, value) => .ok ((value, ⟨profile.source, c.offset, c.offset + length⟩), c.advance length)

end Cursor

def StringToken.span (profile : Profile) (token : StringToken) : SourceSpan :=
  ⟨profile.source, token.first, token.first + 1 + token.raw.length + 1⟩

def StringToken.text (profile : Profile) (token : StringToken) : Except Failure Bytes :=
  if token.escaped = false then .ok token.raw
  else
    match decodeString token.raw with
    | .error e => .error (Cursor.lexError profile token.first e)
    | .ok text => .ok text

end NginBase.Json
