import NginBase.Text.Utf8

namespace NginBase

/-! Types shared by the JSON and the XML parser: diagnostics, limits, reads of the input cursor and
the reusable scratch storage. -/

abbrev SourceId := UInt32

structure SourceSpan where
  source : SourceId := 0
  first : Nat := 0
  last : Nat := 0
  deriving DecidableEq

inductive ParseErrorCode
  | none
  | unexpectedEnd
  | unexpectedCharacter
  | invalidToken
  | invalidNumber
  | invalidStringEscape
  | invalidUnicodeEscape
  | invalidEntity
  | depthExceeded
  | trailingCharacters
  | handlerRejected
  | outOfMemory
  | mismatchedTag
  | invalidEncoding
  | duplicateName
  | limitExceeded
  | unsupportedConstruct
  | invalidDocumentStructure
  deriving DecidableEq

structure ParseLocation where
  offset : Nat := 0
  line : Nat := 0
  column : Nat := 0
  deriving DecidableEq

structure ParseDiagnostic where
  code : ParseErrorCode := .none
  location : ParseLocation := {}
  span : SourceSpan := {}
  related : Option SourceSpan := Option.none
  consumerContext : Nat := 0
  message : String := ""
  deriving DecidableEq

/-- Two diagnostics that differ at most in their line and column. -/
structure ParseDiagnostic.Same (d e : ParseDiagnostic) : Prop where
  code : d.code = e.code
  span : d.span = e.span
  related : d.related = e.related
  message : d.message = e.message

/-- How a modelled run ends early: with a diagnostic of the parser, or because the model was given
    too little fuel, which the totality theorems exclude. -/
inductive Failure
  | diagnostic (d : ParseDiagnostic)
  | fuel
  deriving DecidableEq

/-- Two failures that differ at most in the line and column of their diagnostics. -/
def Failure.Same : Failure → Failure → Prop
  | .diagnostic d, .diagnostic e => d.Same e
  | .fuel, .fuel => True
  | _, _ => False

structure ParseLimits where
  maxInputBytes : Nat := 64 * 1024 * 1024
  maxDepth : Nat := 256
  maxNodes : Nat := 4 * 1024 * 1024
  maxMembers : Nat := 4 * 1024 * 1024
  maxDecodedStringBytes : Nat := 64 * 1024 * 1024
  maxTotalMemoryBytes : Nat := 256 * 1024 * 1024

def ParseLimits.unlimited : ParseLimits :=
  let unlimited := 2 ^ 64 - 1
  ⟨unlimited, unlimited, unlimited, unlimited, unlimited, unlimited⟩

/-- Line and column after the bytes of a source, with CR, LF and CRLF each ending one line. -/
def lineColumn : Bytes → Nat → Nat → Bool → Nat × Nat
  | [], line, column, _ => (line, column)
  | value :: rest, line, column, previousWasCarriageReturn =>
    if value = 0x0D then lineColumn rest (line + 1) 1 true
    else if value = 0x0A then
      lineColumn rest (if previousWasCarriageReturn then line else line + 1) 1 false
    else lineColumn rest line (column + 1) false

def locate (source : Bytes) (offset : Nat) : ParseLocation :=
  let (line, column) := lineColumn (source.take offset) 1 1 false
  { offset, line, column }

def fault (source : SourceId) (code : ParseErrorCode) (message : String) (first last : Nat) : ParseDiagnostic :=
  { code, span := { source, first, last := max first last }, message }

/-- `MakeErrorAt`, which finds line and column in the text as it is when the error is made. -/
def makeErrorAt (source : SourceId) (text : Bytes) (code : ParseErrorCode) (message : String)
    (first last : Nat) : ParseDiagnostic :=
  { fault source code message first last with location := locate text first }

theorem makeErrorAt_same (source : SourceId) (text : Bytes) (code : ParseErrorCode) (message : String)
    (first last : Nat) : (makeErrorAt source text code message first last).Same (fault source code message first last) :=
  ⟨rfl, rfl, rfl, rfl⟩

/-- What `InputCursor::Peek` reads from the bytes still ahead: past the end, NUL. -/
def peekByte (rest : Bytes) (ahead : Nat := 0) : UInt8 := (rest[ahead]?).getD 0

def isWhitespace (b : UInt8) : Bool := b = 0x20 || b = 0x09 || b = 0x0A || b = 0x0D

def whitespaceLength (rest : Bytes) : Nat := (rest.takeWhile isWhitespace).length

/-- `ParseScratch`: used bytes, capacity, and how often growth moved the storage. A pointer
    returned by `tryAllocate` is good only until the next move. -/
structure ParseScratch where
  bytes : Bytes := []
  capacity : Nat := 0
  moves : Nat := 0

namespace ParseScratch

def reset (s : ParseScratch) : ParseScratch := { s with bytes := [] }

def reserve (s : ParseScratch) (capacity : Nat) : ParseScratch :=
  if capacity ≤ s.capacity then s else { s with capacity := capacity, moves := s.moves + 1 }

/-- `TryAllocate`, given whether the allocator would grant a larger block. -/
def tryAllocate (s : ParseScratch) (size : Nat) (granted : Bool) : Option (Nat × ParseScratch) :=
  if size = 0 then none
  else if s.bytes.length + size ≤ s.capacity ∨ granted then
    let grown := s.reserve (s.bytes.length + size)
    some (s.bytes.length, { grown with bytes := s.bytes ++ List.replicate size 0 })
  else none

end ParseScratch

/-- A failure inside one token. Positions count from the start of the token. -/
structure LexError where
  code : ParseErrorCode
  message : String
  first : Nat
  last : Nat
  deriving DecidableEq

/-- The value of a digit in `std::from_chars` with the given base. -/
def digitValue (base : Nat) (b : UInt8) : Option Nat :=
  let value :=
    if 0x30 ≤ b ∧ b ≤ 0x39 then some (b.toNat - 0x30)
    else if 0x61 ≤ b ∧ b ≤ 0x7A then some (b.toNat - 0x61 + 10)
    else if 0x41 ≤ b ∧ b ≤ 0x5A then some (b.toNat - 0x41 + 10)
    else none
  value.filter (· < base)

def digitsValue (base : Nat) (digits : Bytes) : Nat :=
  digits.foldl (fun value b => value * base + (digitValue base b).getD 0) 0

/-- `std::from_chars` for an unsigned type of `limit` values: the value and the number of
    characters consumed, none when there is no digit or the value does not fit. -/
def fromCharsUnsigned (base limit : Nat) (text : Bytes) : Option (Nat × Nat) :=
  let digits := text.takeWhile fun b => (digitValue base b).isSome
  if digits = [] then none
  else if digitsValue base digits < limit then some (digitsValue base digits, digits.length)
  else none

/-- `std::from_chars` for `Int64`: the magnitude of a negative number may reach `2 ^ 63`. -/
def fromCharsInt64 (text : Bytes) : Option (Int × Nat) :=
  if peekByte text = 0x2D then
    (fromCharsUnsigned 10 (2 ^ 63 + 1) (text.drop 1)).map fun (value, used) => (-(value : Int), used + 1)
  else
    (fromCharsUnsigned 10 (2 ^ 63) text).map fun (value, used) => ((value : Int), used)

end NginBase
