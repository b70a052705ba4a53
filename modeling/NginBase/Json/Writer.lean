import NginBase.Json.Types
import NginBase.Library.Simulation

namespace NginBase.Json

open Library

inductive WriteErrorCode
  | invalidValue
  | nonFiniteNumber
  | depthExceeded
  | outputLimitExceeded
  | outOfMemory

structure WriteDiagnostic where
  code : WriteErrorCode := .invalidValue
  message : String := ""

structure WriteOptions where
  pretty : Bool := false
  sortObjectKeys : Bool := false
  indentWidth : Nat := 2
  maxDepth : Nat := 256
  maxOutputBytes : Nat := 64 * 1024 * 1024

def unsignedText (n : Nat) : Bytes :=
  if n = 0 then [0x30] else (Nat.digits 10 n).reverse.map fun digit => .ofNat (0x30 + digit)

def signedText (n : Int) : Bytes := if n < 0 then 0x2D :: unsignedText n.natAbs else unsignedText n.natAbs

def nullLiteral : Bytes := [0x6E, 0x75, 0x6C, 0x6C]

def boolLiteral (value : Bool) : Bytes := if value then [0x74, 0x72, 0x75, 0x65] else [0x66, 0x61, 0x6C, 0x73, 0x65]

def namedEscape (b : UInt8) : Option Bytes :=
  if b = 0x22 then some [0x5C, 0x22]
  else if b = 0x5C then some [0x5C, 0x5C]
  else if b = 0x08 then some [0x5C, 0x62]
  else if b = 0x0C then some [0x5C, 0x66]
  else if b = 0x0A then some [0x5C, 0x6E]
  else if b = 0x0D then some [0x5C, 0x72]
  else if b = 0x09 then some [0x5C, 0x74]
  else none

def hexDigit (n : UInt8) : UInt8 := if n < 10 then 0x30 + n else 0x61 + (n - 10)

/-- What `AppendEscaped` writes in place of a byte, when it does not write the byte itself. -/
def escapeByte (b : UInt8) : Option Bytes :=
  match namedEscape b with
  | some escape => some escape
  | none => if b < 0x20 then some [0x5C, 0x75, 0x30, 0x30, hexDigit (b >>> 4), hexDigit (b &&& 0x0F)] else none

/-- The loop of `AppendEscaped`: the texts it appends one after the other, where `run` holds the
    bytes since `runStart`. -/
def escapedRuns (run : Bytes) : Bytes → List Bytes
  | [] => [run]
  | b :: rest =>
    match escapeByte b with
    | some escape => run :: escape :: escapedRuns [] rest
    | none => escapedRuns (run ++ [b]) rest

def escapedChunks (value : Bytes) : List Bytes := [0x22] :: (escapedRuns [] value ++ [[0x22]])

def colonText (options : WriteOptions) : Bytes := if options.pretty then [0x3A, 0x20] else [0x3A]

namespace Writer

variable (options : WriteOptions)

/-- `Append`, with the diagnostic its callers make of a refusal. -/
def append (output value : Bytes) : Except WriteDiagnostic Bytes :=
  if options.maxOutputBytes < output.length ∨ options.maxOutputBytes - output.length < value.length then
    .error ⟨.outputLimitExceeded, "JSON output limit exceeded"⟩
  else .ok (output ++ value)

def appendIndent (depth : Nat) (output : Bytes) : Except WriteDiagnostic Bytes :=
  if options.pretty = false then .ok output
  else do
    let output ← append options output [0x0A]
    if options.indentWidth ≠ 0 ∧ options.maxOutputBytes / options.indentWidth < depth then
      .error ⟨.outputLimitExceeded, "JSON output limit exceeded"⟩
    else append options output (List.replicate (depth * options.indentWidth) 0x20)

def appendEscaped (value output : Bytes) : Except WriteDiagnostic Bytes :=
  if Unicode.isValidUtf8 value = false then .error ⟨.outputLimitExceeded, "JSON output limit exceeded"⟩
  else (escapedChunks value).foldlM (append options) output

abbrev Pending := Bytes → Except WriteDiagnostic Bytes

def appendComma (index : Nat) (output : Bytes) : Except WriteDiagnostic Bytes :=
  if index ≠ 0 then append options output [0x2C] else .ok output

def closeIndent (depth : Nat) (items : List Pending) (output : Bytes) : Except WriteDiagnostic Bytes :=
  if items.isEmpty then .ok output else appendIndent options depth output

/-- The loop over the elements or members from `index` on. -/
def itemLoop (depth : Nat) : Nat → List Pending → Pending
  | _, [], output => .ok output
  | index, item :: rest, output => do
    let output ← appendComma options index output
    let output ← appendIndent options (depth + 1) output
    let output ← item output
    itemLoop depth (index + 1) rest output

def writeContainer (depth : Nat) (first last : UInt8) (items : List Pending) (output : Bytes) :
    Except WriteDiagnostic Bytes := do
  let output ← append options output [first]
  let output ← itemLoop options depth 0 items output
  let output ← closeIndent options depth items output
  append options output [last]

def writeMember (key : Bytes) (value : Pending) (output : Bytes) : Except WriteDiagnostic Bytes := do
  let output ← appendEscaped options key output
  let output ← append options output (colonText options)
  value output

def sortMembers {α : Type} (members : List (Bytes × α)) : List (Bytes × α) :=
  if options.sortObjectKeys then members.mergeSort fun left right => left.1 ≤ right.1 else members

variable (toChars : F64 → Option Bytes)

def writeScalar (output : Bytes) : Scalar → Except WriteDiagnostic Bytes
  | .null => append options output nullLiteral
  | .bool value => append options output (boolLiteral value)
  | .int64 value => append options output (signedText value.toInt)
  | .uint64 value => append options output (unsignedText value.toNat)
  | .double value =>
    if value.isFinite = false then .error ⟨.nonFiniteNumber, "JSON cannot represent a non-finite number"⟩
    else
      match toChars value with
      | none => .error ⟨.outputLimitExceeded, "JSON output limit exceeded"⟩
      | some text => append options output text
  | .string text => appendEscaped options text output

mutual

def writeValue (depth : Nat) (value : Value) (output : Bytes) : Except WriteDiagnostic Bytes :=
  if options.maxDepth < depth then .error ⟨.depthExceeded, "JSON writer depth limit exceeded"⟩
  else
    match value with
    | .scalar scalar => writeScalar options toChars output scalar
    | .array elements => writeContainer options depth 0x5B 0x5D (writeElements (depth + 1) elements) output
    | .object members =>
      let members := sortMembers options (writeMembers (depth + 1) members)
      writeContainer options depth 0x7B 0x7D (members.map fun member => writeMember options member.1 member.2) output

def writeElements (depth : Nat) : List Value → List Pending
  | [] => []
  | element :: rest => writeValue depth element :: writeElements depth rest

def writeMembers (depth : Nat) : List (Bytes × Value) → List (Bytes × Pending)
  | [] => []
  | (key, value) :: rest => (key, writeValue depth value) :: writeMembers depth rest

end

def write (value : Option Value) : Except WriteDiagnostic Bytes :=
  match value with
  | none => .error ⟨.invalidValue, "Cannot write an invalid JSON value"⟩
  | some value => writeValue options toChars 0 value []

end Writer

end NginBase.Json
