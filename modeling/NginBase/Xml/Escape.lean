import NginBase.Library.Output
import NginBase.Xml.Lexer

namespace NginBase.Xml

/-! How the two writers write character data and attribute values, and what the parser makes of it. -/

inductive WriteErrorCode
  | invalidDocument
  | invalidNode
  | invalidComment
  | invalidProcessingInstruction
  | depthExceeded
  | outputLimitExceeded
  | outOfMemory
  deriving DecidableEq

structure WriteDiagnostic where
  code : WriteErrorCode := .invalidDocument
  message : String := ""
  deriving DecidableEq

structure WriteOptions where
  pretty : Bool := false
  includeDeclaration : Bool := false
  indentWidth : Nat := 2
  maxDepth : Nat := 256
  maxOutputBytes : Nat := 64 * 1024 * 1024

section

variable (inAttribute : Bool)

/-- What `Escape` writes in place of a byte, when it does not write the byte itself. -/
def escapeByte (b : UInt8) : Option Bytes :=
  if b = 0x26 then some [0x26, 0x61, 0x6D, 0x70, 0x3B]
  else if b = 0x3C then some [0x26, 0x6C, 0x74, 0x3B]
  else if b = 0x3E then some [0x26, 0x67, 0x74, 0x3B]
  else if b = 0x22 ∧ inAttribute = true then some [0x26, 0x71, 0x75, 0x6F, 0x74, 0x3B]
  else if b = 0x27 ∧ inAttribute = true then some [0x26, 0x61, 0x70, 0x6F, 0x73, 0x3B]
  else none

/-- The loop of `Escape`: the texts it appends one after the other, where `run` holds the bytes since the last replacement. -/
def escapedRuns (run : Bytes) : Bytes → List Bytes
  | [] => [run]
  | b :: rest =>
    match escapeByte inAttribute b with
    | some replacement => run :: replacement :: escapedRuns [] rest
    | none => escapedRuns (run ++ [b]) rest

end

namespace Writer

variable (options : WriteOptions)

/-- `Append`, with the diagnostic its callers make of a refusal. -/
def append (output value : Bytes) : Except WriteDiagnostic Bytes :=
  if options.maxOutputBytes < output.length ∨ options.maxOutputBytes - output.length < value.length then
    .error ⟨.outputLimitExceeded, "XML output limit exceeded"⟩
  else .ok (output ++ value)

def escape (inAttribute : Bool) (value output : Bytes) : Except WriteDiagnostic Bytes :=
  if Unicode.isValidUtf8 value = false then .error ⟨.outputLimitExceeded, "XML output limit exceeded"⟩
  else (escapedRuns inAttribute [] value).foldlM (append options) output

end Writer

namespace StreamWriter

structure Sink where
  output : Bytes := []
  failed : Bool := false
  deriving DecidableEq

variable (options : WriteOptions) (takes : Bytes → Bytes → Bool)

/-- `Append`; `takes` says whether the sink takes some bytes after those that it has taken. -/
def append (sink : Sink) (value : Bytes) : Except WriteDiagnostic Unit × Sink :=
  if sink.failed then (.error ⟨.invalidDocument, "XML writer is in a failed state"⟩, sink)
  else if options.maxOutputBytes < sink.output.length ∨ options.maxOutputBytes - sink.output.length < value.length then
    (.error ⟨.outputLimitExceeded, "XML output limit exceeded"⟩, { sink with failed := true })
  else if takes sink.output value = false then
    (.error ⟨.outOfMemory, "XML output sink rejected bytes"⟩, { sink with failed := true })
  else (.ok (), { sink with output := sink.output ++ value })

def appendAll (sink : Sink) : List Bytes → Except WriteDiagnostic Unit × Sink
  | [] => (.ok (), sink)
  | value :: rest =>
    match append options takes sink value with
    | (.ok (), sink) => appendAll sink rest
    | refused => refused

/-- The loop of `HasInvalidXmlByte` is that of `IsXmlText`. -/
def hasInvalidXmlByte (value : Bytes) : Bool := !isXmlText value

def escape (inAttribute : Bool) (value : Bytes) (sink : Sink) : Except WriteDiagnostic Unit × Sink :=
  if hasInvalidXmlByte value then (.error ⟨.invalidNode, "XML content contains a forbidden character"⟩, sink)
  else appendAll options takes sink (escapedRuns inAttribute [] value)

end StreamWriter

/-- What the parser reads where a text or an attribute value was written, up to the `<` or the quote that follows. -/
def readBack (profile : Profile) (inAttribute : Bool) (offset : Nat) (written rest : Bytes) : Option Bytes :=
  let scanned :=
    if inAttribute then Cursor.scanValue profile 0x22 ⟨offset, written ++ 0x22 :: rest⟩
    else Cursor.scanText profile ⟨offset, written ++ 0x3C :: rest⟩
  match scanned with
  | .error _ => none
  | .ok (raw, _) => if needsDecode raw.bytes then (decodeXmlText raw.bytes).toOption else some raw.bytes

def XmlText (text : Bytes) : Prop :=
  ∃ characters : List Nat, (∀ c ∈ characters, isXmlCharacter c = true) ∧ text = characters.flatMap Unicode.encodeUtf8

def Writer.RoundTrips (inAttribute : Bool) (value : Bytes) : Prop :=
  ∀ options output output', Writer.escape options inAttribute value output = .ok output' →
    ∃ written, output' = output ++ written ∧ ∀ profile offset rest, readBack profile inAttribute offset written rest = some value

def StreamWriter.RoundTrips (inAttribute : Bool) (value : Bytes) : Prop :=
  ∀ options takes sink sink', StreamWriter.escape options takes inAttribute value sink = (.ok (), sink') →
    ∃ written, sink'.output = sink.output ++ written ∧
      ∀ profile offset rest, readBack profile inAttribute offset written rest = some value

end NginBase.Xml
