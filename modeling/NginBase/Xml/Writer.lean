import NginBase.Library.Command
import NginBase.Xml.Constructs
import NginBase.Xml.EscapeLaws

namespace NginBase.Xml

open Library

def declarationText : Bytes :=
  [0x3C, 0x3F, 0x78, 0x6D, 0x6C, 0x20, 0x76, 0x65, 0x72, 0x73, 0x69, 0x6F, 0x6E, 0x3D, 0x22, 0x31, 0x2E, 0x30,
  0x22, 0x20, 0x65, 0x6E, 0x63, 0x6F, 0x64, 0x69, 0x6E, 0x67, 0x3D, 0x22, 0x55, 0x54, 0x46, 0x2D, 0x38, 0x22, 0x3F, 0x3E]

/-- The loop over the content of a CDATA section: the texts it appends one after the other, where every `]]>` is divided
between two sections; every round but the last goes past three bytes. -/
def cdataTexts : Nat → Bytes → List Bytes
  | 0, value => [value]
  | fuel + 1, value =>
    match find [0x5D, 0x5D, 0x3E] value with
    | none => [value]
    | some close =>
      value.take close ::
        [0x5D, 0x5D, 0x5D, 0x5D, 0x3E, 0x3C, 0x21, 0x5B, 0x43, 0x44, 0x41, 0x54, 0x41, 0x5B, 0x3E] ::
          cdataTexts fuel (value.drop (close + 3))

def cdataChunks (value : Bytes) : List Bytes :=
  [0x3C, 0x21, 0x5B, 0x43, 0x44, 0x41, 0x54, 0x41, 0x5B] :: (cdataTexts value.length value ++ [[0x5D, 0x5D, 0x3E]])

def Content.isText : Content → Bool
  | .leaf .text _ _ => true
  | _ => false

def Content.isCData : Content → Bool
  | .leaf .cdata _ _ => true
  | _ => false

def hasTextChildren (children : List Content) : Bool := children.any fun child => child.isText || child.isCData

namespace Writer

variable (options : WriteOptions)

abbrev Pending := Bytes → Except WriteDiagnostic Bytes

def indent (depth : Nat) (output : Bytes) : Except WriteDiagnostic Bytes :=
  if options.pretty = false then .ok output
  else do
    let output ← append options output [0x0A]
    if options.indentWidth ≠ 0 ∧ options.maxOutputBytes / options.indentWidth < depth then
      .error ⟨.outputLimitExceeded, "XML output limit exceeded"⟩
    else
      let count := depth * options.indentWidth
      if options.maxOutputBytes - output.length < count then .error ⟨.outputLimitExceeded, "XML output limit exceeded"⟩
      else .ok (output ++ List.replicate count 0x20)

def breakLine (mixed : Bool) (depth : Nat) (output : Bytes) : Except WriteDiagnostic Bytes :=
  if options.pretty = true ∧ mixed = false then indent options depth output else .ok output

def writeAttribute (output : Bytes) (entry : Bytes × Bytes) : Except WriteDiagnostic Bytes := do
  let output ← append options output [0x20]
  let output ← append options output entry.1
  let output ← append options output [0x3D, 0x22]
  let output ← escape options true entry.2 output
  append options output [0x22]

def writeComment (value output : Bytes) : Except WriteDiagnostic Bytes :=
  if (find [0x2D, 0x2D] value).isSome ∨ value.getLast? = some 0x2D then
    .error ⟨.invalidComment, "XML comment content is invalid"⟩
  else do
    let output ← append options output [0x3C, 0x21, 0x2D, 0x2D]
    let output ← append options output value
    append options output [0x2D, 0x2D, 0x3E]

def writeInstruction (name value output : Bytes) : Except WriteDiagnostic Bytes :=
  if name = [] ∨ (find [0x3F, 0x3E] value).isSome then
    .error ⟨.invalidProcessingInstruction, "XML processing instruction is invalid"⟩
  else do
    let output ← append options output [0x3C, 0x3F]
    let output ← append options output name
    let output ← append options output value
    append options output [0x3F, 0x3E]

def writeElement (depth : Nat) (name : Bytes) (attributes : List (Bytes × Bytes)) (children : List Content) (inside : Pending)
    (output : Bytes) : Except WriteDiagnostic Bytes :=
  if options.maxDepth < depth then .error ⟨.depthExceeded, "XML writer depth limit exceeded"⟩
  else do
    let output ← append options output [0x3C]
    let output ← append options output name
    let output ← attributes.foldlM (writeAttribute options) output
    if children.isEmpty then append options output [0x2F, 0x3E]
    else
      let output ← append options output [0x3E]
      let output ← inside output
      let output ← breakLine options (hasTextChildren children) depth output
      let output ← append options output [0x3C, 0x2F]
      let output ← append options output name
      append options output [0x3E]

mutual

def writeNode (depth : Nat) : Content → Pending
  | .element name attributes children =>
    writeElement options depth name attributes children (writeChildren (depth + 1) (hasTextChildren children) children)
  | .leaf .text _ value => escape options false value
  | .leaf .cdata _ value => fun output => (cdataChunks value).foldlM (append options) output
  | .leaf .comment _ value => writeComment options value
  | .leaf .processingInstruction name value => writeInstruction options name value

def writeChildren (depth : Nat) (mixed : Bool) : List Content → Pending
  | [], output => .ok output
  | child :: rest, output => do
    let output ← breakLine options mixed depth output
    let output ← writeNode depth child output
    writeChildren depth mixed rest output

end

def write (root : Content) : Except WriteDiagnostic Bytes := do
  let output ← if options.includeDeclaration then append options [] declarationText else .ok []
  match root with
  | .leaf _ _ _ => .error ⟨.invalidNode, "Cannot write an invalid XML element"⟩
  | .element _ _ _ => writeNode options 0 root output

end Writer

open Command

/-! The stream writer: elements are opened and closed by calls, and the `>` of a start tag is put off until something
follows it. -/

namespace StreamWriter

structure Frame where
  name : Bytes
  attributeNames : List Bytes := []
  startOpen : Bool := true
  hasContent : Bool := false
  hasText : Bool := false
  deriving DecidableEq

end StreamWriter

/-- The open elements with the innermost one first; what `m_bytesWritten` counts is the output of the sink. -/
structure StreamWriter where
  sink : StreamWriter.Sink := {}
  stack : List StreamWriter.Frame := []
  rootCount : Nat := 0
  deriving DecidableEq

namespace StreamWriter

abbrev Action (α : Type) := Command WriteDiagnostic StreamWriter α

section

/-- The blocks of up to 32 spaces that an indentation is written in; every round writes at least one space. -/
def indentBlocks : Nat → Nat → List Bytes
  | 0, _ => []
  | fuel + 1, spaces =>
    if spaces = 0 then []
    else
      let count := min spaces 32
      List.replicate count 0x20 :: indentBlocks fuel (spaces - count)

variable (options : WriteOptions) (takes : Bytes → Bytes → Bool)

def write (texts : List Bytes) : Action Unit := fun w =>
  let (result, sink) := appendAll options takes w.sink texts
  (result, { w with sink })

def writeEscaped (inAttribute : Bool) (value : Bytes) : Action Unit := fun w =>
  let (result, sink) := escape options takes inAttribute value w.sink
  (result, { w with sink })

def fail (code : WriteErrorCode) (message : String) : Action Unit := Command.fail ⟨code, message⟩

def updateBack (change : Frame → Frame) : Action Unit :=
  modify fun w => { w with stack := w.stack.modifyHead change }

def indent (depth : Nat) : Action Unit := do
  if options.pretty = false then return ()
  else
    write options takes [[0x0A]]
    if options.indentWidth ≠ 0 ∧ options.maxOutputBytes / options.indentWidth < depth then
      fail .outputLimitExceeded "XML indentation limit exceeded"
    else
      let spaces := depth * options.indentWidth
      write options takes (indentBlocks spaces spaces)

def closeStart : Action Unit := do
  let w ← get
  match w.stack with
  | [] => return ()
  | back :: _ =>
    if back.startOpen = false then return ()
    else
      write options takes [[0x3E]]
      updateBack fun frame => { frame with startOpen := false }

def beforeMarkup : Action Unit := do
  let w ← get
  match w.stack with
  | [] => return ()
  | parent :: _ =>
    closeStart options takes
    if options.pretty = true ∧ parent.hasText = false then indent options takes w.stack.length
    updateBack fun frame => { frame with hasContent := true }

end

section

variable (options : WriteOptions) (takes : Bytes → Bytes → Bool) (grants : StreamWriter → Bool)

def request (message : String) : Action Unit := do
  let w ← get
  if grants w = false then
    modify fun w => { w with sink := { w.sink with failed := true } }
    fail .outOfMemory message

def beginElement (name : Bytes) : Action Unit := do
  let w ← get
  if isName name = false then fail .invalidNode "Invalid XML element name"
  else if options.maxDepth ≤ w.stack.length then fail .depthExceeded "XML writer depth limit exceeded"
  else
    if w.stack = [] then
      if w.rootCount ≠ 0 then fail .invalidDocument "XML document may contain only one root element"
      else
        if options.includeDeclaration then
          write options takes [declarationText]
          if options.pretty then write options takes [[0x0A]]
        modify fun w => { w with rootCount := w.rootCount + 1 }
    else beforeMarkup options takes
    write options takes [[0x3C], name]
    request grants "XML writer stack allocation failed"
    modify fun w => { w with stack := { name } :: w.stack }

section

local instance : LawfulBEq Bytes := inferInstance

def addAttribute (name value : Bytes) : Action Unit := do
  let w ← get
  match w.stack with
  | [] => fail .invalidNode "XML attributes must immediately follow BeginElement"
  | back :: _ =>
    if back.startOpen = false then fail .invalidNode "XML attributes must immediately follow BeginElement"
    else if isName name = false then fail .invalidNode "Invalid XML attribute name"
    else if name ∈ back.attributeNames then fail .invalidNode "Duplicate XML attribute"
    else
      request grants "XML writer attribute allocation failed"
      updateBack fun frame => { frame with attributeNames := frame.attributeNames ++ [name] }
      write options takes [[0x20], name, [0x3D, 0x22]]
      writeEscaped options takes true value
      write options takes [[0x22]]

end

def text (value : Bytes) : Action Unit := do
  let w ← get
  if w.stack = [] then fail .invalidDocument "XML text requires an open element"
  else
    closeStart options takes
    writeEscaped options takes false value
    updateBack fun frame => { frame with hasContent := true, hasText := true }

def cdata (value : Bytes) : Action Unit := do
  let w ← get
  if w.stack = [] ∨ hasInvalidXmlByte value = true then fail .invalidNode "Invalid XML CDATA content"
  else
    closeStart options takes
    write options takes (cdataChunks value)
    updateBack fun frame => { frame with hasContent := true, hasText := true }

def comment (value : Bytes) : Action Unit := do
  if (find [0x2D, 0x2D] value).isSome ∨ value.getLast? = some 0x2D then fail .invalidComment "XML comment content is invalid"
  else
    beforeMarkup options takes
    write options takes [[0x3C, 0x21, 0x2D, 0x2D], value, [0x2D, 0x2D, 0x3E]]

def processingInstruction (target value : Bytes) : Action Unit := do
  if isName target = false ∨ target = [0x78, 0x6D, 0x6C] ∨ target = [0x58, 0x4D, 0x4C] ∨ (find [0x3F, 0x3E] value).isSome then
    fail .invalidProcessingInstruction "XML processing instruction is invalid"
  else
    beforeMarkup options takes
    write options takes [[0x3C, 0x3F], target, value, [0x3F, 0x3E]]

def endElement : Action Unit := do
  let w ← get
  match w.stack with
  | [] => fail .invalidDocument "No XML element is open"
  | frame :: rest =>
    modify fun w => { w with stack := rest }
    if frame.startOpen then write options takes [[0x2F, 0x3E]]
    else
      if options.pretty = true ∧ frame.hasContent = true ∧ frame.hasText = false then indent options takes rest.length
      write options takes [[0x3C, 0x2F], frame.name, [0x3E]]

def finish : Action Unit := do
  let w ← get
  if w.sink.failed then fail .invalidDocument "XML writer is in a failed state"
  else if w.stack ≠ [] then fail .invalidDocument "XML output contains an unclosed element"
  else if w.rootCount ≠ 1 then fail .invalidDocument "XML output requires exactly one root element"
  else return ()

inductive Call
  | beginElement (name : Bytes)
  | addAttribute (name value : Bytes)
  | text (value : Bytes)
  | cdata (value : Bytes)
  | comment (value : Bytes)
  | processingInstruction (target value : Bytes)
  | endElement

def call : Call → Action Unit
  | .beginElement name => beginElement options takes grants name
  | .addAttribute name value => addAttribute options takes grants name value
  | .text value => text options takes value
  | .cdata value => cdata options takes value
  | .comment value => comment options takes value
  | .processingInstruction target value => processingInstruction options takes target value
  | .endElement => endElement options takes

end

end StreamWriter

end NginBase.Xml
