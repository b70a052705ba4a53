import NginBase.Xml.Escape
import NginBase.Xml.Parser

namespace NginBase.Xml

/-! The syntax parser: the document parser over a borrowed text with all trivia preserved, which also
lists the constructs it went past. -/

inductive SyntaxKind
  | xmlDeclaration
  | startTag
  | endTag
  | text
  | cdata
  | comment
  | processingInstruction
  | doctype
  deriving DecidableEq

structure SyntaxToken where
  kind : SyntaxKind
  span : SourceSpan
  deriving DecidableEq

/-- `SyntaxDocument`. -/
structure SyntaxDocument where
  source : Bytes
  tokens : List SyntaxToken
  valid : Bool := false
  deriving DecidableEq

structure SyntaxContext where
  context : ParseContext
  tokens : List SyntaxToken := []

namespace SyntaxContext

variable (setup : Setup) (grants : Nat → Bool)

/-- The diagnostic for a `std::bad_alloc` that only `ParseSyntax` catches. -/
def outOfMemory : Failure := .diagnostic { code := .outOfMemory, message := "Failed to allocate XML syntax document" }

/-- `AddSyntax`; `grants` answers the requests of the token list by the number of its tokens. -/
def addSyntax (s : SyntaxContext) (kind : SyntaxKind) (first last : Nat) : Except Failure SyntaxContext :=
  if grants s.tokens.length then .ok { s with tokens := s.tokens ++ [⟨kind, ⟨setup.source, first, last⟩⟩] }
  else .error outOfMemory

/-- A part of the parser that goes past one construct. Its token may be added last: an error before
    it ends the parse, and adding nodes does not move the cursor. -/
def mark (kind : SyntaxKind) (part : ParseContext → Except Failure ParseContext) (s : SyntaxContext) :
    Except Failure SyntaxContext := do
  let ctx ← part s.context
  addSyntax setup grants { s with context := ctx } kind s.context.offset ctx.offset

def parseComment (s : SyntaxContext) (parentElement : Option Nat) : Except Failure SyntaxContext :=
  s.mark setup grants .comment fun ctx => ctx.parseComment setup parentElement

def parseProcessingInstruction (s : SyntaxContext) (parentElement : Option Nat) (declaration : Bool) :
    Except Failure SyntaxContext :=
  s.mark setup grants (if declaration then .xmlDeclaration else .processingInstruction) fun ctx =>
    ctx.parseProcessingInstruction setup parentElement declaration

def parseCData (s : SyntaxContext) (elementIndex : Nat) : Except Failure SyntaxContext :=
  s.mark setup grants .cdata fun ctx => ctx.parseCData setup elementIndex

def parseText (s : SyntaxContext) (elementIndex : Nat) : Except Failure SyntaxContext :=
  s.mark setup grants .text fun ctx => ctx.parseText setup elementIndex

def parseDoctype (s : SyntaxContext) : Except Failure SyntaxContext :=
  s.mark setup grants .doctype fun ctx => do
    let (_, ctx) ← ctx.lex (Cursor.scanDoctype setup.toProfile)
    return ctx

section

variable (parseElement : SyntaxContext → Except Failure (NodeId × SyntaxContext))

def parseItem (s : SyntaxContext) (elementIndex : Nat) : Except Failure SyntaxContext := do
  let c := s.context.cursor
  if c.startsWith [0x3C, 0x21, 0x2D, 0x2D] then s.parseComment setup grants (some elementIndex)
  else if c.startsWith [0x3C, 0x21, 0x5B, 0x43, 0x44, 0x41, 0x54, 0x41, 0x5B] then s.parseCData setup grants elementIndex
  else if c.startsWith [0x3C, 0x3F] then s.parseProcessingInstruction setup grants (some elementIndex) false
  else if c.startsWith [0x3C, 0x21] then
    throw (s.context.errorHere setup .unsupportedConstruct "Unsupported XML declaration inside element")
  else if c.peek = 0x3C then
    let (child, s) ← parseElement s
    let ctx ← s.context.addChild setup elementIndex child
    return { s with context := ctx }
  else s.parseText setup grants elementIndex

def parseEndTag (name : TextRef) (s : SyntaxContext) : Except Failure SyntaxContext :=
  s.mark setup grants .endTag fun ctx => do
    let closeStart := ctx.offset
    let (closeName, ctx) ← ctx.lex (Cursor.scanEndTag setup.toProfile)
    if ctx.memory.text (sourceText closeName.first closeName.bytes.length) ≠ ctx.memory.text name then
      throw (ctx.errorAt setup .mismatchedTag "XML end tag does not match start tag" closeStart ctx.offset)
    else return ctx

def contentLoop (start elementIndex : Nat) (name : TextRef) : Nat → SyntaxContext → Except Failure SyntaxContext
  | 0, _ => .error .fuel
  | fuel + 1, s => do
    if s.context.cursor.rest = [] then
      throw (s.context.errorAt setup .unexpectedEnd "Unterminated XML element" start s.context.memory.source.length)
    else if s.context.cursor.startsWith [0x3C, 0x2F] then s.parseEndTag setup grants name
    else
      let s ← parseItem setup grants parseElement s elementIndex
      contentLoop start elementIndex name fuel s

def parseContent (start elementIndex : Nat) (name : TextRef) (selfClosing : Bool) (s : SyntaxContext) :
    Except Failure SyntaxContext :=
  if selfClosing then .ok s
  else contentLoop setup grants parseElement start elementIndex name (s.context.cursor.rest.length + 1) s

end

/-- The start tag after its `<`: the reference to its name, and whether the tag closes its element. -/
def parseStartTag (start : Nat) (ctx : ParseContext) : Except Failure ((TextRef × Bool) × ParseContext) := do
  let (name, ctx) ← ctx.lex (Cursor.parseName setup.toProfile)
  let (selfClosing, ctx) ←
    ctx.attributeLoop setup start ctx.attributes.length (ctx.cursor.rest.length + 1)
  return ((sourceText name.first name.bytes.length, selfClosing), ctx)

def parseElement : Nat → SyntaxContext → Except Failure (NodeId × SyntaxContext)
  | 0, _ => .error .fuel
  | fuel + 1, s => do
    let start := s.context.offset
    if setup.limits.maxDepth ≤ s.context.depth then
      throw (s.context.errorHere setup .depthExceeded "XML depth limit exceeded")
    else
      let ctx := { s.context with depth := s.context.depth + 1, offset := (s.context.cursor.advance 1).offset }
      let attributeBegin := ctx.attributes.length
      let ((nameRef, selfClosing), ctx) ← parseStartTag setup start ctx
      let s ← addSyntax setup grants { s with context := ctx } .startTag start ctx.offset
      let ctx := s.context
      if 2 ^ 32 - 1 ≤ ctx.elements.length then
        throw (ctx.errorAt setup .limitExceeded "XML element limit exceeded" start ctx.offset)
      else
        let elementIndex := ctx.elements.length
        let ctx ← ctx.allocate setup "XML element allocation failed" start ctx.offset
        let record : ElementRecord :=
          { name := nameRef,
            attributes := ⟨attributeBegin % 2 ^ 32, (ctx.attributes.length - attributeBegin) % 2 ^ 32⟩,
            span := makeSpan start ctx.offset }
        let s := { s with context := { ctx with elements := ctx.elements ++ [record] } }
        let s ← parseContent setup grants (parseElement fuel) start elementIndex nameRef selfClosing s
        let ctx := s.context
        let span := makeSpan start ctx.offset
        let ctx :=
          { ctx with
            depth := ctx.depth - 1
            elements := ctx.elements.modify elementIndex fun element => { element with span } }
        let (id, ctx) ← ctx.addNode setup { kind := .element, name := ⟨elementIndex, 0⟩, span }
        return (id, { s with context := ctx })

def miscLoop (prolog : Bool) : Nat → Bool → SyntaxContext → Except Failure SyntaxContext
  | 0, _, _ => .error .fuel
  | fuel + 1, sawDoctype, before => do
    let s := { before with context := before.context.skipWhitespace }
    let c := s.context.cursor
    if c.startsWith [0x3C, 0x21, 0x2D, 0x2D] then
      let s ← s.parseComment setup grants none
      miscLoop prolog fuel sawDoctype s
    else if c.startsWith [0x3C, 0x3F] then
      let s ← s.parseProcessingInstruction setup grants none false
      miscLoop prolog fuel sawDoctype s
    else if prolog ∧ c.startsWith [0x3C, 0x21, 0x44, 0x4F, 0x43, 0x54, 0x59, 0x50, 0x45] then
      if sawDoctype then
        throw (s.context.errorHere setup .invalidDocumentStructure "XML document contains multiple DOCTYPE declarations")
      else
        let s ← s.parseDoctype setup grants
        miscLoop prolog fuel true s
    else return s

def parseDeclaration (s : SyntaxContext) : Except Failure SyntaxContext :=
  let ctx := s.context
  let ctx :=
    if ctx.cursor.startsWith [0xEF, 0xBB, 0xBF] then { ctx with offset := (ctx.cursor.advance 3).offset } else ctx
  let s := { s with context := ctx }
  if ctx.cursor.isXmlDeclaration then s.parseProcessingInstruction setup grants none true else .ok s

end SyntaxContext

/-- `Writer::Write` of a syntax document; `granted` tells whether the string can be allocated. -/
def SyntaxDocument.write (document : SyntaxDocument) (granted : Bool) : Except WriteDiagnostic Bytes :=
  if document.valid = false then .error ⟨.invalidDocument, "Cannot write an invalid XML syntax document"⟩
  else if granted then .ok document.source
  else .error ⟨.outOfMemory, "XML writer allocation failed"⟩

section

theorem ParseContext.lex_ok {ctx ctx' : ParseContext} {α : Type} {a : α} {read : Cursor → Except Failure (α × Cursor)} (h : ctx.lex read = .ok (a, ctx')) :
    ∃ c, read ctx.cursor = .ok (a, c) ∧ ctx' = { ctx with offset := c.offset } := by
  unfold ParseContext.lex at h
  split at h
  · cases h
  rename_i a c scanned
  cases h
  exact ⟨c, scanned, rfl⟩

namespace SyntaxContext

variable {setup : Setup} {grants : Nat → Bool} {s s' : SyntaxContext}

section

variable {parse : SyntaxContext → Except Failure (NodeId × SyntaxContext)}
  {parse' : ParseContext → Except Failure (NodeId × ParseContext)}
  (same : ∀ s s' id, parse s = .ok (id, s') → parse' s.context = .ok (id, s'.context))

include same

end

end SyntaxContext

open SyntaxContext

end

end NginBase.Xml
