import NginBase.Xml.Syntax

namespace NginBase.Xml

open Library Cursor

/-! The document parser: recursive descent into tables of nodes, elements and attributes, with the
children of an element linked as they are read. -/

inductive Ownership
  | owned
  | inSitu
  | borrowed
  deriving DecidableEq

/-- What allocators and containers answer, by the number of earlier requests: whether a request is
    granted, whether the budget was exceeded when it is not, and the bytes `MemoryCommitted` reports. -/
structure Resources where
  grants : Nat → Bool
  exceeded : Nat → Bool
  committed : Nat → Nat

structure Setup extends Profile where
  ownership : Ownership := .owned
  resources : Resources := { grants := fun _ => true, exceeded := fun _ => false, committed := fun _ => 0 }

/-- Some request of this parse is refused, or reports more memory than the limit. -/
def Setup.Scarce (setup : Setup) : Prop :=
  ∃ n, setup.resources.grants n = false ∨ setup.limits.maxTotalMemoryBytes < setup.resources.committed n

/-- The texts that references point into: the source, which in-situ parsing overwrites, and the
    decoded texts in the arena. -/
structure Memory where
  source : Bytes
  decoded : List Bytes := []

def Memory.text (m : Memory) (ref : TextRef) : Bytes :=
  if ref.length = 0 then []
  else if decodedBit ≤ ref.offsetOrId then ((m.decoded[ref.offsetOrId - decodedBit]?).getD []).take ref.length
  else if ref.offsetOrId + ref.length ≤ m.source.length then (m.source.drop ref.offsetOrId).take ref.length
  else []

def sourceText (offset length : Nat) : TextRef := ⟨offset % 2 ^ 32, length % 2 ^ 32⟩

def storeSource (view : Slice) : TextRef :=
  if view.bytes = [] then {} else ⟨view.first % 2 ^ 32, view.bytes.length % 2 ^ 32⟩

def makeSpan (first last : Nat) : CompactSpan := ⟨first % 2 ^ 32, last % 2 ^ 32⟩

structure Document where
  memory : Memory
  nodes : List NodeRecord
  elements : List ElementRecord
  attributes : List AttributeRecord
  root : NodeId

structure ParseContext where
  memory : Memory
  offset : Nat := 0
  depth : Nat := 0
  decodedBytes : Nat := 0
  requests : Nat := 0
  nodes : List NodeRecord := []
  elements : List ElementRecord := []
  attributes : List AttributeRecord := []
  childCount : Nat := 0

namespace ParseContext

variable (setup : Setup)

def cursor (ctx : ParseContext) : Cursor := ⟨ctx.offset, ctx.memory.source.drop ctx.offset⟩

def located (ctx : ParseContext) : Failure → Failure
  | .diagnostic d => .diagnostic { d with location := locate ctx.memory.source d.span.first }
  | .fuel => .fuel

def errorAt (ctx : ParseContext) (code : ParseErrorCode) (message : String) (first last : Nat) : Failure :=
  ctx.located (Xml.errorAt setup.toProfile code message first last)

def errorHere (ctx : ParseContext) (code : ParseErrorCode) (message : String) : Failure :=
  ctx.located (ctx.cursor.errorHere setup.toProfile code message)

def lex {α : Type} (ctx : ParseContext) (read : Cursor → Except Failure (α × Cursor)) :
    Except Failure (α × ParseContext) :=
  match read ctx.cursor with
  | .error e => .error (ctx.located e)
  | .ok (a, c) => .ok (a, { ctx with offset := c.offset })

def skipWhitespace (ctx : ParseContext) : ParseContext := { ctx with offset := ctx.cursor.skipWhitespace.offset }

/-- One request to an allocator or a container that may throw `std::bad_alloc`; a refusal becomes
    `MakeAllocationError`. -/
def allocate (ctx : ParseContext) (message : String) (first last : Nat) : Except Failure ParseContext :=
  if setup.resources.grants ctx.requests then .ok { ctx with requests := ctx.requests + 1 }
  else
    .error (ctx.errorAt setup (if setup.resources.exceeded ctx.requests then .limitExceeded else .outOfMemory)
      message first last)

def checkDecoded (ctx : ParseContext) (raw : Slice) (size : Nat) : Except Failure Unit :=
  if setup.limits.maxDecodedStringBytes < ctx.decodedBytes ∨
      setup.limits.maxDecodedStringBytes - ctx.decodedBytes < size then
    .error (ctx.errorAt setup .limitExceeded "Decoded XML text limit exceeded" raw.first raw.last)
  else .ok ()

def entityError (ctx : ParseContext) (raw : Slice) (e : LexError) : Failure :=
  ctx.errorAt setup e.code e.message (raw.first + e.first) (raw.first + e.last)

/-- `DecodeText` over the source itself: the loop reads and writes the same bytes. -/
def decodeInSitu (ctx : ParseContext) (raw : Slice) : Except Failure (TextRef × ParseContext) :=
  let size := raw.bytes.length
  let run := transduce (fun source => source.drop raw.first)
    (fun source written cells => overwrite source (raw.first + written) cells) (decodeStep size) size
    ctx.memory.source 0 size 0
  match run with
  | .error (e, source) => .error ({ ctx with memory := { ctx.memory with source } }.entityError setup raw e)
  | .ok (source, length) => do
    let ctx := { ctx with memory := { ctx.memory with source } }
    ctx.checkDecoded setup raw length
    return (sourceText raw.first length, { ctx with decodedBytes := ctx.decodedBytes + length })

/-- `DecodeText` through the scratch storage into the arena. -/
def decodeCopy (refused : String) (ctx : ParseContext) (raw : Slice) : Except Failure (TextRef × ParseContext) := do
  if setup.resources.grants ctx.requests = false then
    throw (ctx.errorAt setup .outOfMemory "XML entity decoding allocation failed" raw.first raw.last)
  else
    let ctx := { ctx with requests := ctx.requests + 1 }
    match decodeXmlText raw.bytes with
    | .error e => throw (ctx.entityError setup raw e)
    | .ok text =>
      ctx.checkDecoded setup raw text.length
      if text = [] then return ({}, ctx)
      else
        let ctx ← ctx.allocate setup refused raw.first raw.last
        let ctx := { ctx with decodedBytes := ctx.decodedBytes + text.length }
        if decodedBit ≤ ctx.memory.decoded.length then
          throw (ctx.errorAt setup (if setup.resources.exceeded ctx.requests then .limitExceeded else .outOfMemory)
            refused raw.first raw.last)
        else
          let ctx ← ctx.allocate setup refused raw.first raw.last
          return (⟨decodedBit + ctx.memory.decoded.length, text.length % 2 ^ 32⟩,
            { ctx with memory := { ctx.memory with decoded := ctx.memory.decoded ++ [text] } })

def decodeText (refused : String) (ctx : ParseContext) (raw : Slice) : Except Failure (TextRef × ParseContext) :=
  if needsDecode raw.bytes = false then .ok (sourceText raw.first raw.bytes.length, ctx)
  else if setup.ownership = .inSitu then decodeInSitu setup ctx raw
  else decodeCopy setup refused ctx raw

def addNode (ctx : ParseContext) (node : NodeRecord) : Except Failure (NodeId × ParseContext) := do
  if setup.limits.maxNodes ≤ ctx.nodes.length ∨ 2 ^ 32 - 1 ≤ ctx.nodes.length then
    throw (ctx.errorAt setup .limitExceeded "XML node limit exceeded" node.span.first node.span.last)
  else
    let id := ctx.nodes.length
    let ctx ← ctx.allocate setup "XML node allocation failed" node.span.first node.span.last
    return (id, { ctx with nodes := ctx.nodes ++ [node] })

def addChild (ctx : ParseContext) (elementIndex : Nat) (child : NodeId) : Except Failure ParseContext :=
  match ctx.elements[elementIndex]? with
  | none => .error (ctx.errorAt setup .limitExceeded "XML mem limit exceeded" ctx.offset ctx.offset)
  | some element =>
    if setup.limits.maxMembers ≤ ctx.childCount ∨ 2 ^ 32 - 1 ≤ ctx.childCount then
      .error (ctx.errorAt setup .limitExceeded "XML mem limit exceeded" ctx.offset ctx.offset)
    else
      -- until the closing tag, `span.last` holds the id of the last child
      let linked : Option (List NodeRecord × Nat) :=
        if element.children.count = 0 then some (ctx.nodes, child)
        else
          (nodeAt ctx.nodes element.span.last).map fun _ =>
            (ctx.nodes.modify element.span.last fun node => { node with nextSibling := child }, element.children.first)
      match linked with
      | none => .error (ctx.errorHere setup .invalidDocumentStructure "XML child chain is invalid")
      | some (nodes, first) =>
        let element :=
          { element with
            children := ⟨first, element.children.count + 1⟩, span := ⟨element.span.first, child⟩ }
        .ok { ctx with
          nodes, elements := ctx.elements.set elementIndex element, childCount := ctx.childCount + 1 }

def addLeaf (ctx : ParseContext) (elementIndex : Nat) (node : NodeRecord) : Except Failure ParseContext := do
  let (id, ctx) ← ctx.addNode setup node
  ctx.addChild setup elementIndex id

def parseComment (ctx : ParseContext) (parentElement : Option Nat) : Except Failure ParseContext := do
  let start := ctx.offset
  let (text, ctx) ← ctx.lex (scanComment setup.toProfile)
  match parentElement with
  | some elementIndex =>
    if setup.options.trivia = .preserve then
      ctx.addLeaf setup elementIndex
        { kind := .comment, text := storeSource text, span := makeSpan start ctx.offset }
    else return ctx
  | none => return ctx

def parseProcessingInstruction (ctx : ParseContext) (parentElement : Option Nat) (declaration : Bool) :
    Except Failure ParseContext := do
  let start := ctx.offset
  let ((target, body), ctx) ← ctx.lex (scanInstruction setup.toProfile declaration)
  match parentElement with
  | some elementIndex =>
    if setup.options.trivia = .preserve then
      ctx.addLeaf setup elementIndex
        { kind := .processingInstruction, name := sourceText target.first target.bytes.length,
          text := storeSource body, span := makeSpan start ctx.offset }
    else return ctx
  | none => return ctx

def parseCData (ctx : ParseContext) (elementIndex : Nat) : Except Failure ParseContext := do
  let start := ctx.offset
  let (text, ctx) ← ctx.lex (scanCData setup.toProfile)
  ctx.addLeaf setup elementIndex { kind := .cdata, text := storeSource text, span := makeSpan start ctx.offset }

def parseText (ctx : ParseContext) (elementIndex : Nat) : Except Failure ParseContext := do
  let start := ctx.offset
  let (raw, ctx) ← ctx.lex (scanText setup.toProfile)
  if setup.options.trivia = .discard ∧ isWhitespaceOnly raw.bytes then return ctx
  else
    let (text, ctx) ← ctx.decodeText setup "XML text allocation failed" raw
    ctx.addLeaf setup elementIndex { kind := .text, text, span := makeSpan start ctx.offset }

/-- One attribute of a start tag at `start` whose attributes begin at `attributeBegin`. -/
def parseAttribute (ctx : ParseContext) (start attributeBegin : Nat) : Except Failure ParseContext := do
  let attributeStart := ctx.offset
  let (name, ctx) ← ctx.lex (parseName setup.toProfile)
  let nameRef := sourceText name.first name.bytes.length
  match (ctx.attributes.drop attributeBegin).find? fun previous =>
      ctx.memory.text previous.name = ctx.memory.text nameRef with
  | some previous =>
    let error := ctx.located (.diagnostic
      { code := .duplicateName, span := ⟨setup.source, name.first, name.last⟩, message := "Duplicate XML attribute",
        related := some
          (if decodedBit ≤ previous.name.offsetOrId then {}
          else ⟨setup.source, previous.name.offsetOrId, previous.name.offsetOrId + previous.name.length⟩) })
    throw error
  | none =>
    let (quote, ctx) ← ctx.lex (scanQuote setup.toProfile)
    let (raw, ctx) ← ctx.lex (scanValue setup.toProfile quote)
    let (value, ctx) ← ctx.decodeText setup "XML attribute value allocation failed" raw
    let ctx := { ctx with offset := (ctx.cursor.advance 1).offset }
    if setup.limits.maxMembers ≤ ctx.attributes.length ∨ 2 ^ 32 - 1 ≤ ctx.attributes.length then
      throw (ctx.errorAt setup .limitExceeded "XML mem limit exceeded" attributeStart ctx.offset)
    else
      let ctx ← ctx.allocate setup "XML attribute allocation failed" start ctx.offset
      let entry : AttributeRecord :=
        { name := nameRef, value, span := makeSpan attributeStart ctx.offset, valueSpan := makeSpan raw.first raw.last }
      return { ctx with attributes := ctx.attributes ++ [entry] }

/-- The loop over the attributes of a start tag, which tells whether the tag closes its element. -/
def attributeLoop (start attributeBegin : Nat) : Nat → ParseContext → Except Failure (Bool × ParseContext)
  | 0, _ => .error .fuel
  | fuel + 1, before => do
    let ctx := before.skipWhitespace
    if ctx.cursor.startsWith [0x2F, 0x3E] then return (true, { ctx with offset := (ctx.cursor.advance 2).offset })
    else if ctx.cursor.peek = 0x3E then return (false, { ctx with offset := (ctx.cursor.advance 1).offset })
    else if ctx.offset = before.offset then
      throw (ctx.errorHere setup .invalidToken "XML attributes must be separated by whitespace")
    else if ctx.cursor.rest = [] then
      throw (ctx.errorAt setup .unexpectedEnd "Unterminated XML start tag" start ctx.memory.source.length)
    else
      let ctx ← ctx.parseAttribute setup start attributeBegin
      attributeLoop start attributeBegin fuel ctx

section

variable (parseElement : ParseContext → Except Failure (NodeId × ParseContext))

def parseItem (ctx : ParseContext) (elementIndex : Nat) : Except Failure ParseContext := do
  let c := ctx.cursor
  if c.startsWith [0x3C, 0x21, 0x2D, 0x2D] then ctx.parseComment setup (some elementIndex)
  else if c.startsWith [0x3C, 0x21, 0x5B, 0x43, 0x44, 0x41, 0x54, 0x41, 0x5B] then ctx.parseCData setup elementIndex
  else if c.startsWith [0x3C, 0x3F] then ctx.parseProcessingInstruction setup (some elementIndex) false
  else if c.startsWith [0x3C, 0x21] then
    throw (ctx.errorHere setup .unsupportedConstruct "Unsupported XML declaration inside element")
  else if c.peek = 0x3C then
    let (child, ctx) ← parseElement ctx
    ctx.addChild setup elementIndex child
  else ctx.parseText setup elementIndex

def contentLoop (start elementIndex : Nat) (name : TextRef) : Nat → ParseContext → Except Failure ParseContext
  | 0, _ => .error .fuel
  | fuel + 1, ctx => do
    if ctx.cursor.rest = [] then
      throw (ctx.errorAt setup .unexpectedEnd "Unterminated XML element" start ctx.memory.source.length)
    else if ctx.cursor.startsWith [0x3C, 0x2F] then
      let closeStart := ctx.offset
      let (closeName, ctx) ← ctx.lex (scanEndTag setup.toProfile)
      if ctx.memory.text (sourceText closeName.first closeName.bytes.length) ≠ ctx.memory.text name then
        throw (ctx.errorAt setup .mismatchedTag "XML end tag does not match start tag" closeStart ctx.offset)
      else return ctx
    else
      let ctx ← parseItem setup parseElement ctx elementIndex
      contentLoop start elementIndex name fuel ctx

def parseContent (start elementIndex : Nat) (name : TextRef) (selfClosing : Bool) (ctx : ParseContext) :
    Except Failure ParseContext :=
  if selfClosing then .ok ctx
  else contentLoop setup parseElement start elementIndex name (ctx.cursor.rest.length + 1) ctx

end

def parseElement : Nat → ParseContext → Except Failure (NodeId × ParseContext)
  | 0, _ => .error .fuel
  | fuel + 1, ctx => do
    let start := ctx.offset
    if setup.limits.maxDepth ≤ ctx.depth then
      throw (ctx.errorHere setup .depthExceeded "XML depth limit exceeded")
    else
      let ctx := { ctx with depth := ctx.depth + 1, offset := (ctx.cursor.advance 1).offset }
      let (name, ctx) ← ctx.lex (parseName setup.toProfile)
      let nameRef := sourceText name.first name.bytes.length
      let attributeBegin := ctx.attributes.length
      let (selfClosing, ctx) ← attributeLoop setup start attributeBegin (ctx.cursor.rest.length + 1) ctx
      if 2 ^ 32 - 1 ≤ ctx.elements.length then
        throw (ctx.errorAt setup .limitExceeded "XML element limit exceeded" start ctx.offset)
      else
        let elementIndex := ctx.elements.length
        let ctx ← ctx.allocate setup "XML element allocation failed" start ctx.offset
        let record : ElementRecord :=
          { name := nameRef,
            attributes := ⟨attributeBegin % 2 ^ 32, (ctx.attributes.length - attributeBegin) % 2 ^ 32⟩,
            span := makeSpan start ctx.offset }
        let ctx := { ctx with elements := ctx.elements ++ [record] }
        let ctx ← parseContent setup (parseElement fuel) start elementIndex nameRef selfClosing ctx
        let span := makeSpan start ctx.offset
        let ctx :=
          { ctx with
            depth := ctx.depth - 1
            elements := ctx.elements.modify elementIndex fun element => { element with span } }
        ctx.addNode setup { kind := .element, name := ⟨elementIndex, 0⟩, span }

def miscLoop (prolog : Bool) : Nat → Bool → ParseContext → Except Failure ParseContext
  | 0, _, _ => .error .fuel
  | fuel + 1, sawDoctype, before => do
    let ctx := before.skipWhitespace
    let c := ctx.cursor
    if c.startsWith [0x3C, 0x21, 0x2D, 0x2D] then
      let ctx ← ctx.parseComment setup none
      miscLoop prolog fuel sawDoctype ctx
    else if c.startsWith [0x3C, 0x3F] then
      let ctx ← ctx.parseProcessingInstruction setup none false
      miscLoop prolog fuel sawDoctype ctx
    else if prolog ∧ c.startsWith [0x3C, 0x21, 0x44, 0x4F, 0x43, 0x54, 0x59, 0x50, 0x45] then
      if sawDoctype then
        throw (ctx.errorHere setup .invalidDocumentStructure "XML document contains multiple DOCTYPE declarations")
      else
        let (_, ctx) ← ctx.lex (scanDoctype setup.toProfile)
        miscLoop prolog fuel true ctx
    else return ctx

def parseDeclaration (ctx : ParseContext) : Except Failure ParseContext :=
  let ctx :=
    if ctx.cursor.startsWith [0xEF, 0xBB, 0xBF] then { ctx with offset := (ctx.cursor.advance 3).offset } else ctx
  if ctx.cursor.isXmlDeclaration then ctx.parseProcessingInstruction setup none true else .ok ctx

def document (ctx : ParseContext) (root : NodeId) : Document :=
  ⟨ctx.memory, ctx.nodes, ctx.elements, ctx.attributes, root⟩

end ParseContext

def parseState (setup : Setup) (ctx : ParseContext) : Except Failure Document := do
  let size := ctx.memory.source.length
  if setup.limits.maxInputBytes < size then
    throw (ctx.errorAt setup .limitExceeded "XML input byte limit exceeded" 0 size)
  else if decodedBit ≤ size then
    throw (ctx.errorAt setup .limitExceeded "XML input exceeds the compact DOM address space" 0 size)
  else if isValidXmlUtf8 ctx.memory.source = false then
    throw (ctx.errorAt setup .invalidEncoding "XML input is not valid XML 1.0 UTF-8" 0 size)
  else
    let ctx ← ctx.parseDeclaration setup
    let ctx ← ctx.miscLoop setup true (ctx.cursor.rest.length + 1) false
    if ctx.cursor.peek ≠ 0x3C ∨ ctx.cursor.startsWith [0x3C, 0x2F] then
      throw (ctx.errorHere setup .invalidDocumentStructure "XML document requires one root element")
    else
      let (root, ctx) ← ctx.parseElement setup (ctx.cursor.rest.length + 1)
      let ctx ← ctx.miscLoop setup false (ctx.cursor.rest.length + 1) false
      if ctx.cursor.rest ≠ [] then
        throw (ctx.errorHere setup .invalidDocumentStructure "Content is not allowed after the XML root element")
      else if setup.limits.maxTotalMemoryBytes < setup.resources.committed ctx.requests then
        throw (ctx.errorAt setup .limitExceeded "XML total memory limit exceeded" 0 size)
      else return ctx.document root

/-- The three entry points: they differ in who owns the text and in the message of a failure to
    allocate the document itself. -/
def parseWith (setup : Setup) (message : String) (input : Bytes) : Except Failure Document :=
  if setup.resources.grants 0 then parseState setup { memory := { source := input }, requests := 1 }
  else .error (.diagnostic { code := .outOfMemory, message })

namespace Parser

variable (setup : Setup)

def parse (input : Bytes) : Except Failure Document :=
  parseWith { setup with ownership := .owned } "Failed to allocate XML document" input

def parseInSitu (input : Bytes) : Except Failure Document :=
  parseWith { setup with ownership := .inSitu } "Failed to allocate in-situ XML document" input

def parseBorrowed (input : Bytes) : Except Failure Document :=
  parseWith { setup with ownership := .borrowed } "Failed to allocate borrowed XML document" input

end Parser

end NginBase.Xml
