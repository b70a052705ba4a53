import NginBase.Library.Charged
import NginBase.Xml.Lexer

namespace NginBase.Xml

open Library Cursor Nat Charged

/-! Documents as trees, and the grammar both parsers read: a run over an immutable text that returns
the tree and charges for nodes, attributes, children, depth and decoded bytes where the document
parser counts them. -/

inductive LeafKind
  | text
  | cdata
  | comment
  | processingInstruction

def LeafKind.node : LeafKind → NodeKind
  | .text => .text
  | .cdata => .cdata
  | .comment => .comment
  | .processingInstruction => .processingInstruction

/-- An attribute whose texts are of type `τ`. -/
structure Tree.Attribute (τ : Type) where
  name : τ
  value : τ
  span : CompactSpan
  valueSpan : CompactSpan

/-- A node with all that is inside it; `τ` is the type of its texts. -/
inductive Tree (τ : Type)
  | leaf (kind : LeafKind) (name text : τ) (span : CompactSpan)
  | element (name : τ) (attributes : List (Tree.Attribute τ)) (children : List (Tree τ)) (span : CompactSpan)

section

variable {τ : Type} {motive : Tree τ → Prop} (leaf : ∀ kind name text span, motive (.leaf kind name text span))
  (element : ∀ name attributes children span, (∀ child ∈ children, motive child) →
    motive (.element name attributes children span))

include leaf element

mutual

theorem Tree.induct : ∀ tree, motive tree
  | .leaf kind name text span => leaf kind name text span
  | .element name attributes children span => element name attributes children span (Tree.inductChildren children)

theorem Tree.inductChildren : ∀ children : List (Tree τ), ∀ child ∈ children, motive child
  | [], _, mem => absurd mem List.not_mem_nil
  | first :: rest, child, mem =>
    (List.mem_cons.mp mem).elim (fun same => same ▸ Tree.induct first) (Tree.inductChildren rest child)

end

end

def Tree.span {τ : Type} : Tree τ → CompactSpan
  | .leaf _ _ _ span => span
  | .element _ _ _ span => span

/-- What a parse uses of the limits; `deepest` is a maximum, the others are sums. -/
@[ext] structure Cost where
  nodes : Nat := 0
  elements : Nat := 0
  attributes : Nat := 0
  children : Nat := 0
  deepest : Nat := 0
  decoded : Nat := 0

namespace Cost

instance : Zero Cost := ⟨{}⟩

instance : Add Cost :=
  ⟨fun a b => ⟨a.nodes + b.nodes, a.elements + b.elements, a.attributes + b.attributes, a.children + b.children,
    max a.deepest b.deepest, a.decoded + b.decoded⟩⟩

section

variable (a b : Cost)

@[simp] theorem add_nodes : (a + b).nodes = a.nodes + b.nodes := rfl
@[simp] theorem add_elements : (a + b).elements = a.elements + b.elements := rfl
@[simp] theorem add_attributes : (a + b).attributes = a.attributes + b.attributes := rfl
@[simp] theorem add_children : (a + b).children = a.children + b.children := rfl
@[simp] theorem add_deepest : (a + b).deepest = max a.deepest b.deepest := rfl
@[simp] theorem add_decoded : (a + b).decoded = a.decoded + b.decoded := rfl
@[simp] theorem zero_nodes : (0 : Cost).nodes = 0 := rfl
@[simp] theorem zero_elements : (0 : Cost).elements = 0 := rfl
@[simp] theorem zero_attributes : (0 : Cost).attributes = 0 := rfl
@[simp] theorem zero_children : (0 : Cost).children = 0 := rfl
@[simp] theorem zero_deepest : (0 : Cost).deepest = 0 := rfl
@[simp] theorem zero_decoded : (0 : Cost).decoded = 0 := rfl

end

instance : AddCommMonoid Cost where
  add_assoc a b c := by ext <;> simp [add_assoc, max_assoc]
  zero_add a := by ext <;> simp
  add_zero a := by ext <;> simp
  add_comm a b := by ext <;> simp [add_comm, max_comm]
  nsmul := nsmulRec

structure Admitted (limits : ParseLimits) (cost : Cost) : Prop where
  nodes : cost.nodes ≤ limits.maxNodes
  nodeIds : cost.nodes ≤ sentinel
  attributes : cost.attributes ≤ limits.maxMembers
  children : cost.children ≤ limits.maxMembers
  depth : cost.deepest ≤ limits.maxDepth
  decoded : cost.decoded ≤ limits.maxDecodedStringBytes

/-- The limits of the document parser, whose tables have 32-bit indices. -/
structure Stored (limits : ParseLimits) (cost : Cost) : Prop extends Admitted limits cost where
  elementIds : cost.elements ≤ sentinel
  attributeIds : cost.attributes ≤ sentinel
  childIds : cost.children ≤ sentinel

theorem admitted_iff {limits : ParseLimits} {cost : Cost} :
    cost.Admitted limits ↔ cost.nodes ≤ limits.maxNodes ∧ cost.nodes ≤ sentinel ∧ cost.attributes ≤ limits.maxMembers ∧
      cost.children ≤ limits.maxMembers ∧ cost.deepest ≤ limits.maxDepth ∧
      cost.decoded ≤ limits.maxDecodedStringBytes :=
  ⟨fun ⟨a, b, c, d, e, f⟩ => ⟨a, b, c, d, e, f⟩, fun ⟨a, b, c, d, e, f⟩ => ⟨a, b, c, d, e, f⟩⟩

theorem stored_iff {limits : ParseLimits} {cost : Cost} :
    cost.Stored limits ↔ cost.Admitted limits ∧ cost.elements ≤ sentinel ∧ cost.attributes ≤ sentinel ∧
      cost.children ≤ sentinel :=
  ⟨fun ⟨a, b, c, d⟩ => ⟨a, b, c, d⟩, fun ⟨a, b, c, d⟩ => ⟨a, b, c, d⟩⟩

instance (limits : ParseLimits) (cost : Cost) : Decidable (cost.Admitted limits) := decidable_of_iff _ admitted_iff.symm

instance (limits : ParseLimits) (cost : Cost) : Decidable (cost.Stored limits) := decidable_of_iff _ stored_iff.symm

theorem Admitted.less {limits : ParseLimits} (a b : Cost) (whole : (a + b).Admitted limits) : a.Admitted limits where
  nodes := (le_add_right _ _).trans whole.nodes
  nodeIds := (le_add_right _ _).trans whole.nodeIds
  attributes := (le_add_right _ _).trans whole.attributes
  children := (le_add_right _ _).trans whole.children
  depth := (le_max_left _ _).trans whole.depth
  decoded := (le_add_right _ _).trans whole.decoded

theorem Stored.less {limits : ParseLimits} (a b : Cost) (whole : (a + b).Stored limits) : a.Stored limits where
  toAdmitted := whole.toAdmitted.less
  elementIds := (le_add_right _ _).trans whole.elementIds
  attributeIds := (le_add_right _ _).trans whole.attributeIds
  childIds := (le_add_right _ _).trans whole.childIds

end Cost

def documentBudget (limits : ParseLimits) : Budget Cost Cost := .ceiling (Cost.Stored limits) Cost.Stored.less

instance (limits : ParseLimits) (t k : Cost) : Decidable ((documentBudget limits).fits t k) :=
  inferInstanceAs (Decidable ((t + k).Stored limits))

namespace Syntax

variable (profile : Profile)

abbrev Run (α : Type) := Charged Cost Failure α

abbrev TextTree := Tree Bytes

abbrev TextAttribute := Tree.Attribute Bytes

def lex {α : Type} (c : Cursor) (read : Cursor → Except Failure (α × Cursor)) : Run (α × Cursor) := .lift (read c)

def decode (raw : Slice) : Run Bytes := do
  if needsDecode raw.bytes = false then return raw.bytes
  else
    match decodeXmlText raw.bytes with
    | .error e => .fail (errorAt profile e.code e.message (raw.first + e.first) (raw.first + e.last))
    | .ok text =>
      charge { decoded := text.length }
        (errorAt profile .limitExceeded "Decoded XML text limit exceeded" raw.first raw.last)
      return text

def addNode (tree : TextTree) : Run TextTree := do
  charge { nodes := 1 }
    (errorAt profile .limitExceeded "XML node limit exceeded" tree.span.first tree.span.last)
  return tree

def addChild (c : Cursor) (child : TextTree) : Run (List TextTree × Cursor) := do
  charge { children := 1 } (errorAt profile .limitExceeded "XML mem limit exceeded" c.offset c.offset)
  return ([child], c)

def parseComment (c : Cursor) : Run (List TextTree × Cursor) := do
  let (text, after) ← lex c (scanComment profile)
  if profile.options.trivia = .preserve then
    let node ← addNode profile (.leaf .comment [] text.bytes ⟨c.offset, after.offset⟩)
    addChild profile after node
  else return ([], after)

def parseInstruction (c : Cursor) : Run (List TextTree × Cursor) := do
  let ((target, body), after) ← lex c (scanInstruction profile false)
  if profile.options.trivia = .preserve then
    let node ← addNode profile (.leaf .processingInstruction target.bytes body.bytes ⟨c.offset, after.offset⟩)
    addChild profile after node
  else return ([], after)

def parseCData (c : Cursor) : Run (List TextTree × Cursor) := do
  let (text, after) ← lex c (scanCData profile)
  let node ← addNode profile (.leaf .cdata [] text.bytes ⟨c.offset, after.offset⟩)
  addChild profile after node

def parseText (c : Cursor) : Run (List TextTree × Cursor) := do
  let (raw, after) ← lex c (scanText profile)
  if profile.options.trivia = .discard ∧ isWhitespaceOnly raw.bytes then return ([], after)
  else
    let text ← decode profile raw
    let node ← addNode profile (.leaf .text [] text ⟨c.offset, after.offset⟩)
    addChild profile after node

def parseAttribute (attributes : List TextAttribute) (c : Cursor) : Run (TextAttribute × Cursor) := do
  let (name, named) ← lex c (parseName profile)
  match attributes.find? fun earlier => earlier.name = name.bytes with
  | some earlier =>
    .fail (.diagnostic
      { code := .duplicateName, span := ⟨profile.source, name.first, name.last⟩, message := "Duplicate XML attribute",
        related := some ⟨profile.source, earlier.span.first, earlier.span.first + earlier.name.length⟩ })
  | none =>
    let (quote, quoted) ← lex named (scanQuote profile)
    let (raw, closed) ← lex quoted (scanValue profile quote)
    let value ← decode profile raw
    let after := closed.advance 1
    charge { attributes := 1 }
      (errorAt profile .limitExceeded "XML mem limit exceeded" c.offset after.offset)
    return (⟨name.bytes, value, ⟨c.offset, after.offset⟩, ⟨raw.first, raw.last⟩⟩, after)

def attributeLoop (start : Nat) :
    Nat → List TextAttribute → Cursor → Run ((List TextAttribute × Bool) × Cursor)
  | 0, _, _ => .fail .fuel
  | fuel + 1, attributes, before => do
    let c := before.skipWhitespace
    if c.startsWith [0x2F, 0x3E] then return ((attributes, true), c.advance 2)
    else if c.peek = 0x3E then return ((attributes, false), c.advance 1)
    else if c.offset = before.offset then
      .fail (c.errorHere profile .invalidToken "XML attributes must be separated by whitespace")
    else if c.rest = [] then .fail (errorAt profile .unexpectedEnd "Unterminated XML start tag" start c.size)
    else
      let (entry, after) ← parseAttribute profile attributes c
      attributeLoop start fuel (attributes ++ [entry]) after

section

variable (parseElement : Cursor → Run (TextTree × Cursor))

def parseItem (c : Cursor) : Run (List TextTree × Cursor) := do
  if c.startsWith [0x3C, 0x21, 0x2D, 0x2D] then parseComment profile c
  else if c.startsWith [0x3C, 0x21, 0x5B, 0x43, 0x44, 0x41, 0x54, 0x41, 0x5B] then parseCData profile c
  else if c.startsWith [0x3C, 0x3F] then parseInstruction profile c
  else if c.startsWith [0x3C, 0x21] then
    .fail (c.errorHere profile .unsupportedConstruct "Unsupported XML declaration inside element")
  else if c.peek = 0x3C then
    let (child, after) ← parseElement c
    addChild profile after child
  else parseText profile c

def contentLoop (start : Nat) (name : Bytes) : Nat → List TextTree → Cursor → Run (List TextTree × Cursor)
  | 0, _, _ => .fail .fuel
  | fuel + 1, trees, c => do
    if c.rest = [] then .fail (errorAt profile .unexpectedEnd "Unterminated XML element" start c.size)
    else if c.startsWith [0x3C, 0x2F] then
      let (closeName, after) ← lex c (scanEndTag profile)
      if closeName.bytes ≠ name then
        .fail (errorAt profile .mismatchedTag "XML end tag does not match start tag" c.offset after.offset)
      else return (trees, after)
    else
      let (more, after) ← parseItem profile parseElement c
      contentLoop start name fuel (trees ++ more) after

def parseContent (start : Nat) (name : Bytes) (selfClosing : Bool) (c : Cursor) : Run (List TextTree × Cursor) :=
  if selfClosing then return ([], c) else contentLoop profile parseElement start name (c.rest.length + 1) [] c

end

def parseElement : Nat → Nat → Cursor → Run (TextTree × Cursor)
  | 0, _, _ => .fail .fuel
  | fuel + 1, depth, c => do
    charge { deepest := depth + 1 } (c.errorHere profile .depthExceeded "XML depth limit exceeded")
    let (name, named) ← lex (c.advance 1) (parseName profile)
    let ((attributes, selfClosing), tagged) ← attributeLoop profile c.offset (named.rest.length + 1) [] named
    charge { elements := 1 } (errorAt profile .limitExceeded "XML element limit exceeded" c.offset tagged.offset)
    let (children, after) ←
      parseContent profile (parseElement fuel (depth + 1)) c.offset name.bytes selfClosing tagged
    let node ← addNode profile (.element name.bytes attributes children ⟨c.offset, after.offset⟩)
    return (node, after)

/-- Comments and processing instructions outside the root and, before it, one `DOCTYPE`. -/
def miscLoop (prolog : Bool) : Nat → Bool → Cursor → Run (Unit × Cursor)
  | 0, _, _ => .fail .fuel
  | fuel + 1, sawDoctype, before => do
    let c := before.skipWhitespace
    if c.startsWith [0x3C, 0x21, 0x2D, 0x2D] then
      let (_, after) ← lex c (scanComment profile)
      miscLoop prolog fuel sawDoctype after
    else if c.startsWith [0x3C, 0x3F] then
      let (_, after) ← lex c (scanInstruction profile false)
      miscLoop prolog fuel sawDoctype after
    else if prolog ∧ c.startsWith [0x3C, 0x21, 0x44, 0x4F, 0x43, 0x54, 0x59, 0x50, 0x45] then
      if sawDoctype then
        .fail (c.errorHere profile .invalidDocumentStructure "XML document contains multiple DOCTYPE declarations")
      else
        let (_, after) ← lex c (scanDoctype profile)
        miscLoop prolog fuel true after
    else return ((), c)

def parseDeclaration (c : Cursor) : Run (Unit × Cursor) := do
  let c := if c.startsWith [0xEF, 0xBB, 0xBF] then c.advance 3 else c
  if c.isXmlDeclaration then
    let (_, after) ← lex c (scanInstruction profile true)
    return ((), after)
  else return ((), c)

def parseDocument (c : Cursor) : Run (TextTree × Cursor) := do
  let (_, c) ← parseDeclaration profile c
  let (_, c) ← miscLoop profile true (c.rest.length + 1) false c
  if c.peek ≠ 0x3C ∨ c.startsWith [0x3C, 0x2F] then
    .fail (c.errorHere profile .invalidDocumentStructure "XML document requires one root element")
  else
    let (root, c) ← parseElement profile (c.rest.length + 1) 0 c
    let (_, c) ← miscLoop profile false (c.rest.length + 1) false c
    if c.rest ≠ [] then
      .fail (c.errorHere profile .invalidDocumentStructure "Content is not allowed after the XML root element")
    else return (root, c)

def parse (input : Bytes) : Run TextTree := do
  let errorAt code message := errorAt profile code message 0 input.length
  if profile.limits.maxInputBytes < input.length then .fail (errorAt .limitExceeded "XML input byte limit exceeded")
  else if decodedBit ≤ input.length then
    .fail (errorAt .limitExceeded "XML input exceeds the compact DOM address space")
  else if isValidXmlUtf8 input = false then
    .fail (errorAt .invalidEncoding "XML input is not valid XML 1.0 UTF-8")
  else
    let (root, _) ← parseDocument profile { rest := input }
    return root

end Syntax

end NginBase.Xml
