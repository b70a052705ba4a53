import NginBase.Serialization.Core

namespace NginBase.Xml

/-! The tables of a document and the characters its names and texts are made of. -/

inductive TriviaPolicy
  | discard
  | preserve
  deriving DecidableEq

inductive DoctypePolicy
  | reject
  | allowWithoutExternalEntities
  deriving DecidableEq

structure ParseOptions where
  trivia : TriviaPolicy := .discard
  doctype : DoctypePolicy := .reject

inductive NodeKind
  | element
  | text
  | cdata
  | comment
  | processingInstruction
  deriving DecidableEq

/-- The greatest `UInt32`: no node has this id, and it ends every chain of siblings. -/
def sentinel : Nat := 2 ^ 32 - 1

abbrev NodeId := Nat

structure CompactSpan where
  first : Nat := 0
  last : Nat := 0

/-- A text of the source by its offset, or a decoded text by its number; the highest bit of the
    first field tells which. -/
structure TextRef where
  offsetOrId : Nat := 0
  length : Nat := 0

def decodedBit : Nat := 2 ^ 31

structure TableRange where
  first : Nat := 0
  count : Nat := 0

structure SiblingRange where
  first : Nat := sentinel
  count : Nat := 0

/-- A node; that of an element holds the index of its record in `name.offsetOrId`. -/
structure NodeRecord where
  kind : NodeKind := .text
  nextSibling : Nat := sentinel
  name : TextRef := {}
  text : TextRef := {}
  span : CompactSpan := {}

structure AttributeRecord where
  name : TextRef := {}
  value : TextRef := {}
  span : CompactSpan := {}
  valueSpan : CompactSpan := {}

structure ElementRecord where
  name : TextRef := {}
  attributes : TableRange := {}
  children : SiblingRange := {}
  span : CompactSpan := {}

def nodeAt (nodes : List NodeRecord) (id : NodeId) : Option NodeRecord :=
  if id = sentinel then none else nodes[id]?

/-- The nodes visited from `first` along `nextSibling`, up to the sentinel. -/
def Chain (nodes : List NodeRecord) : Nat → List NodeId → Prop
  | first, [] => first = sentinel
  | first, id :: rest => first = id ∧ ∃ node, nodeAt nodes id = some node ∧ Chain nodes node.nextSibling rest

def isNameStart (b : UInt8) : Bool :=
  b = 0x3A || b = 0x5F || (0x41 ≤ b && b ≤ 0x5A) || (0x61 ≤ b && b ≤ 0x7A) || 0x80 ≤ b

def isNameContinue (b : UInt8) : Bool :=
  isNameStart b || b = 0x2D || b = 0x2E || (0x30 ≤ b && b ≤ 0x39)

def isXmlCharacter (value : Nat) : Bool :=
  value = 0x09 || value = 0x0A || value = 0x0D || (0x20 ≤ value && value ≤ 0xD7FF) ||
    (0xE000 ≤ value && value ≤ 0xFFFD) || (0x10000 ≤ value && value ≤ 0x10FFFF)

def isName (name : Bytes) : Bool :=
  match name with
  | [] => false
  | first :: rest => Unicode.isValidUtf8 name && isNameStart first && rest.all isNameContinue

/-- The loop of `IsXmlText`; every round consumes at least one byte. -/
def xmlTextLoop : Nat → Bytes → Bool
  | 0, text => text.isEmpty
  | fuel + 1, text =>
    if text = [] then true
    else
      let decoded := Unicode.decodeUtf8 text
      if decoded.error ≠ .none ∨ isXmlCharacter decoded.codePoint = false then false
      else xmlTextLoop fuel (text.drop decoded.unitsConsumed)

def isXmlText (text : Bytes) : Bool := xmlTextLoop text.length text

/-- The name `xml` in any case, which no processing instruction may have as its target. -/
def reservedXml (target : Bytes) : Bool :=
  match target with
  | [x, m, l] => (x = 0x78 || x = 0x58) && (m = 0x6D || m = 0x4D) && (l = 0x6C || l = 0x4C)
  | _ => false

end NginBase.Xml
