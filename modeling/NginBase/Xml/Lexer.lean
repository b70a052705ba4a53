import NginBase.Library.Search
import NginBase.Library.Transducer
import NginBase.Xml.Types

namespace NginBase.Xml

open Library

/-- What decides the result of a parse besides the text. -/
structure Profile where
  source : SourceId := 0
  options : ParseOptions := {}
  limits : ParseLimits := {}

structure Cursor where
  offset : Nat := 0
  rest : Bytes

structure Slice where
  first : Nat
  bytes : Bytes

def Slice.last (s : Slice) : Nat := s.first + s.bytes.length

namespace Cursor

def advance (c : Cursor) (count : Nat) : Cursor := ⟨c.offset + min count c.rest.length, c.rest.drop count⟩

def size (c : Cursor) : Nat := c.offset + c.rest.length

def startsWith (c : Cursor) (value : Bytes) : Bool := value.isPrefixOf c.rest

def peek (c : Cursor) : UInt8 := peekByte c.rest

def skipWhitespace (c : Cursor) : Cursor := c.advance (whitespaceLength c.rest)

def isXmlDeclaration (c : Cursor) : Bool :=
  c.startsWith [0x3C, 0x3F, 0x78, 0x6D, 0x6C] && isWhitespace (peekByte c.rest 5)

end Cursor

variable (profile : Profile)

/-- The diagnostic of `MakeErrorAt`, without its line and column. -/
def errorAt (code : ParseErrorCode) (message : String) (first last : Nat) : Failure :=
  .diagnostic { code, span := ⟨profile.source, first, last⟩, message }

namespace Cursor

def errorHere (c : Cursor) (code : ParseErrorCode) (message : String) : Failure :=
  errorAt profile code message c.offset (min (c.offset + 1) c.size)

def parseName (c : Cursor) : Except Failure (Slice × Cursor) :=
  if isNameStart c.peek = false then .error (c.errorHere profile .invalidToken "Expected an XML name")
  else
    let length := 1 + ((c.rest.drop 1).takeWhile isNameContinue).length
    .ok (⟨c.offset, c.rest.take length⟩, c.advance length)

def scanComment (c : Cursor) : Except Failure (Slice × Cursor) :=
  let text := c.advance 4
  match find [0x2D, 0x2D, 0x3E] text.rest with
  | none => .error (errorAt profile .unexpectedEnd "Unterminated XML comment" c.offset c.size)
  | some close =>
    let body : Slice := ⟨text.offset, text.rest.take close⟩
    if (find [0x2D, 0x2D] body.bytes).isSome ∨ body.bytes.getLast? = some 0x2D then
      .error (errorAt profile .invalidToken "XML comments cannot contain '--' or end with '-'" body.first body.last)
    else .ok (body, text.advance (close + 3))

/-- A processing instruction or, when `declaration`, the XML declaration: its target and its body. -/
def scanInstruction (declaration : Bool) (c : Cursor) : Except Failure ((Slice × Slice) × Cursor) :=
  match (c.advance 2).parseName profile with
  | .error e => .error e
  | .ok (target, after) =>
    if (declaration ∧ target.bytes ≠ [0x78, 0x6D, 0x6C]) ∨ (declaration = false ∧ reservedXml target.bytes) then
      .error (errorAt profile .invalidToken "The XML processing-instruction target 'xml' is reserved" c.offset after.offset)
    else
      match find [0x3F, 0x3E] after.rest with
      | none => .error (errorAt profile .unexpectedEnd "Unterminated XML processing instruction" c.offset c.size)
      | some close =>
        let body : Slice := ⟨after.offset, after.rest.take close⟩
        -- the word "version" must occur in a declaration
        if declaration ∧ (body.bytes = [] ∨ isWhitespace (peekByte body.bytes) = false ∨
            find [0x76, 0x65, 0x72, 0x73, 0x69, 0x6F, 0x6E] body.bytes = none) then
          .error (errorAt profile .invalidToken "XML declaration requires a version pseudo-attribute" c.offset
            (after.offset + close + 2))
        else .ok ((target, body), after.advance (close + 2))

/-- The loop of `ParseDoctype`: how many bytes up to the `>` outside quotes and brackets. -/
def doctypeLength : Bytes → Bool → Bool → Nat → Option Nat
  | [], _, _, _ => none
  | value :: rest, inSingle, inDouble, subsetDepth =>
    let more inSingle inDouble subsetDepth := (doctypeLength rest inSingle inDouble subsetDepth).map (· + 1)
    if value = 0x27 ∧ inDouble = false then more (!inSingle) inDouble subsetDepth
    else if value = 0x22 ∧ inSingle = false then more inSingle (!inDouble) subsetDepth
    else if inSingle = false ∧ inDouble = false then
      if value = 0x5B then more inSingle inDouble (subsetDepth + 1)
      else if value = 0x5D ∧ 0 < subsetDepth then more inSingle inDouble (subsetDepth - 1)
      else if value = 0x3E ∧ subsetDepth = 0 then some 1
      else more inSingle inDouble subsetDepth
    else more inSingle inDouble subsetDepth

def scanDoctype (c : Cursor) : Except Failure (Unit × Cursor) :=
  if profile.options.doctype = .reject then
    .error (errorAt profile .unsupportedConstruct "DOCTYPE is disabled by the XML profile" c.offset (c.offset + 9))
  else
    match doctypeLength c.rest false false 0 with
    | none => .error (errorAt profile .unexpectedEnd "Unterminated XML DOCTYPE" c.offset c.size)
    | some length =>
      let declaration := c.rest.take length
      let after := c.advance length
      -- "SYSTEM" and "PUBLIC"
      if (find [0x53, 0x59, 0x53, 0x54, 0x45, 0x4D] declaration).isSome ∨
          (find [0x50, 0x55, 0x42, 0x4C, 0x49, 0x43] declaration).isSome then
        .error (errorAt profile .unsupportedConstruct "External XML identifiers are not supported" c.offset after.offset)
      else .ok ((), after)

def scanCData (c : Cursor) : Except Failure (Slice × Cursor) :=
  let text := c.advance 9
  match find [0x5D, 0x5D, 0x3E] text.rest with
  | none => .error (errorAt profile .unexpectedEnd "Unterminated XML CDATA section" c.offset c.size)
  | some close => .ok (⟨text.offset, text.rest.take close⟩, text.advance (close + 3))

def characterData (c : Cursor) (length : Nat) : Except Failure (Slice × Cursor) :=
  let text : Slice := ⟨c.offset, c.rest.take length⟩
  let after := c.advance length
  if (find [0x5D, 0x5D, 0x3E] text.bytes).isSome then
    .error (errorAt profile .invalidToken "']]>' is not allowed in XML character data" c.offset after.offset)
  else .ok (text, after)

/-- Character data up to the next `<`, found as the document parser finds it. -/
def scanText (c : Cursor) : Except Failure (Slice × Cursor) :=
  c.characterData profile ((find [0x3C] c.rest).getD c.rest.length)

/-- An attribute value up to its closing quote, as the document parser looks for it. -/
def scanValue (quote : UInt8) (c : Cursor) : Except Failure (Slice × Cursor) :=
  let unterminated := errorAt profile .unexpectedEnd "Unterminated XML attribute value" c.offset c.size
  match find [quote] c.rest, find [0x3C] c.rest with
  | none, none => .error unterminated
  | some length, none => .ok (⟨c.offset, c.rest.take length⟩, c.advance length)
  | none, some lessThan =>
    .error ((c.advance lessThan).errorHere profile .invalidToken "'<' is not allowed in XML attributes")
  | some length, some lessThan =>
    if lessThan < length then
      .error ((c.advance lessThan).errorHere profile .invalidToken "'<' is not allowed in XML attributes")
    else .ok (⟨c.offset, c.rest.take length⟩, c.advance length)

/-- What stands between the name of an attribute and its value: `=` and a quote. -/
def scanQuote (c : Cursor) : Except Failure (UInt8 × Cursor) :=
  let c := c.skipWhitespace
  if c.peek ≠ 0x3D then .error (c.errorHere profile .invalidToken "Expected '=' after XML attribute name")
  else
    let c := (c.advance 1).skipWhitespace
    if c.peek ≠ 0x27 ∧ c.peek ≠ 0x22 then
      .error (c.errorHere profile .invalidToken "XML attribute values must be quoted")
    else .ok (c.peek, c.advance 1)

def scanEndTag (c : Cursor) : Except Failure (Slice × Cursor) :=
  match (c.advance 2).parseName profile with
  | .error e => .error e
  | .ok (name, after) =>
    let after := after.skipWhitespace
    if after.peek ≠ 0x3E then .error (after.errorHere profile .invalidToken "Expected '>' after XML end tag")
    else .ok (name, after.advance 1)

end Cursor

/-- The bytes that `AppendUtf8` of the document parser writes, none for what is no XML character. -/
def appendUtf8 (value : Nat) : Option Bytes :=
  if isXmlCharacter value = false then none else some (Unicode.encodeUnits value)

def decodeEntity (entity : Bytes) : Except String Bytes :=
  if entity = [0x61, 0x6D, 0x70] then .ok [0x26]
  else if entity = [0x6C, 0x74] then .ok [0x3C]
  else if entity = [0x67, 0x74] then .ok [0x3E]
  else if entity = [0x61, 0x70, 0x6F, 0x73] then .ok [0x27]
  else if entity = [0x71, 0x75, 0x6F, 0x74] then .ok [0x22]
  else if entity.head? = some 0x23 then
    let hex := peekByte entity 1 = 0x78 ∨ peekByte entity 1 = 0x58
    let digits := entity.drop (if hex then 2 else 1)
    if digits = [] then .error "Empty XML numeric character reference"
    else
      match fromCharsUnsigned (if hex then 16 else 10) (2 ^ 32) digits with
      | none => .error "Invalid XML numeric character reference"
      | some (codePoint, consumed) =>
        if consumed ≠ digits.length then .error "Invalid XML numeric character reference"
        else
          match appendUtf8 codePoint with
          | none => .error "Invalid XML numeric character reference"
          | some text => .ok text
  else .error "Unknown XML entity reference"

/-- One round of `DecodeXmlText` at position `read` of a raw text of `size` bytes: what it puts out and
    how much it reads. -/
def decodeStep (size read : Nat) (text : Bytes) : Except LexError (Bytes × Nat) :=
  match text with
  | [] => .ok ([], 0)
  | value :: rest =>
    if value = 0x0D then .ok ([0x0A], if rest.head? = some 0x0A then 2 else 1)
    else if value ≠ 0x26 then .ok ([value], 1)
    else
      match find [0x3B] rest with
      | none => .error ⟨.invalidEntity, "Unterminated XML entity reference", read, size⟩
      | some semicolon =>
        match decodeEntity (rest.take semicolon) with
        | .error message => .error ⟨.invalidEntity, message, read, read + semicolon + 2⟩
        | .ok out => .ok (out, semicolon + 2)

def decodeXmlText (raw : Bytes) : Except LexError Bytes :=
  Library.translate (decodeStep raw.length) raw.length 0 raw

def needsDecode (raw : Bytes) : Bool := raw.contains 0x26 || raw.contains 0x0D

def isWhitespaceOnly (text : Bytes) : Bool := text.all isWhitespace

/-- The loop of `IsValidXmlUtf8`; every round consumes at least one byte. -/
def validXmlLoop : Nat → Bytes → Bool
  | 0, text => text.isEmpty
  | _ + 1, [] => true
  | fuel + 1, first :: rest =>
    if first < 0x80 then
      if isXmlCharacter first.toNat = false then false else validXmlLoop fuel rest
    else
      let decoded := Unicode.decodeUtf8 (first :: rest)
      if decoded.error ≠ .none ∨ isXmlCharacter decoded.codePoint = false then false
      else validXmlLoop fuel ((first :: rest).drop decoded.unitsConsumed)

/-- `IsValidXmlUtf8` of the document parser and `ContainsOnlyXmlCharacters` of the event parser. -/
def isValidXmlUtf8 (text : Bytes) : Bool := validXmlLoop text.length text

end NginBase.Xml
