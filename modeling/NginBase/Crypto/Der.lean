import NginBase.Crypto.Base64

namespace NginBase.Crypto

open Library

/-! DER elements: reading and encoding of tags, lengths and object identifiers. -/

inductive DerTagClass
  | universal
  | application
  | contextSpecific
  | privateUse
  deriving DecidableEq

structure DerTag where
  tagClass : DerTagClass := .universal
  constructed : Bool := false
  number : UInt32 := 0
  deriving DecidableEq

structure DerElement where
  tag : DerTag
  value : Bytes
  encoded : Bytes

structure DerBitString where
  unusedBitCount : UInt8 := 0
  bytes : Bytes

structure DerReadOptions where
  maxElementBytes : UInt64 := 0x100000
  maxDepth : UInt64 := 16

structure DerReader where
  rest : Bytes
  options : DerReadOptions := {}
  depth : Nat := 0

namespace Der

abbrev parseError : CryptoFailure := .code .parseError

abbrev invalidArgument : CryptoFailure := .code .invalidArgument

def encodeTagClass : DerTagClass → UInt8
  | .universal => (0 : UInt8) <<< 6
  | .application => (1 : UInt8) <<< 6
  | .contextSpecific => (2 : UInt8) <<< 6
  | .privateUse => (3 : UInt8) <<< 6

def decodeTagClass (identifier : UInt8) : DerTagClass :=
  match (identifier >>> 6) &&& 0x03 with
  | 0 => .universal
  | 1 => .application
  | 2 => .contextSpecific
  | _ => .privateUse

def constructedBit (constructed : Bool) : UInt8 := if constructed then 0x20 else 0

/-- The loop of `ReadBase128Integer`; the guard keeps the value below 2⁶⁴. -/
def readBase128Loop : Bytes → Nat → Bool → CryptoExpected (Nat × Bytes)
  | [], _, _ => .error parseError
  | octet :: rest, value, firstOctet =>
    if firstOctet ∧ octet &&& 0x80 ≠ 0 ∧ octet &&& 0x7F = 0 then .error parseError
    else if (2 ^ 64 - 1) >>> 7 < value then .error parseError
    else if octet &&& 0x80 ≠ 0 then readBase128Loop rest (value <<< 7 ||| (octet &&& 0x7F).toNat) false
    else .ok (value <<< 7 ||| (octet &&& 0x7F).toNat, rest)

def readBase128Integer (input : Bytes) : CryptoExpected (Nat × Bytes) := readBase128Loop input 0 true

/-- `AppendBase128Integer`: groups of seven bits, the most significant first. -/
def base128Integer (value : Nat) : Bytes :=
  ((Nat.digits 128 (value >>> 7)).map fun group => 0x80 ||| UInt8.ofNat group).reverse ++ [UInt8.ofNat (value &&& 0x7F)]

def identifierBytes (tag : DerTag) : Bytes :=
  if tag.number < 31 then [encodeTagClass tag.tagClass ||| constructedBit tag.constructed ||| tag.number.toUInt8]
  else (encodeTagClass tag.tagClass ||| constructedBit tag.constructed ||| 0x1F) :: base128Integer tag.number.toNat

def lengthBytes (length : Nat) : CryptoExpected Bytes :=
  if length ≤ 127 then .ok [UInt8.ofNat length]
  else
    let encoded := (Nat.digits 256 length).map UInt8.ofNat
    if 126 < encoded.length then .error invalidArgument
    else .ok ((0x80 ||| UInt8.ofNat encoded.length) :: encoded.reverse)

def encodeElement (tag : DerTag) (value : Bytes) : CryptoExpected Bytes := do
  let length ← lengthBytes value.length
  return identifierBytes tag ++ length ++ value

def readTagNumber (identifier : UInt8) (rest : Bytes) : CryptoExpected (UInt32 × Bytes) := do
  if identifier &&& 0x1F = 0x1F then
    let (number, rest) ← readBase128Integer rest
    if number < 31 ∨ 2 ^ 32 - 1 < number then throw parseError else return (UInt32.ofNat number, rest)
  else return ((identifier &&& 0x1F).toUInt32, rest)

def readLengthLoop : Nat → Bytes → Nat → CryptoExpected (Nat × Bytes)
  | 0, rest, length => .ok (length, rest)
  | _ + 1, [], _ => .error parseError
  | octets + 1, octet :: rest, length =>
    if (2 ^ 64 - 1) >>> 8 < length then .error parseError
    else readLengthLoop octets rest (length <<< 8 ||| octet.toNat)

def readLongLength (octets : Nat) (rest : Bytes) : CryptoExpected (Nat × Bytes) := do
  if octets = 0 ∨ 8 < octets ∨ rest.length < octets then throw parseError
  else if rest.head? = some 0 then throw parseError
  else
    let (length, rest) ← readLengthLoop octets rest 0
    if length ≤ 127 then throw parseError else return (length, rest)

def readLength (rest : Bytes) : CryptoExpected (Nat × Bytes) :=
  match rest with
  | [] => .error parseError
  | first :: rest =>
    if first &&& 0x80 = 0 then .ok (first.toNat, rest) else readLongLength (first &&& 0x7F).toNat rest

def readElement (reader : DerReader) : CryptoExpected (DerElement × DerReader) :=
  match reader.rest with
  | [] => .error parseError
  | identifier :: rest => do
    let (number, rest) ← readTagNumber identifier rest
    let (length, rest) ← readLength rest
    if reader.options.maxElementBytes.toNat < length ∨ rest.length < length then throw parseError
    else
      return (
        { tag := ⟨decodeTagClass identifier, identifier &&& 0x20 ≠ 0, number⟩
          value := rest.take length
          encoded := reader.rest.take (reader.rest.length - (rest.drop length).length) },
        { reader with rest := rest.drop length })

def isAtEnd (reader : DerReader) : Bool := reader.rest.isEmpty

def enterConstructed (reader : DerReader) (element : DerElement) : CryptoExpected DerReader :=
  if element.tag.constructed = false ∨ reader.options.maxDepth.toNat ≤ reader.depth then .error parseError
  else .ok ⟨element.value, reader.options, reader.depth + 1⟩

def universalTag (number : UInt32) (constructed : Bool := false) : DerTag := ⟨.universal, constructed, number⟩

def integerTag : DerTag := universalTag 2
def bitStringTag : DerTag := universalTag 3
def octetStringTag : DerTag := universalTag 4
def nullTag : DerTag := universalTag 5
def objectIdentifierTag : DerTag := universalTag 6
def sequenceTag : DerTag := universalTag 16 true

def readSequence (parent : DerReader) (element : DerElement) : CryptoExpected DerReader :=
  if element.tag ≠ sequenceTag then .error parseError else enterConstructed parent element

def encodeSequence (encodedChildren : Bytes) : CryptoExpected Bytes := encodeElement sequenceTag encodedChildren

def readOctetString (element : DerElement) : CryptoExpected Bytes :=
  if element.tag ≠ octetStringTag then .error parseError else .ok element.value

def encodeOctetString (value : Bytes) : CryptoExpected Bytes := encodeElement octetStringTag value

def minimalInteger (value : Bytes) : Bool :=
  match value with
  | [] => false
  | [_] => true
  | first :: second :: _ =>
    if first = 0x00 ∧ second &&& 0x80 = 0 then false else if first = 0xFF ∧ second &&& 0x80 ≠ 0 then false else true

def readInteger (element : DerElement) : CryptoExpected Bytes :=
  if element.tag ≠ integerTag ∨ minimalInteger element.value = false then .error parseError else .ok element.value

def encodeInteger (value : Bytes) : CryptoExpected Bytes :=
  if minimalInteger value = false then .error invalidArgument else encodeElement integerTag value

def validBitString (unusedBitCount : UInt8) (bytes : Bytes) : Bool :=
  if 7 < unusedBitCount then false
  else
    match bytes.getLast? with
    | none => unusedBitCount = 0
    | some last => if unusedBitCount = 0 then true else last &&& (((1 : UInt8) <<< unusedBitCount) - 1) = 0

def readBitString (element : DerElement) : CryptoExpected DerBitString :=
  if element.tag ≠ bitStringTag then .error parseError
  else
    match element.value with
    | [] => .error parseError
    | unusedBitCount :: bytes =>
      if validBitString unusedBitCount bytes = false then .error parseError else .ok ⟨unusedBitCount, bytes⟩

def encodeBitString (unusedBitCount : UInt8) (bytes : Bytes) : CryptoExpected Bytes :=
  if validBitString unusedBitCount bytes = false then .error invalidArgument
  else encodeElement bitStringTag (unusedBitCount :: bytes)

def firstArcs (value : Nat) : CryptoExpected (List UInt32) :=
  if value < 40 then .ok [0, UInt32.ofNat value]
  else if value < 80 then .ok [1, UInt32.ofNat (value - 40)]
  else if 2 ^ 32 - 1 < value - 80 then .error parseError
  else .ok [2, UInt32.ofNat (value - 80)]

/-- The arcs up to the end of the value; every arc takes at least one octet. -/
def readArcs : Nat → Bytes → CryptoExpected (List UInt32)
  | 0, _ => .ok []
  | fuel + 1, rest =>
    if rest = [] then .ok []
    else do
      let (arc, rest) ← readBase128Integer rest
      if 2 ^ 32 - 1 < arc then throw parseError
      else
        let arcs ← readArcs fuel rest
        return UInt32.ofNat arc :: arcs

def readObjectIdentifier (element : DerElement) : CryptoExpected (List UInt32) := do
  if element.tag ≠ objectIdentifierTag ∨ element.value = [] then throw parseError
  else
    let (value, rest) ← readBase128Integer element.value
    let first ← firstArcs value
    let arcs ← readArcs rest.length rest
    return first ++ arcs

def objectIdentifierValue (arcs : List UInt32) : CryptoExpected Bytes :=
  match arcs with
  | first :: second :: rest =>
    if 2 < first ∨ first < 2 ∧ 39 < second then .error invalidArgument
    else .ok (base128Integer (first.toNat * 40 + second.toNat) ++ rest.flatMap fun arc => base128Integer arc.toNat)
  | _ => .error invalidArgument

def encodeObjectIdentifier (arcs : List UInt32) : CryptoExpected Bytes := do
  let value ← objectIdentifierValue arcs
  encodeElement objectIdentifierTag value

end Der

end NginBase.Crypto
