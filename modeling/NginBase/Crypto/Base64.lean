import NginBase.Text.Utf8
import NginBase.Library.Simulation

namespace NginBase.Crypto

open Library

inductive CryptoErrorCode
  | none
  | invalidArgument
  | outputBufferTooSmall
  | invalidKey
  | invalidNonce
  | invalidTag
  | authenticationFailed
  | unsupportedAlgorithm
  | unsupportedBackend
  | backendUnavailable
  | entropyUnavailable
  | encodingError
  | parseError
  | policyRejected
  | internalError
  deriving DecidableEq

/-- How a function ends early: with an error code, or by a write outside its output, which the
    theorems exclude. -/
inductive CryptoFailure
  | code (code : CryptoErrorCode)
  | outOfBounds
  deriving DecidableEq

abbrev CryptoExpected := Except CryptoFailure

inductive Base64Padding
  | required
  | omitted

namespace Base64

def alphabet : Bytes :=
  [0x41, 0x42, 0x43, 0x44, 0x45, 0x46, 0x47, 0x48, 0x49, 0x4A, 0x4B, 0x4C, 0x4D, 0x4E, 0x4F, 0x50,
   0x51, 0x52, 0x53, 0x54, 0x55, 0x56, 0x57, 0x58, 0x59, 0x5A, 0x61, 0x62, 0x63, 0x64, 0x65, 0x66,
   0x67, 0x68, 0x69, 0x6A, 0x6B, 0x6C, 0x6D, 0x6E, 0x6F, 0x70, 0x71, 0x72, 0x73, 0x74, 0x75, 0x76,
   0x77, 0x78, 0x79, 0x7A, 0x30, 0x31, 0x32, 0x33, 0x34, 0x35, 0x36, 0x37, 0x38, 0x39, 0x2B, 0x2F]

def letter (sextet : UInt8) : UInt8 := alphabet.getD sextet.toNat 0

/-- `DecodeValue`: negative for what is no letter of the alphabet. -/
def decodeValue (value : UInt8) : Int :=
  if 0x41 ≤ value ∧ value ≤ 0x5A then value.toNat - 0x41
  else if 0x61 ≤ value ∧ value ≤ 0x7A then 26 + (value.toNat - 0x61)
  else if 0x30 ≤ value ∧ value ≤ 0x39 then 52 + (value.toNat - 0x30)
  else if value = 0x2B then 62
  else if value = 0x2F then 63
  else -1

/-- An output of fixed size and the index of the next write. -/
structure Sink where
  output : Bytes
  index : Nat := 0

def Sink.put (sink : Sink) : Bytes → CryptoExpected Sink
  | [] => .ok sink
  | b :: rest =>
    if sink.index < sink.output.length then
      Sink.put { output := sink.output.set sink.index b, index := sink.index + 1 } rest
    else .error .outOfBounds

def encodedLength (byteCount : Nat) (padding : Base64Padding) : Nat :=
  let length := byteCount / 3 * 4
  if byteCount % 3 = 0 then length
  else
    match padding with
    | .required => length + 4
    | .omitted => length + byteCount % 3 + 1

def pad (padding : Base64Padding) (count : Nat) : Bytes :=
  match padding with
  | .required => List.replicate count 0x3D
  | .omitted => []

/-- The loop of `EncodeBase64Into` and the group that remains after it. -/
def encodeLoop (padding : Base64Padding) (sink : Sink) : Bytes → CryptoExpected Sink
  | b0 :: b1 :: b2 :: rest => do
    let sink ← sink.put [letter ((b0 >>> 2) &&& 0x3F), letter (((b0 &&& 0x03) <<< 4) ||| (b1 >>> 4)),
      letter (((b1 &&& 0x0F) <<< 2) ||| (b2 >>> 6)), letter (b2 &&& 0x3F)]
    encodeLoop padding sink rest
  | [b0, b1] =>
    sink.put ([letter ((b0 >>> 2) &&& 0x3F), letter (((b0 &&& 0x03) <<< 4) ||| (b1 >>> 4)),
      letter ((b1 &&& 0x0F) <<< 2)] ++ pad padding 1)
  | [b0] => sink.put ([letter ((b0 >>> 2) &&& 0x3F), letter ((b0 &&& 0x03) <<< 4)] ++ pad padding 2)
  | [] => .ok sink

def encodeInto (input output : Bytes) (padding : Base64Padding) : CryptoExpected Bytes := do
  if output.length ≠ encodedLength input.length padding then throw (.code .outputBufferTooSmall)
  else
    let sink ← encodeLoop padding { output } input
    return sink.output

def encode (input : Bytes) (padding : Base64Padding) : CryptoExpected Bytes :=
  encodeInto input (List.replicate (encodedLength input.length padding) 0) padding

/-- Every character is a letter, or padding at an index of at least `limit`. -/
def checkCharacters (limit : Nat) : Nat → Bytes → Bool
  | _, [] => true
  | i, character :: rest =>
    if character = 0x3D then if i < limit then false else checkCharacters limit (i + 1) rest
    else if decodeValue character < 0 then false
    else checkCharacters limit (i + 1) rest

def paddingOf (text : Bytes) : Nat :=
  if text.getLast? = some 0x3D then if 2 ≤ text.length ∧ text[text.length - 2]? = some 0x3D then 2 else 1 else 0

/-- The value of the character `back` places before the end. -/
def valueFromEnd (text : Bytes) (back : Nat) : Int := decodeValue (text.getD (text.length - back) 0)

def looseBits (text : Bytes) (padding : Nat) : Bool :=
  if 0 < padding then
    (padding = 2 && valueFromEnd text 3 % 16 ≠ 0) || (padding = 1 && valueFromEnd text 2 % 4 ≠ 0)
  else (text.length % 4 = 2 && valueFromEnd text 1 % 16 ≠ 0) || (text.length % 4 = 3 && valueFromEnd text 1 % 4 ≠ 0)

def decodedLength (text : Bytes) : CryptoExpected Nat := do
  if text = [] then return 0
  else if text.length % 4 = 1 then throw (.code .encodingError)
  else
    let padding := paddingOf text
    if checkCharacters (text.length - padding) 0 text = false then throw (.code .encodingError)
    else
      let remainder := text.length % 4
      let decoded := text.length / 4 * 3 + (if remainder = 2 then 1 else if remainder = 3 then 2 else 0)
      if 0 < padding ∧ (remainder ≠ 0 ∨ 2 < padding ∨ text.length < 4) then throw (.code .encodingError)
      else if looseBits text padding then throw (.code .encodingError)
      else return decoded - padding

def flush (quartet : List UInt8) (sink : Sink) : CryptoExpected (List UInt8 × Sink) :=
  match quartet with
  | [q0, q1, q2, q3] => do
    let sink ← sink.put [(q0 <<< 2) ||| (q1 >>> 4), (q1 <<< 4) ||| (q2 >>> 2), (q2 <<< 6) ||| q3]
    return ([], sink)
  | quartet => .ok (quartet, sink)

/-- The loop of `DecodeBase64Into`, which stops at padding; `quartet` holds the letters not yet
    written. -/
def decodeLoop : Bytes → List UInt8 → Sink → CryptoExpected (List UInt8 × Sink)
  | [], quartet, sink => .ok (quartet, sink)
  | character :: rest, quartet, sink =>
    if character = 0x3D then .ok (quartet, sink)
    else if decodeValue character < 0 then .error (.code .encodingError)
    else do
      let (quartet, sink) ← flush (quartet ++ [UInt8.ofNat (decodeValue character).toNat]) sink
      decodeLoop rest quartet sink

def decodeRest (quartet : List UInt8) (sink : Sink) : CryptoExpected Sink :=
  match quartet with
  | [q0, q1] => sink.put [(q0 <<< 2) ||| (q1 >>> 4)]
  | [q0, q1, q2] => sink.put [(q0 <<< 2) ||| (q1 >>> 4), (q1 <<< 4) ||| (q2 >>> 2)]
  | [_] => .error (.code .encodingError)
  | _ => .ok sink

def decodeInto (text output : Bytes) : CryptoExpected Bytes := do
  let length ← decodedLength text
  if output.length ≠ length then throw (.code .outputBufferTooSmall)
  else
    let (quartet, sink) ← decodeLoop text [] { output }
    let sink ← decodeRest quartet sink
    return sink.output

def decode (text : Bytes) : CryptoExpected Bytes := do
  let length ← decodedLength text
  decodeInto text (List.replicate length 0)

end Base64

namespace Base64Url

def convertStandardToUrl (text : Bytes) : Bytes :=
  text.map fun character => if character = 0x2B then 0x2D else if character = 0x2F then 0x5F else character

def normalizeLoop : Bytes → Bool → Bytes → CryptoExpected Bytes
  | [], _, normalized => .ok normalized
  | character :: rest, seenPadding, normalized =>
    if character = 0x3D then normalizeLoop rest true (normalized ++ [character])
    else if seenPadding then .error (.code .encodingError)
    else if character = 0x2D then normalizeLoop rest seenPadding (normalized ++ [0x2B])
    else if character = 0x5F then normalizeLoop rest seenPadding (normalized ++ [0x2F])
    else if character = 0x2B ∨ character = 0x2F then .error (.code .encodingError)
    else normalizeLoop rest seenPadding (normalized ++ [character])

def normalizeUrlInput (text : Bytes) : CryptoExpected Bytes := do
  if text.length % 4 = 1 then throw (.code .encodingError)
  else
    let normalized ← normalizeLoop text false []
    if 0x3D ∉ normalized then return normalized ++ List.replicate ((4 - normalized.length % 4) % 4) 0x3D
    else if normalized.length % 4 ≠ 0 then throw (.code .encodingError)
    else return normalized

def encode (input : Bytes) (padding : Base64Padding) : CryptoExpected Bytes := do
  let output ← Base64.encode input padding
  return convertStandardToUrl output

def decode (text : Bytes) : CryptoExpected Bytes := do
  let normalized ← normalizeUrlInput text
  Base64.decode normalized

end Base64Url

end NginBase.Crypto
