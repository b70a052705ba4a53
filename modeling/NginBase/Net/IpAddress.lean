import NginBase.Library.Search
import NginBase.Text.CharConv

namespace NginBase.Net

open Library CharConv List

inductive AddressFamily
  | v4
  | v6
  | dualStack
  deriving DecidableEq

inductive AddressParseErrorCode
  | empty
  | invalidFormat
  | invalidCharacter
  | componentOutOfRange
  | missingPort
  | portOutOfRange
  | invalidScope
  deriving DecidableEq

structure AddressParseError where
  code : AddressParseErrorCode
  offset : Nat
  deriving DecidableEq

abbrev AddressExpected := Except AddressParseError

def v4Size : Nat := 4

def v6Size : Nat := 16

abbrev Octets (n : Nat) := { bytes : Bytes // bytes.length = n }

def Octets.cons {n : Nat} (b : UInt8) (octets : Octets n) : Octets (n + 1) := ⟨b :: octets.val, congrArg (· + 1) octets.property⟩

/-- An IPv4 address is in the first four bytes. Equality, as in the source, is that of all the bytes. -/
structure IpAddress where
  family : AddressFamily
  bytes : Octets v6Size
  deriving DecidableEq

def unsignedLimit : Nat := 2 ^ 32

/-- The components of an IPv4 address between its dots, when `left` of them are still to come after the next one. -/
def parseV4Components (size baseOffset : Nat) : (left : Nat) → List Bytes → Nat → AddressExpected (Octets (left + 1))
  | _, [], _ => .error ⟨.invalidFormat, baseOffset + size⟩
  | left, token :: rest, begin =>
    if token = [] ∨ (1 < token.length ∧ token.head? = some 0x30) then .error ⟨.invalidFormat, baseOffset + begin⟩
    else
      let parsed := fromChars 10 unsignedLimit token
      if parsed.ec = .invalidArgument ∨ parsed.used ≠ token.length then
        .error ⟨.invalidCharacter, baseOffset + begin + parsed.used⟩
      else if parsed.ec = .resultOutOfRange ∨ 255 < parsed.value then .error ⟨.componentOutOfRange, baseOffset + begin⟩
      else
        match left, rest with
        | 0, [] => .ok ⟨[.ofNat parsed.value], rfl⟩
        | 0, _ :: _ => .error ⟨.invalidFormat, baseOffset + (begin + token.length)⟩
        | _ + 1, [] => .error ⟨.invalidFormat, baseOffset + size⟩
        | left + 1, next :: rest =>
          (parseV4Components size baseOffset left (next :: rest) (begin + token.length + 1)).map (.cons (.ofNat parsed.value))

def parseV4 (text : Bytes) (baseOffset : Nat) : AddressExpected (Octets v4Size) :=
  parseV4Components text.length baseOffset 3 (text.splitOn 0x2E) 0

def word (high low : UInt8) : Nat := high.toNat <<< 8 ||| low.toNat

def words : Bytes → List Nat
  | high :: low :: rest => word high low :: words rest
  | _ => []

def wordBytes (word : Nat) : Bytes := [.ofNat (word >>> 8), .ofNat (word &&& 0xFF)]

/-- The words between the colons; an IPv4 address may stand for the last two. -/
def parseV6Words (baseOffset : Nat) (allowV4 : Bool) : List Bytes → Nat → AddressExpected (List Nat)
  | [], _ => .ok []
  | token :: rest, begin =>
    if token = [] then .error ⟨.invalidFormat, baseOffset + begin⟩
    else if 0x2E ∈ token then
      if !allowV4 || !rest.isEmpty then .error ⟨.invalidFormat, baseOffset + begin⟩
      else (parseV4 token (baseOffset + begin)).map fun bytes => words bytes.val
    else if 4 < token.length then .error ⟨.componentOutOfRange, baseOffset + begin⟩
    else
      let parsed := fromChars 16 unsignedLimit token
      if parsed.ec ≠ .none ∨ parsed.used ≠ token.length then
        .error ⟨.invalidCharacter, baseOffset + begin + parsed.used⟩
      else (parseV6Words baseOffset allowV4 rest (begin + token.length + 1)).map (parsed.value :: ·)

def parseV6Side (text : Bytes) (baseOffset : Nat) (allowV4 : Bool) : AddressExpected (List Nat) :=
  if text = [] then .ok [] else parseV6Words baseOffset allowV4 (text.splitOn 0x3A) 0

def assemble (left right : List Nat) (fits : left.length + right.length ≤ 8) : IpAddress where
  family := .v6
  bytes := ⟨(left ++ replicate (8 - (left.length + right.length)) 0 ++ right).flatMap wordBytes, by
    have two : ∀ word : Nat, (wordBytes word).length = 2 := fun _ => rfl
    simp only [length_flatMap, two, map_const', sum_replicate_nat, length_append, length_replicate,
      v6Size]
    omega⟩

def parseV6 (text : Bytes) : AddressExpected IpAddress :=
  match find [0x3A, 0x3A] text with
  | none => do
    let left ← parseV6Side text 0 true
    let right ← parseV6Side [] 0 true
    if eight : left.length + right.length = 8 then .ok (assemble left right (Nat.le_of_eq eight))
    else .error ⟨.invalidFormat, text.length⟩
  | some compression =>
    if (find [0x3A, 0x3A] (text.drop (compression + 2))).isSome then .error ⟨.invalidFormat, compression + 2⟩
    else do
      let left ← parseV6Side (text.take compression) 0 false
      let right ← parseV6Side (text.drop (compression + 2)) (compression + 2) true
      if fewer : left.length + right.length < 8 then .ok (assemble left right (Nat.le_of_lt fewer))
      else .error ⟨.invalidFormat, text.length⟩

def IpAddress.parse (text : Bytes) : AddressExpected IpAddress :=
  if text = [] then .error ⟨.empty, 0⟩
  else
    match text.idxOf? 0x25 with
    | some percent => .error ⟨.invalidScope, percent⟩
    | none =>
      if 0x3A ∈ text then parseV6 text
      else
        (parseV4 text 0).map fun v4 =>
          { family := .v4, bytes := ⟨v4.val ++ replicate 12 0, by rw [length_append, v4.property]; rfl⟩ }

namespace IpAddress

variable (a : IpAddress)

def isV4 : Bool := a.family = .v4

def isV6 : Bool := a.family = .v6

def isValid : Bool := a.isV4 || a.isV6

end IpAddress

def appendSeparated (separator : UInt8) (numbers : List Nat) : Bytes :=
  [separator].intercalate (numbers.map (toChars 10))

/-- A run of zero words; there is none at the end of the words. -/
structure ZeroRun where
  begin : Nat
  length : Nat

def bestRunLoop (words : List Nat) : Nat → Nat → ZeroRun → ZeroRun
  | 0, _, best => best
  | fuel + 1, begin, best =>
    match words[begin]? with
    | none => best
    | some 0 =>
      let length := ((words.drop begin).takeWhile (· = 0)).length
      bestRunLoop words fuel (begin + length) (if best.length < length ∧ 2 ≤ length then ⟨begin, length⟩ else best)
    | some (_ + 1) => bestRunLoop words fuel (begin + 1) best

def bestRun (words : List Nat) : ZeroRun := bestRunLoop words words.length 0 ⟨words.length, 0⟩

def appendWords (words : List Nat) (best : ZeroRun) : Nat → Nat → Bytes → Bytes
  | 0, _, output => output
  | fuel + 1, index, output =>
    match words[index]? with
    | none => output
    | some word =>
      if index = best.begin then appendWords words best fuel (index + best.length) (output ++ [0x3A, 0x3A])
      else
        let separated := if output ≠ [] ∧ output.getLast? ≠ some 0x3A then output ++ [0x3A] else output
        appendWords words best fuel (index + 1) (separated ++ toChars 16 word)

namespace IpAddress

variable (a : IpAddress)

def mapped : Bool := (a.bytes.val.take 10).all (· = 0) && a.bytes.val[10]? = some 0xFF && a.bytes.val[11]? = some 0xFF

def mappedStart : Bytes := [0x3A, 0x3A, 0x66, 0x66, 0x66, 0x66, 0x3A]

/-- What `TryFormat` writes into its own buffer of `buffer` characters. -/
def output : Bytes :=
  if a.isV4 then appendSeparated 0x2E ((a.bytes.val.take v4Size).map UInt8.toNat)
  else if a.mapped then mappedStart ++ appendSeparated 0x2E ((a.bytes.val.drop 12).map UInt8.toNat)
  else
    let words := words a.bytes.val
    appendWords words (bestRun words) words.length 0 []

def buffer : Nat := 64

def tryFormat (destination : Nat) : Option Bytes :=
  if !a.isValid then none else if destination < a.output.length then none else some a.output

def toString : Bytes := (a.tryFormat buffer).getD []

end IpAddress

end NginBase.Net
