import NginBase.Json.Types

namespace NginBase.Json.Grammar

/-! The grammar of RFC 8259 over bytes, with the value that it assigns to a text. -/

def Blank (b : UInt8) : Prop := b = 0x20 ∨ b = 0x09 ∨ b = 0x0A ∨ b = 0x0D

def Ws (s : Bytes) : Prop := ∀ b ∈ s, Blank b

def HexDigit (b : UInt8) (n : Nat) : Prop :=
  0x30 ≤ b ∧ b ≤ 0x39 ∧ n = b.toNat - 0x30 ∨
  0x41 ≤ b ∧ b ≤ 0x46 ∧ n = b.toNat - 0x41 + 10 ∨
  0x61 ≤ b ∧ b ≤ 0x66 ∧ n = b.toNat - 0x61 + 10

def Hex4 (s : Bytes) (unit : Nat) : Prop :=
  ∃ a b c d k l m n, s = [a, b, c, d] ∧ HexDigit a k ∧ HexDigit b l ∧ HexDigit c m ∧ HexDigit d n ∧
    unit = k * 4096 + l * 256 + m * 16 + n

def escapes : List (UInt8 × UInt8) :=
  [(0x22, 0x22), (0x5C, 0x5C), (0x2F, 0x2F), (0x62, 0x08), (0x66, 0x0C), (0x6E, 0x0A), (0x72, 0x0D), (0x74, 0x09)]

def HighSurrogate (unit : Nat) : Prop := 0xD800 ≤ unit ∧ unit ≤ 0xDBFF

def LowSurrogate (unit : Nat) : Prop := 0xDC00 ≤ unit ∧ unit ≤ 0xDFFF

/-- The contents of a string as they are written and as they are meant. -/
inductive Chars : Bytes → Bytes → Prop
  | nil : Chars [] []
  | plain {b : UInt8} {s text : Bytes} (visible : 0x20 ≤ b) (quote : b ≠ 0x22) (backslash : b ≠ 0x5C)
    (rest : Chars s text) : Chars (b :: s) (b :: text)
  | escape {letter b : UInt8} {s text : Bytes} (listed : (letter, b) ∈ escapes) (rest : Chars s text) :
    Chars (0x5C :: letter :: s) (b :: text)
  | unit {digits s text : Bytes} {unit : Nat} (hex : Hex4 digits unit) (high : ¬ HighSurrogate unit)
    (low : ¬ LowSurrogate unit) (rest : Chars s text) :
    Chars (0x5C :: 0x75 :: (digits ++ s)) (Unicode.encodeUtf8 unit ++ text)
  | pair {digits digits' s text : Bytes} {first second : Nat} (hex : Hex4 digits first) (high : HighSurrogate first)
    (hex' : Hex4 digits' second) (low : LowSurrogate second) (rest : Chars s text) :
    Chars (0x5C :: 0x75 :: (digits ++ 0x5C :: 0x75 :: (digits' ++ s)))
      (Unicode.encodeUtf8 (0x10000 + (first - 0xD800) * 0x400 + (second - 0xDC00)) ++ text)

def Digit (b : UInt8) : Prop := 0x30 ≤ b ∧ b ≤ 0x39

def Digits (s : Bytes) : Prop := s ≠ [] ∧ ∀ b ∈ s, Digit b

def Minus (s : Bytes) : Prop := s = [] ∨ s = [0x2D]

def Integer (s : Bytes) : Prop := Digits s ∧ (s.head? = some 0x30 → s = [0x30])

def Frac (s : Bytes) : Prop := s = [] ∨ ∃ digits, s = 0x2E :: digits ∧ Digits digits

def Exp (s : Bytes) : Prop :=
  s = [] ∨ ∃ e sign digits, s = e :: (sign ++ digits) ∧ (e = 0x65 ∨ e = 0x45) ∧
    (sign = [] ∨ sign = [0x2B] ∨ sign = [0x2D]) ∧ Digits digits

def decimal (digits : Bytes) : Nat := digits.foldl (fun value b => value * 10 + (b.toNat - 0x30)) 0

def signed (minus digits : Bytes) : Int := if minus = [] then decimal digits else -(decimal digits : Int)

/-- Integers are exact and must fit into 64 bits, every other number is what `from_chars` makes of
    it and must be finite. -/
def Number (fromChars : Bytes → FromCharsDouble) (s : Bytes) (value : Scalar) : Prop :=
  ∃ minus int frac exp, s = minus ++ int ++ frac ++ exp ∧ Minus minus ∧ Integer int ∧ Frac frac ∧ Exp exp ∧
    if frac = [] ∧ exp = [] then
      -2 ^ 63 ≤ signed minus int ∧ signed minus int ≤ 2 ^ 64 - 1 ∧
        value = if signed minus int ≤ 2 ^ 63 - 1 then .int64 (.ofInt (signed minus int))
          else .uint64 (.ofNat (signed minus int).toNat)
    else (fromChars s).ok = true ∧ (fromChars s).consumed = s.length ∧ (fromChars s).value.isFinite = true ∧
      value = .double (fromChars s).value

def Structural (b : UInt8) (s : Bytes) : Prop := ∃ w w', s = w ++ b :: w' ∧ Ws w ∧ Ws w'

inductive Elements (value : Bytes → Value → Prop) : Bytes → List Value → Prop
  | one {s : Bytes} {v : Value} (element : value s v) : Elements value s [v]
  | more {s comma s' : Bytes} {v : Value} {values : List Value} (element : value s v) (separator : Structural 0x2C comma)
    (rest : Elements value s' values) : Elements value (s ++ (comma ++ s')) (v :: values)

inductive Member (value : Bytes → Value → Prop) : Bytes → Bytes × Value → Prop
  | pair {k key colon s : Bytes} {v : Value} (chars : Chars k key) (separator : Structural 0x3A colon)
    (element : value s v) : Member value (0x22 :: (k ++ 0x22 :: (colon ++ s))) (key, v)

inductive Members (value : Bytes → Value → Prop) : Bytes → List (Bytes × Value) → Prop
  | one {s : Bytes} {m : Bytes × Value} (member : Member value s m) : Members value s [m]
  | more {s comma s' : Bytes} {m : Bytes × Value} {members : List (Bytes × Value)} (member : Member value s m)
    (separator : Structural 0x2C comma) (rest : Members value s' members) :
    Members value (s ++ (comma ++ s')) (m :: members)

inductive Denotes (fromChars : Bytes → FromCharsDouble) : Bytes → Value → Prop
  | null : Denotes fromChars [0x6E, 0x75, 0x6C, 0x6C] (.scalar .null)
  | true : Denotes fromChars [0x74, 0x72, 0x75, 0x65] (.scalar (.bool true))
  | false : Denotes fromChars [0x66, 0x61, 0x6C, 0x73, 0x65] (.scalar (.bool false))
  | number {s : Bytes} {v : Scalar} (number : Number fromChars s v) : Denotes fromChars s (.scalar v)
  | string {s text : Bytes} (chars : Chars s text) :
    Denotes fromChars (0x22 :: (s ++ [0x22])) (.scalar (.string text))
  | emptyArray {w : Bytes} (blank : Ws w) : Denotes fromChars (0x5B :: (w ++ [0x5D])) (.array [])
  | array {w s w' : Bytes} {values : List Value} (before : Ws w) (elements : Elements (Denotes fromChars) s values)
    (after : Ws w') : Denotes fromChars (0x5B :: (w ++ (s ++ (w' ++ [0x5D])))) (.array values)
  | emptyObject {w : Bytes} (blank : Ws w) : Denotes fromChars (0x7B :: (w ++ [0x7D])) (.object [])
  | object {w s w' : Bytes} {members : List (Bytes × Value)} (before : Ws w)
    (inside : Members (Denotes fromChars) s members) (after : Ws w') :
    Denotes fromChars (0x7B :: (w ++ (s ++ (w' ++ [0x7D])))) (.object members)

def Text (fromChars : Bytes → FromCharsDouble) (text : Bytes) (value : Value) : Prop :=
  ∃ w s w', text = w ++ (s ++ w') ∧ Ws w ∧ Denotes fromChars s value ∧ Ws w'

end NginBase.Json.Grammar
