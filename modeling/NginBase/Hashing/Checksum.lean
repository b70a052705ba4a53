import NginBase.Text.Utf8

namespace NginBase.Hashing.Checksum

structure Algorithm (σ ω : Type) where
  initial : σ
  update : σ → Bytes → σ
  updateByte : σ → UInt8 → σ
  finalize : σ → ω

/-- What one call takes: a span, a pointer that may be null with a length, a text, or one byte. -/
inductive Feed
  | span (data : Bytes)
  | pointer (data : Option Bytes)
  | text (text : Bytes) (constant : Bool)
  | byte (byte : UInt8)

def Feed.bytes : Feed → Bytes
  | .span data => data
  | .pointer data => data.getD []
  | .text characters _ => characters
  | .byte b => [b]

namespace Algorithm

variable {σ ω : Type} (algorithm : Algorithm σ ω)

/-- The overloads of `Update`, with those of `ByteStateMixin`, and `UpdateByte`. -/
def feed (state : σ) : Feed → σ
  | .span data => algorithm.update state data
  | .pointer none => state
  | .pointer (some data) => if data.length = 0 then state else algorithm.update state data
  | .text text true => text.foldl algorithm.updateByte state
  | .text text false => algorithm.update state text
  | .byte b => algorithm.updateByte state b

def run (feeds : List Feed) : ω := algorithm.finalize (feeds.foldl algorithm.feed algorithm.initial)

end Algorithm

section

def readBigEndianUInt16 (first second : UInt8) : UInt16 := (first.toUInt16 <<< 8) ||| second.toUInt16

/-- A sum of words, and the byte that waits for its second half. -/
structure WordState (σ : Type) where
  sum : σ
  hasOddByte : Bool := false
  oddByte : UInt8 := 0

variable {σ : Type} (addWord : σ → UInt16 → σ)

def wordLoop : WordState σ → Bytes → WordState σ
  | s, first :: second :: rest => wordLoop { s with sum := addWord s.sum (readBigEndianUInt16 first second) } rest
  | s, [byte] => { s with hasOddByte := true, oddByte := byte }
  | s, [] => s

/-- `Update` of `Checksum16State` and of `Fletcher32State`. -/
def updateWords (s : WordState σ) (data : Bytes) : WordState σ :=
  match s.hasOddByte, data with
  | true, second :: rest => wordLoop addWord { sum := addWord s.sum (readBigEndianUInt16 s.oddByte second) } rest
  | _, data => wordLoop addWord s data

def oddWord (byte : UInt8) : UInt16 := byte.toUInt16 <<< 8

end

namespace Internet

def addWord (sum : UInt32) (word : UInt16) : UInt32 :=
  let sum := sum + word.toUInt32
  (sum &&& (0xFFFF : UInt32)) + (sum >>> 16)

/-- The loop of `FoldUInt32ToUInt16`; every round makes the sum smaller. -/
def foldLoop : Nat → UInt32 → UInt16
  | 0, sum => sum.toUInt16
  | fuel + 1, sum => if sum >>> 16 ≠ 0 then foldLoop fuel ((sum &&& (0xFFFF : UInt32)) + (sum >>> 16)) else sum.toUInt16

def foldUInt32ToUInt16 (sum : UInt32) : UInt16 := foldLoop sum.toNat sum

def finalize (s : WordState UInt32) : UInt16 :=
  let sum := if s.hasOddByte then s.sum + (oddWord s.oddByte).toUInt32 else s.sum
  ~~~foldUInt32ToUInt16 sum

def checksum16 : Algorithm (WordState UInt32) UInt16 where
  initial := { sum := 0 }
  update := updateWords addWord
  updateByte s byte := updateWords addWord s [byte]
  finalize := finalize

end Internet

namespace Adler

def modulus : UInt32 := 65521

def nMax : Nat := 5552

structure Adler32State where
  a : UInt32 := 1
  b : UInt32 := 0

def addByte (s : Adler32State) (byte : UInt8) : Adler32State :=
  let a := s.a + byte.toUInt32
  { a, b := s.b + a }

def blockLoop (s : Adler32State) (data : Bytes) : Adler32State := data.foldl addByte s

def reduce (s : Adler32State) : Adler32State := { a := s.a % modulus, b := s.b % modulus }

/-- The loop of `Update` over blocks; every round takes at least one byte. -/
def updateLoop : Nat → Adler32State → Bytes → Adler32State
  | 0, s, _ => s
  | fuel + 1, s, data =>
    if data = [] then s else updateLoop fuel (reduce (blockLoop s (data.take nMax))) (data.drop nMax)

def updateByte (s : Adler32State) (byte : UInt8) : Adler32State :=
  let a := (s.a + byte.toUInt32) % modulus
  { a, b := (s.b + a) % modulus }

def adler32 : Algorithm Adler32State UInt32 where
  initial := {}
  update s data := updateLoop data.length s data
  updateByte := updateByte
  finalize s := (s.b <<< 16) ||| s.a

end Adler

namespace Fletcher

structure Fletcher16State where
  sum1 : UInt16 := 0
  sum2 : UInt16 := 0

/-- The sums are of type `int`, and the remainders are cast back. -/
def updateByte16 (s : Fletcher16State) (byte : UInt8) : Fletcher16State :=
  let sum1 := UInt16.ofNat ((s.sum1.toNat + byte.toNat) % 255)
  { sum1, sum2 := .ofNat ((s.sum2.toNat + sum1.toNat) % 255) }

def fletcher16 : Algorithm Fletcher16State UInt16 where
  initial := {}
  update s data := data.foldl updateByte16 s
  updateByte := updateByte16
  finalize s := (s.sum2 <<< 8) ||| s.sum1

structure Sums where
  sum1 : UInt32 := 0
  sum2 : UInt32 := 0

def addWord (s : Sums) (word : UInt16) : Sums :=
  let sum1 := (s.sum1 + word.toUInt32) % 65535
  { sum1, sum2 := (s.sum2 + sum1) % 65535 }

def finalize32 (s : WordState Sums) : UInt32 :=
  let sums := if s.hasOddByte then addWord s.sum (oddWord s.oddByte) else s.sum
  (sums.sum2 <<< 16) ||| sums.sum1

def fletcher32 : Algorithm (WordState Sums) UInt32 where
  initial := { sum := {} }
  update := updateWords addWord
  updateByte s byte := updateWords addWord s [byte]
  finalize := finalize32

end Fletcher

end NginBase.Hashing.Checksum
