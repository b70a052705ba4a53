import NginBase.Library.Digits
import NginBase.Library.Simulation
import NginBase.Text.Utf8

namespace NginBase.Math

open Library

/-! Integers of any size as a sign and limbs in base 10⁹, the least significant first. Arithmetic that
would not fit into its machine type and accesses outside a vector end a run with a fault. -/

inductive Fault
  | divisionByZero (message : String)
  | outOfRange
  | overflow
  | borrow
  /-- What the language leaves undefined. -/
  | undefined
  | fuel
  deriving DecidableEq

def base : Nat := 1000000000

structure BigInt where
  digits : List Nat := [0]
  negative : Bool := false
  deriving DecidableEq

def wide (value : Nat) : Except Fault Nat := if value < 2 ^ 64 then .ok value else .error .overflow

def narrow (value : Nat) : Except Fault Nat := if value < 2 ^ 32 then .ok value else .error .overflow

def addLoop : Nat → List Nat → List Nat → Nat → Except Fault (List Nat)
  -- both operands are used up: what is left of the carry
  | 0, _, _, carry => .ok (splitDigits base carry carry)
  | rounds + 1, a, b, carry => do
    let sum ← wide (a.headD 0 + b.headD 0 + carry)
    let rest ← addLoop rounds a.tail b.tail (sum / base)
    return sum % base :: rest

def addDigits (a b : List Nat) : Except Fault (List Nat) := addLoop (max a.length b.length) a b 0

/-- The loop of `SubtractDigits`; the code drops a borrow that is left at the end. -/
def subtractLoop : List Nat → List Nat → Nat → Except Fault (List Nat)
  | [], _, borrow => if borrow = 0 then .ok [] else .error .borrow
  | d :: a, b, borrow => do
    let sub : Int := d - b.headD 0 - borrow
    let (digit, borrow) := if sub < 0 then (sub + base, 1) else (sub, 0)
    if digit < 0 then throw .overflow
    else
      let rest ← subtractLoop a b.tail borrow
      return digit.toNat :: rest

def subtractDigits (a b : List Nat) : Except Fault (List Nat) := do
  let result ← subtractLoop a b 0
  return trim result

/-- One row of the schoolbook product, over the result from the row's first index on. -/
def multiplyRow (x : Nat) : List Nat → List Nat → Nat → Except Fault (List Nat)
  | [], b, carry => if b = [] ∧ carry = 0 then .ok [] else .error .outOfRange
  | r :: result, b, carry => do
    if b = [] ∧ carry = 0 then return r :: result
    else
      let cur ← wide (r + x * b.headD 0 + carry)
      let rest ← multiplyRow x result b.tail (cur / base)
      return cur % base :: rest

def schoolbook (b : List Nat) : List Nat → List Nat → Except Fault (List Nat)
  | [], result => .ok result
  | x :: a, result => do
    match ← multiplyRow x result b 0 with
    | [] => schoolbook b a []
    | r :: result =>
      let rest ← schoolbook b a result
      return r :: rest

def accumulate : List Nat → List Nat → Except Fault (List Nat)
  | [], result => .ok result
  | _ :: _, [] => .error .outOfRange
  | z :: more, r :: result => do
    let sum ← narrow (r + z)
    let rest ← accumulate more result
    return sum :: rest

def accumulateAt (offset : Nat) (z result : List Nat) : Except Fault (List Nat) := do
  let upper ← accumulate z (result.drop offset)
  return result.take offset ++ upper

def propagate : List Nat → Nat → Except Fault (List Nat)
  | [], _ => .ok []
  | r :: result, carry => do
    let cur ← wide (r + carry)
    let rest ← propagate result (cur / base)
    return cur % base :: rest

/-- The step for operands of 32 limbs and more, given the product of shorter ones. -/
def karatsuba (multiply : List Nat → List Nat → Except Fault (List Nat)) (a b : List Nat) : Except Fault (List Nat) := do
  let half := max a.length b.length / 2
  let z0 ← multiply (a.take half) (b.take half)
  let z2 ← multiply (a.drop half) (b.drop half)
  let aSum ← addDigits (a.take half) (a.drop half)
  let bSum ← addDigits (b.take half) (b.drop half)
  let z1 ← multiply aSum bSum
  let z1 ← subtractDigits z1 z0
  let z1 ← subtractDigits z1 z2
  let result ← accumulateAt 0 z0 (List.replicate (a.length + b.length) 0)
  let result ← accumulateAt half z1 result
  let result ← accumulateAt (2 * half) z2 result
  let result ← propagate result 0
  return trim result

def multiplyLoop : Nat → List Nat → List Nat → Except Fault (List Nat)
  | 0, _, _ => .error .fuel
  | fuel + 1, a, b => do
    if a = [0] ∨ b = [0] then return [0]
    else if a.length < 32 ∨ b.length < 32 then
      let result ← schoolbook b a (List.replicate (a.length + b.length) 0)
      return trim result
    else karatsuba (multiplyLoop fuel) a b

def multiplyDigits (a b : List Nat) : Except Fault (List Nat) := multiplyLoop (max a.length b.length + 1) a b

namespace BigInt

def limbs (value : Nat) : List Nat := if value = 0 then [0] else splitDigits base value value

def ofUInt32 (value : UInt32) : BigInt := { digits := limbs value.toNat }

def ofUInt64 (value : UInt64) : BigInt := { digits := limbs value.toNat }

def ofInt32 (value : Int32) : BigInt := { digits := limbs value.toInt.natAbs, negative := value < 0 }

def ofInt64 (value : Int64) : BigInt := { digits := limbs value.toInt.natAbs, negative := value < 0 }

/-- The value of one block of characters, in `UInt32`; `char` is signed. -/
def blockValue (block : Bytes) : Nat :=
  block.foldl (fun value c => (((value : Int) * 10 + (c.toInt8.toInt - 48)) % 2 ^ 32).toNat) 0

def blocks : Nat → Bytes → List Nat
  | 0, _ => []
  | fuel + 1, text =>
    if text = [] then []
    else blockValue (text.drop (text.length - 9)) :: blocks fuel (text.take (text.length - 9))

def isZero (a : BigInt) : Bool := a.digits = [0]

/-- The constructor from a C string; the one from `std::string` reads up to the first NUL. -/
def ofString (str : Bytes) : BigInt :=
  let str := str.takeWhile (· ≠ 0)
  if str = [] then {}
  else
    let negative := str.head? = some 0x2D
    let text := if negative then str.tail else str
    let result : BigInt := { digits := trim (blocks text.length text), negative }
    if result.isZero then { result with negative := false } else result

def absLess (a b : BigInt) : Bool := digitsLess a.digits b.digits

def abs (a : BigInt) : BigInt := { a with negative := false }

def neg (a : BigInt) : BigInt := { a with negative := if a.isZero then false else !a.negative }

def equal (a b : BigInt) : Bool := a.negative = b.negative ∧ a.digits = b.digits

def less (a b : BigInt) : Bool :=
  if a.negative ≠ b.negative then a.negative
  else if a.negative then absLess b a
  else absLess a b

def lessEqual (a b : BigInt) : Bool := !less b a

def addMagnitudes (a b : BigInt) : Except Fault BigInt := do
  let digits ← addDigits a.digits b.digits
  return { digits := trim digits, negative := a.negative }

def subtractMagnitudes (a b : BigInt) : Except Fault BigInt := do
  if absLess a b then
    let digits ← subtractDigits b.digits a.digits
    return { digits := trim digits, negative := !a.negative }
  else
    let digits ← subtractDigits a.digits b.digits
    return { digits := trim digits, negative := a.negative }

/-- `operator+`. With mixed signs it calls `operator-` on two numbers that are not negative. -/
def add (a b : BigInt) : Except Fault BigInt :=
  if a.negative = b.negative then addMagnitudes a b
  else if a.negative then subtractMagnitudes b a.neg
  else subtractMagnitudes a b.neg

/-- `operator-`. With mixed signs it calls `operator+` on two numbers that are not negative. -/
def subtract (a b : BigInt) : Except Fault BigInt :=
  if a.negative = b.negative then subtractMagnitudes a b
  else if a.negative then do
    let sum ← addMagnitudes a.neg b
    return sum.neg
  else addMagnitudes a b.neg

def multiply (a b : BigInt) : Except Fault BigInt := do
  let digits ← multiplyDigits a.digits b.digits
  return { digits := trim digits, negative := a.negative ≠ b.negative }

/-- The loop of `DivByUInt32` from the most significant limb on. -/
def divideLoop (divisor : Nat) : List Nat → Nat → Except Fault (List Nat × Nat)
  | [], rem => .ok ([], rem)
  | d :: rest, rem => do
    let cur ← wide (d + rem * base)
    let quotient ← narrow (cur / divisor)
    let (quotients, rem) ← divideLoop divisor rest (cur % divisor)
    return (quotient :: quotients, rem)

def divByUInt32 (value : BigInt) (divisor : Nat) : Except Fault (BigInt × Nat) := do
  if divisor = 0 then throw .undefined
  else
    let (quotients, rem) ← divideLoop divisor value.digits.reverse 0
    return ({ digits := trim quotients.reverse, negative := value.negative }, rem)

def divModBySingleLimb (a : BigInt) (b : Nat) : Except Fault (BigInt × BigInt) := do
  let (q, rem) ← divByUInt32 a.abs b
  return (q, { digits := limbs rem })

def naiveLoop (divisor : BigInt) : Nat → BigInt → BigInt → Except Fault (BigInt × BigInt)
  | 0, _, _ => .error .fuel
  | fuel + 1, q, r => do
    if absLess r divisor then return (q, r)
    else
      let r ← subtract r divisor
      let q ← add q { digits := [1] }
      naiveLoop divisor fuel q r

def naiveDivMod (a b : BigInt) : Except Fault (BigInt × BigInt) :=
  naiveLoop b.abs (Nat.ofDigits base a.digits + 1) {} a.abs

def searchDigit (divisor rem : BigInt) : Nat → Nat → Nat → Nat → Except Fault Nat
  | 0, _, _, _ => .error .fuel
  | fuel + 1, low, high, qd => do
    if low ≤ high then
      let mid := low + (high - low) / 2
      let prod ← multiply divisor { digits := limbs mid }
      if lessEqual prod rem then
        let low ← narrow (mid + 1)
        searchDigit divisor rem fuel low high mid
      -- the upper bound would wrap
      else if mid = 0 then throw .overflow
      else searchDigit divisor rem fuel low (mid - 1) qd
    else return qd

/-- One round of the loop of `KnuthDivMod`: the next limb goes in front of the remainder. -/
def knuthRound (divisor rem : BigInt) (limb : Nat) : Except Fault (Nat × BigInt) := do
  let rem : BigInt := { rem with digits := trim (limb :: rem.digits) }
  let qd ← searchDigit divisor rem 31 0 (base - 1) 0
  if qd = 0 then return (qd, rem)
  else
    let prod ← multiply divisor { digits := limbs qd }
    let rem ← subtract rem prod
    return (qd, rem)

/-- The rounds from the most significant of the given limbs on, with the digits of the quotient found. -/
def knuthLoop (divisor : BigInt) : List Nat → BigInt → List Nat → Except Fault (List Nat × BigInt)
  | [], rem, quotients => .ok (quotients, rem)
  | limb :: rest, rem, quotients => do
    let (qd, rem) ← knuthRound divisor rem limb
    knuthLoop divisor rest rem (qd :: quotients)

/-- The number of rounds of `for (int i = int(n) - 1; i >= 0; --i)`. -/
def knuthRounds (n : Nat) : Except Fault Nat :=
  let converted := n % 2 ^ 32
  if converted < 2 ^ 31 then .ok converted
  -- subtracting one from the least `int`
  else if converted = 2 ^ 31 then .error .undefined
  else .ok 0

def knuthDivMod (a b : BigInt) : Except Fault (BigInt × BigInt) := do
  let n := a.digits.length
  let rounds ← knuthRounds n
  let (quotients, rem) ← knuthLoop b.abs (a.digits.take rounds).reverse {} []
  return ({ digits := trim (quotients ++ List.replicate (n - rounds) 0) }, rem)

def shiftLeftLimbs (x : BigInt) (count : Nat) : BigInt :=
  if x.isZero then x else { x with digits := List.replicate count 0 ++ x.digits }

/-- The number of blocks that `split_blocks` makes, which is all that is used of them. -/
def blockCount (total blocksize : Nat) : Nat := (total + blocksize - 1) / blocksize

def fastLoop (k : Nat) : Nat → BigInt → BigInt → BigInt → Except Fault (BigInt × BigInt)
  | 0, q, rem, _ => .ok (q, rem)
  | rounds + 1, q, rem, bHat => do
    let (qHat, rHat) ← knuthDivMod rem bHat
    let q ← add (shiftLeftLimbs q k) qHat
    let next := if k < bHat.digits.length then { bHat with digits := bHat.digits.drop k } else {}
    fastLoop k rounds q rHat { next with digits := trim next.digits }

def fastDivMod (a b : BigInt) : Except Fault (BigInt × BigInt) := do
  let n := a.digits.length
  let m := b.digits.length
  if m = 0 ∨ b.isZero then throw (.divisionByZero "Division by zero")
  else if n < m ∨ a.isZero then return ({}, a)
  else if n < 512 ∨ m < 32 then knuthDivMod a b
  else
    let k := (m + 1) / 2
    if blockCount n k < blockCount m k then throw .overflow
    else
      let t := blockCount n k - blockCount m k
      let (q, rem) ← fastLoop k (t + 1) {} a.abs (shiftLeftLimbs b.abs (t * k))
      return ({ q with digits := trim q.digits }, rem)

def divModLarge (a b : BigInt) : Except Fault (BigInt × BigInt) :=
  let n := a.digits.length
  let m := b.digits.length
  if m = 1 then divModBySingleLimb a (b.digits.headD 0)
  else if n ≤ 4 ∧ m ≤ 4 then naiveDivMod a b
  else if n < 256 ∧ m < 256 then knuthDivMod a b
  else fastDivMod a b

def divMod (a b : BigInt) : Except Fault (BigInt × BigInt) := do
  if b.isZero then throw (.divisionByZero "Division by zero")
  else if a.isZero then return ({}, {})
  else if absLess a.abs b.abs then return ({}, a)
  else
    let (q, r) ← divModLarge a b
    return ({ q with negative := a.negative ≠ b.negative ∧ q.isZero = false }, r)

def divide (a b : BigInt) : Except Fault BigInt := do
  if b.isZero then throw (.divisionByZero "Division by zero")
  else
    let (quotient, _) ← divMod a b
    return quotient

def modulo (a b : BigInt) : Except Fault BigInt := do
  if b.isZero then throw (.divisionByZero "Modulo by zero")
  else
    let (_, remainder) ← divMod a b
    if a.negative ∧ remainder.isZero = false then return remainder.neg else return remainder

end BigInt

end NginBase.Math
