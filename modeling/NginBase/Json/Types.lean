import NginBase.Library.Digits
import NginBase.Serialization.Core

namespace NginBase.Json

inductive CommentPolicy
  | reject
  | allow
  deriving DecidableEq

inductive TrailingCommaPolicy
  | reject
  | allow
  deriving DecidableEq

inductive DuplicateKeyPolicy
  | reject
  | preserve
  | keepFirst
  | keepLast
  deriving DecidableEq

inductive Utf8Policy
  | validate
  | assumeValid
  deriving DecidableEq

structure ParseOptions where
  comments : CommentPolicy := .reject
  trailingCommas : TrailingCommaPolicy := .reject
  duplicateKeys : DuplicateKeyPolicy := .reject
  utf8 : Utf8Policy := .validate

structure F64 where
  bits : UInt64
  deriving DecidableEq

def F64.isFinite (value : F64) : Bool := (value.bits >>> 52) &&& 0x7FF ≠ 0x7FF

/-- What `std::from_chars` reports for a double. The conversion itself is a parameter. -/
structure FromCharsDouble where
  value : F64
  consumed : Nat
  ok : Bool

inductive Scalar
  | null
  | bool (value : Bool)
  | int64 (value : Int64)
  | uint64 (value : UInt64)
  | double (value : F64)
  | string (text : Bytes)
  deriving DecidableEq

/-- A JSON value; object members keep their order and may repeat keys. -/
inductive Value
  | scalar (value : Scalar)
  | array (elements : List Value)
  | object (members : List (Bytes × Value))

section

variable {motive : Value → Prop} (scalar : ∀ value, motive (.scalar value))
  (array : ∀ elements, (∀ element ∈ elements, motive element) → motive (.array elements))
  (object : ∀ members, (∀ member ∈ members, motive (Prod.snd member)) → motive (.object members))

include scalar array object

mutual

theorem Value.induct : ∀ value, motive value
  | .scalar value => scalar value
  | .array elements => array elements (Value.inductElements elements)
  | .object members => object members (Value.inductMembers members)

theorem Value.inductElements : ∀ elements : List Value, ∀ element ∈ elements, motive element
  | [], _, member => absurd member List.not_mem_nil
  | first :: rest, element, member =>
    (List.mem_cons.mp member).elim (fun same => same ▸ Value.induct first) (Value.inductElements rest element)

theorem Value.inductMembers : ∀ members : List (Bytes × Value), ∀ member ∈ members, motive member.2
  | [], _, inside => absurd inside List.not_mem_nil
  | first :: rest, member, inside =>
    (List.mem_cons.mp inside).elim (fun same => same ▸ Value.induct first.2) (Value.inductMembers rest member)

end

end

section

variable (scalar : Scalar → Prop) (keys : List Bytes → Prop)

mutual

/-- Every scalar of the value has a property, and so have the keys of every object. -/
def Value.Holds : Value → Prop
  | .scalar value => scalar value
  | .array elements => Value.HoldsElements elements
  | .object members => keys (members.map Prod.fst) ∧ Value.HoldsMembers members

def Value.HoldsElements : List Value → Prop
  | [] => True
  | element :: rest => element.Holds ∧ Value.HoldsElements rest

def Value.HoldsMembers : List (Bytes × Value) → Prop
  | [] => True
  | (_, value) :: rest => value.Holds ∧ Value.HoldsMembers rest

end

@[simp] theorem Value.holds_array (elements : List Value) :
    (Value.array elements).Holds scalar keys ↔ ∀ element ∈ elements, element.Holds scalar keys := by
  rw [Value.Holds]
  induction elements with
  | nil => simp [Value.HoldsElements]
  | cons element rest ih => rw [Value.HoldsElements, ih, List.forall_mem_cons]

@[simp] theorem Value.holds_object (members : List (Bytes × Value)) : (Value.object members).Holds scalar keys ↔
      keys (members.map Prod.fst) ∧ ∀ member ∈ members, member.2.Holds scalar keys := by
  have inside : Value.HoldsMembers scalar keys members ↔ ∀ member ∈ members, member.2.Holds scalar keys := by
    induction members with
    | nil => simp [Value.HoldsMembers]
    | cons member rest ih => rw [Value.HoldsMembers, ih, List.forall_mem_cons]
  rw [Value.Holds, inside]

end

/-- A JSON value as a document presents it, with the source span of every value and member. -/
inductive SpannedValue
  | scalar (span : SourceSpan) (value : Scalar)
  | array (span : SourceSpan) (elements : List SpannedValue)
  | object (span : SourceSpan) (members : List (Bytes × SourceSpan × SpannedValue))

def SpannedValue.span : SpannedValue → SourceSpan
  | .scalar span _ => span
  | .array span _ => span
  | .object span _ => span

mutual

def SpannedValue.erase : SpannedValue → Value
  | .scalar _ value => .scalar value
  | .array _ elements => .array (eraseElements elements)
  | .object _ members => .object (eraseMembers members)

def eraseElements : List SpannedValue → List Value
  | [] => []
  | element :: rest => element.erase :: eraseElements rest

def eraseMembers : List (Bytes × SourceSpan × SpannedValue) → List (Bytes × Value)
  | [] => []
  | (key, _, value) :: rest => (key, value.erase) :: eraseMembers rest

end

open Library

/-- The number that a double stands for; the two zeros are one number. -/
inductive DoubleValue
  | finite (value : ℚ)
  | notFinite

def F64.fraction (value : F64) : Nat := value.bits.toNat % 2 ^ 52

def F64.exponent (value : F64) : Nat := value.bits.toNat / 2 ^ 52 % 2 ^ 11

def F64.negative (value : F64) : Bool := 2 ^ 63 ≤ value.bits.toNat

def F64.magnitude (value : F64) : ℚ :=
  let significand := if value.exponent = 0 then value.fraction else 2 ^ 52 + value.fraction
  mkRat (significand * 2 ^ max value.exponent 1 : Nat) (2 ^ 1075)

def F64.decode (value : F64) : DoubleValue :=
  if value.isFinite = false then .notFinite
  else .finite (if value.negative then -value.magnitude else value.magnitude)

def doubleOfInt (n : Int) : ℚ := if n < 0 then -(roundBinary 53 n.natAbs : ℚ) else (roundBinary 53 n.natAbs : ℚ)

namespace Scalar

def tryInt64 : Scalar → Option Int64
  | .int64 value => some value
  | .uint64 value => if value.toNat ≤ 2 ^ 63 - 1 then some (.ofNat value.toNat) else none
  | _ => none

def tryDouble : Scalar → Option DoubleValue
  | .int64 value => some (.finite (doubleOfInt value.toInt))
  | .uint64 value => some (.finite (doubleOfInt value.toNat))
  | .double value => some value.decode
  | _ => none

end Scalar

theorem tryInt64_large {value : UInt64} (large : 2 ^ 63 ≤ value.toNat) : (Scalar.uint64 value).tryInt64 = none := by
  rw [Scalar.tryInt64, if_neg (by omega)]

theorem doubleOfInt_max : doubleOfInt (2 ^ 63 - 1) = 2 ^ 63 := by
  have rounded : roundBinary 53 (2 ^ 63 - 1) = 2 ^ 63 := by decide +kernel
  rw [doubleOfInt, if_neg (by decide)]
  exact_mod_cast rounded

end NginBase.Json
