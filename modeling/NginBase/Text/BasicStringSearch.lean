import NginBase.Library.Search
import NginBase.Text.BasicString

namespace NginBase.Text

open Library

/-! The searches of `BasicString`. A read outside the string gives nothing. -/

/-- The comparison of a traits class, and how a code unit is a byte where `CanUseRawCharSearch` holds: there the
    comparison is that of the standard traits. -/
structure SearchTraits (C : Type) [DecidableEq C] where
  same : List C → List C → Bool
  empty : same [] [] = true
  rawByte : Option (C → UInt8)
  standard : ∀ toRawByte, rawByte = some toRawByte → Function.Injective toRawByte ∧ ∀ left right, same left right = decide (left = right)

namespace SearchTraits

def char : SearchTraits UInt8 where
  same left right := decide (left = right)
  empty := rfl
  rawByte := some id
  standard := by
    rintro _ ⟨⟩
    exact ⟨Function.injective_id, fun _ _ => rfl⟩

def generic {C : Type} [DecidableEq C] (traits : SearchTraits C) : SearchTraits C where
  same := traits.same
  empty := traits.empty
  rawByte := none
  standard := fun _ raw => nomatch raw

end SearchTraits

namespace Search

def npos : Nat := 2 ^ 64 - 1

def smallCharSetLinearThreshold : Nat := 4

section

variable {C : Type} [DecidableEq C] (traits : SearchTraits C)

/-- `traits_type::compare` of the code units from an index on. -/
def compareAt (haystack value : List C) (index : Nat) : Option Bool :=
  if index + value.length ≤ haystack.length then some (traits.same ((haystack.drop index).take value.length) value) else none

def containsChar (values : List C) (ch : C) : Bool := values.any fun value => traits.same [value] [ch]

def testChar (haystack : List C) (test : C → Bool) (index : Nat) : Option Bool := (haystack[index]?).map test

def memchr (toRawByte : C → UInt8) (haystack : List C) (start count : Nat) (byte : UInt8) : Option (Option Nat) :=
  if start + count ≤ haystack.length then
    some ((((haystack.drop start).take count).findIdx? fun ch => decide (toRawByte ch = byte)).map (start + ·))
  else none

def buildRawCharLookup (toRawByte : C → UInt8) (values : List C) : List Bool :=
  values.foldl (fun lookup value => lookup.set (toRawByte value).toNat true) (List.replicate 256 false)

def testLookup (toRawByte : C → UInt8) (haystack : List C) (lookup : List Bool) (wanted : Bool) (index : Nat) : Option Bool := do
  let ch ← haystack[index]?
  let found ← lookup[(toRawByte ch).toNat]?
  return found == wanted

end

section

variable {C : Type} [DecidableEq C] (toRawByte : C → UInt8) (haystack : List C)

def findSingleRawChar (ch : C) (pos : Nat) : Option Nat := do
  let hit ← memchr toRawByte haystack pos (haystack.length - pos) (toRawByte ch)
  return hit.getD npos

/-- The loop of `FindTwoRawChars`, by where it searches and how much remains. -/
def findTwoLoop (first second : C) : Nat → Nat → Nat → Option Nat
  | 0, _, _ => none
  | rounds + 1, search, remaining =>
    if remaining < 2 then some npos
    else
      match memchr toRawByte haystack search (remaining - 1) (toRawByte first) with
      | none => none
      | some none => some npos
      | some (some candidate) =>
        match haystack[candidate + 1]? with
        | none => none
        | some next => if next = second then some candidate else findTwoLoop first second rounds (candidate + 1) (haystack.length - (candidate + 1))

def findTwoRawChars (first second : C) (pos : Nat) : Option Nat :=
  findTwoLoop toRawByte haystack first second (haystack.length + 1) pos (haystack.length - pos)

def rfindSingleRawChar (ch : C) (pos : Nat) : Option Nat := scanDown (testChar haystack fun c => decide (c = ch)) npos pos

def testTwo (first second : C) (index : Nat) : Option Bool :=
  match haystack[index]? with
  | none => none
  | some ch => if ch = first then testChar haystack (fun c => decide (c = second)) (index + 1) else some false

def rfindTwoRawChars (first second : C) (pos : Nat) : Option Nat :=
  if haystack.length < 2 then some npos else scanDown (testTwo haystack first second) npos (min pos (haystack.length - 2))

end

section

variable {C : Type} [DecidableEq C] (traits : SearchTraits C) (haystack : List C)

def scanFrom (test : Nat → Option Bool) (pos : Nat) : Option Nat :=
  scanUp test npos (fun index => decide (index < haystack.length)) 64 (haystack.length + 1) pos

def find (value : List C) (pos : Nat) : Option Nat :=
  if value = [] then some (if pos ≤ haystack.length then pos else npos)
  else if haystack.length < value.length then some npos
  else if haystack.length - value.length < pos then some npos
  else
    match traits.rawByte, value with
    | some toRawByte, [ch] => findSingleRawChar toRawByte haystack ch pos
    | some toRawByte, [first, second] => findTwoRawChars toRawByte haystack first second pos
    | _, _ =>
      scanUp (compareAt traits haystack value) npos (fun index => decide (index ≤ haystack.length - value.length)) 64 (haystack.length + 1) pos

def lastNeedleStart (haystackSize needleSize pos : Nat) : Nat := min pos (haystackSize - needleSize)

def rfind (value : List C) (pos : Nat) : Option Nat :=
  if value = [] then some (min pos haystack.length)
  else if haystack.length < value.length then some npos
  else
    let index := lastNeedleStart haystack.length value.length pos
    match traits.rawByte, value with
    | some _, [ch] => rfindSingleRawChar haystack ch index
    | some _, [first, second] => rfindTwoRawChars haystack first second index
    | _, _ => scanDown (compareAt traits haystack value) npos index

def findFirstOf (values : List C) (pos : Nat) : Option Nat :=
  if haystack.length ≤ pos ∨ values = [] then some npos
  else
    match traits.rawByte, values with
    | some toRawByte, [ch] => findSingleRawChar toRawByte haystack ch pos
    | some toRawByte, values =>
      if smallCharSetLinearThreshold < values.length then
        scanFrom haystack (testLookup toRawByte haystack (buildRawCharLookup toRawByte values) true) pos
      else scanFrom haystack (testChar haystack (containsChar traits values)) pos
    | none, values => scanFrom haystack (testChar haystack (containsChar traits values)) pos

def findLastOf (values : List C) (pos : Nat) : Option Nat :=
  if haystack = [] ∨ values = [] then some npos
  else
    let index := min pos (haystack.length - 1)
    match traits.rawByte, values with
    | some _, [ch] => rfindSingleRawChar haystack ch index
    | some toRawByte, values =>
      if smallCharSetLinearThreshold < values.length then
        scanDown (testLookup toRawByte haystack (buildRawCharLookup toRawByte values) true) npos index
      else scanDown (testChar haystack (containsChar traits values)) npos index
    | none, values => scanDown (testChar haystack (containsChar traits values)) npos index

def findFirstNotOf (values : List C) (pos : Nat) : Option Nat :=
  if haystack.length ≤ pos then some npos
  else if values = [] then some pos
  else
    match traits.rawByte with
    | some toRawByte =>
      if smallCharSetLinearThreshold < values.length then
        scanFrom haystack (testLookup toRawByte haystack (buildRawCharLookup toRawByte values) false) pos
      else scanFrom haystack (testChar haystack fun ch => !containsChar traits values ch) pos
    | none => scanFrom haystack (testChar haystack fun ch => !containsChar traits values ch) pos

def findLastNotOf (values : List C) (pos : Nat) : Option Nat :=
  if haystack = [] then some npos
  else
    let index := min pos (haystack.length - 1)
    if values = [] then some index
    else
      match traits.rawByte with
      | some toRawByte =>
        if smallCharSetLinearThreshold < values.length then
          scanDown (testLookup toRawByte haystack (buildRawCharLookup toRawByte values) false) npos index
        else scanDown (testChar haystack fun ch => !containsChar traits values ch) npos index
      | none => scanDown (testChar haystack fun ch => !containsChar traits values ch) npos index

end

section

/-- What a search takes: a view, a code unit, or a pointer to a terminated text that may be null. -/
inductive Needle (C : Type)
  | view (units : List C)
  | char (ch : C)
  | cstr (units : Option (List C))

variable {C : Type}

def Needle.units : Needle C → Option (List C)
  | .view units => some units
  | .char ch => some [ch]
  | .cstr units => units

def overload (search : List C → Nat → Option Nat) (needle : Needle C) (pos : Nat) : Option Nat :=
  match needle.units with
  | some units => search units pos
  | none => some npos

variable [DecidableEq C] (traits : SearchTraits C) (haystack : List C)

def findNeedle : Needle C → Nat → Option Nat := overload (find traits haystack)

def rfindNeedle : Needle C → Nat → Option Nat := overload (rfind traits haystack)

def findFirstOfNeedle : Needle C → Nat → Option Nat
  | .char ch, pos => find traits haystack [ch] pos
  | needle, pos => overload (findFirstOf traits haystack) needle pos

def findLastOfNeedle : Needle C → Nat → Option Nat
  | .char ch, pos => rfind traits haystack [ch] pos
  | needle, pos => overload (findLastOf traits haystack) needle pos

def findFirstNotOfNeedle : Needle C → Nat → Option Nat := overload (findFirstNotOf traits haystack)

def findLastNotOfNeedle : Needle C → Nat → Option Nat := overload (findLastNotOf traits haystack)

def searchIn {Alloc : Type} (search : List C → Needle C → Nat → Option Nat) (v : BasicString C Alloc) (needle : Needle C) (pos : Nat) : Option Nat := do
  let haystack ← v.content
  search haystack needle pos

end

end Search

end NginBase.Text
