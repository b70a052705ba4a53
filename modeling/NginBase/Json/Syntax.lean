import NginBase.Json.Reference
import NginBase.Library.Budget

namespace NginBase.Json

open Library Audited Reference

/-! What the parsers agree on: the syntax, without any limit, and what a text costs under limits. -/

/-- What the limits count. `strings` lists raw and decoded length of the strings with escapes in
    the order they are read, `deepest` is the deepest container, `repeated` counts objects with a
    repeated key that the policy does not admit. -/
@[ext] structure Cost where
  nodes : Nat := 0
  elements : Nat := 0
  members : Nat := 0
  deepest : Nat := 0
  strings : List (Nat × Nat) := []
  repeated : Nat := 0

namespace Cost

def add (a b : Cost) : Cost where
  nodes := a.nodes + b.nodes
  elements := a.elements + b.elements
  members := a.members + b.members
  deepest := max a.deepest b.deepest
  strings := a.strings ++ b.strings
  repeated := a.repeated + b.repeated

instance : Add Cost := ⟨add⟩

instance : Zero Cost := ⟨{}⟩

instance : AddMonoid Cost where
  add_assoc a b c := by
    ext1 <;> first | exact Nat.add_assoc _ _ _ | exact Nat.max_assoc _ _ _ | exact List.append_assoc _ _ _
  zero_add a := by
    ext1 <;> first | exact Nat.zero_add _ | exact Nat.zero_max _ | exact List.nil_append _
  add_zero a := by
    ext1 <;> first | exact Nat.add_zero _ | exact Nat.max_zero _ | exact List.append_nil _
  nsmul := nsmulRec

section

variable (a b : Cost)

@[simp] theorem add_nodes : (a + b).nodes = a.nodes + b.nodes := rfl
@[simp] theorem add_elements : (a + b).elements = a.elements + b.elements := rfl
@[simp] theorem add_members : (a + b).members = a.members + b.members := rfl
@[simp] theorem add_deepest : (a + b).deepest = max a.deepest b.deepest := rfl
@[simp] theorem add_strings : (a + b).strings = a.strings ++ b.strings := rfl
@[simp] theorem add_repeated : (a + b).repeated = a.repeated + b.repeated := rfl
@[simp] theorem zero_nodes : (0 : Cost).nodes = 0 := rfl
@[simp] theorem zero_elements : (0 : Cost).elements = 0 := rfl
@[simp] theorem zero_members : (0 : Cost).members = 0 := rfl
@[simp] theorem zero_deepest : (0 : Cost).deepest = 0 := rfl
@[simp] theorem zero_strings : (0 : Cost).strings = [] := rfl
@[simp] theorem zero_repeated : (0 : Cost).repeated = 0 := rfl

end

theorem commute {a : Cost} (plain : a.strings = []) (b : Cost) : AddCommute a b := by
  ext1 <;> simp [plain, Nat.add_comm, Nat.max_comm]

end Cost

/-- The object members that remain when one more is met, none when the policy refuses it. -/
def keep (policy : DuplicateKeyPolicy) (members : List Member) (member : Member) :
    Option (List Member) :=
  match members.findIdx? fun earlier => earlier.1 = member.1 with
  | none => some (members ++ [member])
  | some duplicate =>
    match policy with
    | .reject => none
    | .keepFirst => some members
    | .keepLast => some (members.set duplicate member)
    | .preserve => some (members ++ [member])

def keepAll (policy : DuplicateKeyPolicy) (members : List Member) :
    List Member → Option (List Member)
  | [] => some members
  | member :: rest => (keep policy members member).bind fun members => keepAll policy members rest

namespace Syntax

variable (profile : Profile)

def readString (c : Cursor) : Audited Cost ((Bytes × SourceSpan) × Cursor) := do
  let (token, c) ← free (c.scanString profile)
  let text ← free (token.text profile)
  charge (if token.escaped then { strings := [(token.raw.length, text.length)] } else 0)
  return ((text, token.span profile), c)

section

variable (parseValue : Cursor → Audited Cost (SpannedValue × Cursor))

def arrayLoop : Nat → Cursor → Audited Cost (List SpannedValue × Cursor)
  | 0, _ => .failed
  | fuel + 1, c => do
    let (value, c) ← parseValue c
    let (closed, c) ← free
      (c.separator profile 0x5D "Expected ',' or ']' in JSON array" "Trailing comma in JSON array")
    if closed then return ([value], c)
    else
      let (values, c) ← arrayLoop fuel c
      return (value :: values, c)

def arrayValues (c : Cursor) : Audited Cost (List SpannedValue × Cursor) :=
  if peekByte c.rest = 0x5D then pure ([], c) else arrayLoop profile parseValue (c.rest.length + 1) c

def parseArray (depth : Nat) (c : Cursor) : Audited Cost (SpannedValue × Cursor) := do
  charge { deepest := depth + 1 }
  let (_, after) ← free ((c.advance 1).skipTrivia profile)
  let (values, after) ← arrayValues profile parseValue after
  charge { elements := values.length }
  charge { nodes := 1 }
  return (.array ⟨profile.source, c.offset, (after.advance 1).offset⟩ values, after.advance 1)

def objectLoop : Nat → Cursor → Audited Cost (List Member × Cursor)
  | 0, _ => .failed
  | fuel + 1, c => do
    let ((key, keySpan), c) ← readString profile c
    let (_, c) ← free (c.colon profile "Expected ':' after JSON key")
    let (value, c) ← parseValue c
    let (closed, c) ← free
      (c.separator profile 0x7D "Expected ',' or '\x7d' in JSON object" "Trailing comma in JSON object")
    let member : Member := (key, ⟨profile.source, keySpan.first, value.span.last⟩, value)
    if closed then return ([member], c)
    else
      let (members, c) ← objectLoop fuel c
      return (member :: members, c)

def objectMembers (c : Cursor) : Audited Cost (List Member × Cursor) :=
  if peekByte c.rest = 0x7D then pure ([], c) else objectLoop profile parseValue (c.rest.length + 1) c

/-- Apply the policy for duplicate keys to the members read, after those kept before. -/
def settle (members new : List Member) : Audited Cost (List Member) :=
  match keepAll profile.options.duplicateKeys members new with
  | some kept => .done kept 0
  | none => .done [] { repeated := 1 }

def parseObject (depth : Nat) (c : Cursor) : Audited Cost (SpannedValue × Cursor) := do
  charge { deepest := depth + 1 }
  let (_, after) ← free ((c.advance 1).skipTrivia profile)
  let (members, after) ← objectMembers profile parseValue after
  let kept ← settle profile [] members
  charge { members := kept.length }
  charge { nodes := 1 }
  return (.object ⟨profile.source, c.offset, (after.advance 1).offset⟩ kept, after.advance 1)

end

def parseValue : Nat → Nat → Cursor → Audited Cost (SpannedValue × Cursor)
  | 0, _, _ => .failed
  | fuel + 1, depth, c => do
    let (_, c) ← free (c.skipTrivia profile)
    let token := peekByte c.rest
    if token = 0x7B then parseObject profile (parseValue fuel (depth + 1)) depth c
    else if token = 0x5B then parseArray profile (parseValue fuel (depth + 1)) depth c
    else if token = 0x22 then
      let ((text, span), c) ← readString profile c
      charge { nodes := 1 }
      return (.scalar span (.string text), c)
    else
      let ((value, span), c) ← free (c.readScalar profile)
      charge { nodes := 1 }
      return (.scalar span value, c)

def parse (input : Bytes) : Audited Cost SpannedValue := do
  let (root, c) ← parseValue profile (input.length + 1) 0 { rest := input }
  let (_, c) ← free (c.skipTrivia profile)
  if c.rest = [] then return root else .failed

end Syntax

end NginBase.Json
