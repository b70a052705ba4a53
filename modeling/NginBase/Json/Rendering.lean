import NginBase.Json.Writer
import NginBase.Library.Output

namespace NginBase.Json

open Library List Writes Unicode

section

variable (options : WriteOptions) (toChars : F64 → Option Bytes)

def indent (depth : Nat) : Bytes :=
  if options.pretty then 0x0A :: replicate (depth * options.indentWidth) 0x20 else []

def quoted (value : Bytes) : Bytes := (escapedChunks value).flatten

def scalarText : Scalar → Bytes
  | .null => nullLiteral
  | .bool value => boolLiteral value
  | .int64 value => signedText value.toInt
  | .uint64 value => unsignedText value.toNat
  | .double value => (toChars value).getD []
  | .string text => quoted text

def itemsText (depth : Nat) : Nat → List Bytes → Bytes
  | _, [] => []
  | index, item :: rest =>
    (if index ≠ 0 then [0x2C] else []) ++ (indent options (depth + 1) ++ (item ++ itemsText depth (index + 1) rest))

def containerText (depth : Nat) (first last : UInt8) (items : List Bytes) : Bytes :=
  [first] ++ (itemsText options depth 0 items ++ ((if items.isEmpty then [] else indent options depth) ++ [last]))

def memberText (key value : Bytes) : Bytes := quoted key ++ (colonText options ++ value)

mutual

def render (depth : Nat) : Value → Bytes
  | .scalar value => scalarText toChars value
  | .array elements => containerText options depth 0x5B 0x5D (renderElements (depth + 1) elements)
  | .object members => containerText options depth 0x7B 0x7D (renderMembers (depth + 1) members)

def renderElements (depth : Nat) : List Value → List Bytes
  | [] => []
  | element :: rest => render depth element :: renderElements depth rest

def renderMembers (depth : Nat) : List (Bytes × Value) → List Bytes
  | [] => []
  | (key, value) :: rest => memberText options key (render depth value) :: renderMembers depth rest

end

end

def Scalar.Writable (toChars : F64 → Option Bytes) : Scalar → Prop
  | .double value => value.isFinite = true ∧ (toChars value).isSome = true
  | .string text => isValidUtf8 text = true
  | _ => True

mutual

def Writable (toChars : F64 → Option Bytes) (limit depth : Nat) : Value → Prop
  | .scalar value => depth ≤ limit ∧ value.Writable toChars
  | .array elements => depth ≤ limit ∧ WritableElements toChars limit (depth + 1) elements
  | .object members => depth ≤ limit ∧ WritableMembers toChars limit (depth + 1) members

def WritableElements (toChars : F64 → Option Bytes) (limit depth : Nat) : List Value → Prop
  | [] => True
  | element :: rest => Writable toChars limit depth element ∧ WritableElements toChars limit depth rest

def WritableMembers (toChars : F64 → Option Bytes) (limit depth : Nat) : List (Bytes × Value) → Prop
  | [] => True
  | (key, value) :: rest =>
    (isValidUtf8 key = true ∧ Writable toChars limit depth value) ∧ WritableMembers toChars limit depth rest

end

namespace Writer

variable (options : WriteOptions) (toChars : F64 → Option Bytes)

abbrev WritesText (write : Pending) (text : Bytes) (fine : Prop) : Prop :=
  Writes options.maxOutputBytes write text fine

theorem append_writes (text : Bytes) : WritesText options (fun output => append options output text) text True :=
  Writes.append options.maxOutputBytes _ text

variable (depth : Nat)

theorem appendIndent_writes : WritesText options (appendIndent options depth) (indent options depth) True := by
  unfold appendIndent indent
  cases options.pretty with
  | false => exact nothing _
  | true =>
    have spaces := append_writes options (replicate (depth * options.indentWidth) 0x20)
    have guarded := (append_writes options [0x0A]).seq (spaces.guard
      (options.indentWidth ≠ 0 ∧ options.maxOutputBytes / options.indentWidth < depth)
      ⟨.outputLimitExceeded, "JSON output limit exceeded"⟩)
    constructor
    · intro output _ room
      apply guarded.ok output ⟨trivial, ?_, trivial⟩ room
      -- an indentation beyond the quotient would not fit
      rintro ⟨nonzero, deep⟩
      have := (Nat.div_lt_iff_lt_mul (Nat.pos_of_ne_zero nonzero)).mp deep
      simp only [length_cons, length_replicate, if_true] at room
      omega
    · intro output output' small h
      exact ⟨trivial, (guarded.only output output' small h).2⟩

theorem appendEscaped_writes (value : Bytes) :
    WritesText options (appendEscaped options value) (quoted value) (isValidUtf8 value = true) := by
  refine mono (guard _ _ (all (append_writes options) (escapedChunks value))) ?_
  simp

theorem writeScalar_writes (value : Scalar) :
    WritesText options (fun output => writeScalar options toChars output value) (scalarText toChars value)
      (value.Writable toChars) := by
  cases value with
  | double value =>
    simp only [writeScalar, scalarText, Scalar.Writable]
    cases found : toChars value with
    | none =>
      refine mono (guard _ _ (refuse _ _ _)) ?_
      simp
    | some text =>
      refine mono (guard _ _ (append_writes options text)) ?_
      simp
  | string text => exact appendEscaped_writes options text
  | _ => exact append_writes options _

variable {options}

section

variable {ι : Type} {items : List ι} {write : ι → Pending} {text : ι → Bytes} {fine : ι → Prop}

theorem itemLoop_writes (depth index : Nat) (each : ∀ item ∈ items, WritesText options (write item) (text item) (fine item)) :
    WritesText options (itemLoop options depth index (items.map write)) (itemsText options depth index (items.map text))
      (∀ item ∈ items, fine item) := by
  induction items generalizing index with
  | nil =>
    refine mono (nothing _) ?_
    simp
  | cons item items ih =>
    have comma : WritesText options (appendComma options index) (if index ≠ 0 then [0x2C] else []) True := by
      unfold appendComma
      split
      · exact append_writes options [0x2C]
      · exact nothing _
    have rest := ih (index + 1) fun item member => each item (mem_cons_of_mem _ member)
    have whole := comma.seq ((appendIndent_writes options (depth + 1)).seq ((each item mem_cons_self).seq rest))
    refine mono whole ?_
    simp

theorem writeContainer_writes (depth : Nat) (first last : UInt8)
    (each : ∀ item ∈ items, WritesText options (write item) (text item) (fine item)) :
    WritesText options (writeContainer options depth first last (items.map write))
      (containerText options depth first last (items.map text)) (∀ item ∈ items, fine item) := by
  have closing : WritesText options (closeIndent options depth (items.map write))
      (if (items.map text).isEmpty then [] else indent options depth) True := by
    cases items with
    | nil => exact nothing _
    | cons item items => exact appendIndent_writes options depth
  have whole := (append_writes options [first]).seq ((itemLoop_writes depth 0 each).seq
    (closing.seq (append_writes options [last])))
  refine mono whole ?_
  simp

end

theorem writeMember_writes {write : Pending} {text : Bytes} {fine : Prop} (key : Bytes)
    (value : WritesText options write text fine) :
    WritesText options (writeMember options key write) (memberText options key text) (isValidUtf8 key = true ∧ fine) := by
  have whole := (appendEscaped_writes options key).seq ((append_writes options (colonText options)).seq value)
  refine mono whole ?_
  simp

variable (options)

mutual

def arrange : Value → Value
  | .scalar value => .scalar value
  | .array elements => .array (arrangeElements elements)
  | .object members => .object (sortMembers options (arrangeMembers members))

def arrangeElements : List Value → List Value
  | [] => []
  | element :: rest => arrange element :: arrangeElements rest

def arrangeMembers : List (Bytes × Value) → List (Bytes × Value)
  | [] => []
  | (key, value) :: rest => (key, arrange value) :: arrangeMembers rest

end

variable (elements : List Value)

theorem arrangeElements_map : arrangeElements options elements = elements.map (arrange options) := by
  induction elements with
  | nil => rfl
  | cons element rest ih => rw [arrangeElements, ih, map_cons]

variable (members : List (Bytes × Value))

theorem arrangeMembers_map :
    arrangeMembers options members = members.map fun member => (member.1, arrange options member.2) := by
  induction members with
  | nil => rfl
  | cons member rest ih => rw [arrangeMembers, ih, map_cons]

theorem writeElements_map :
    writeElements options toChars depth elements = elements.map (writeValue options toChars depth) := by
  induction elements with
  | nil => rfl
  | cons element rest ih => rw [writeElements, ih, map_cons]

theorem writeMembers_map : writeMembers options toChars depth members =
      members.map fun member => (member.1, writeValue options toChars depth member.2) := by
  induction members with
  | nil => rfl
  | cons member rest ih => rw [writeMembers, ih, map_cons]

theorem renderElements_map :
    renderElements options toChars depth elements = elements.map (render options toChars depth) := by
  induction elements with
  | nil => rfl
  | cons element rest ih => rw [renderElements, ih, map_cons]

theorem renderMembers_map : renderMembers options toChars depth members =
      members.map fun member => memberText options member.1 (render options toChars depth member.2) := by
  induction members with
  | nil => rfl
  | cons member rest ih => rw [renderMembers, ih, map_cons]

theorem writableElements_iff (limit depth : Nat) (elements : List Value) :
    WritableElements toChars limit depth elements ↔ ∀ element ∈ elements, Writable toChars limit depth element := by
  induction elements with
  | nil => simp [WritableElements]
  | cons element rest ih => rw [WritableElements, ih, forall_mem_cons]

theorem writableMembers_iff (limit depth : Nat) (members : List (Bytes × Value)) :
    WritableMembers toChars limit depth members ↔
      ∀ member ∈ members, isValidUtf8 member.1 = true ∧ Writable toChars limit depth member.2 := by
  induction members with
  | nil => simp [WritableMembers]
  | cons member rest ih => rw [WritableMembers, ih, forall_mem_cons]

theorem sortMembers_map {α β : Type} (f : α → β) (members : List (Bytes × α)) :
    sortMembers options (members.map fun member => (member.1, f member.2)) =
      (sortMembers options members).map fun member => (member.1, f member.2) := by
  unfold sortMembers
  split
  · symm
    apply map_mergeSort
    intros
    rfl
  · rfl

theorem mem_sortMembers {α : Type} (members : List (Bytes × α)) (member : Bytes × α) :
    member ∈ sortMembers options members ↔ member ∈ members := by
  unfold sortMembers
  split
  · exact mem_mergeSort
  · rfl

theorem writeValue_scalar (value : Scalar) : writeValue options toChars depth (.scalar value) = fun output =>
      if options.maxDepth < depth then .error ⟨.depthExceeded, "JSON writer depth limit exceeded"⟩
      else writeScalar options toChars output value := by
  funext output
  rw [writeValue]

theorem writeValue_array : writeValue options toChars depth (.array elements) = fun output =>
      if options.maxDepth < depth then .error ⟨.depthExceeded, "JSON writer depth limit exceeded"⟩
      else writeContainer options depth 0x5B 0x5D (elements.map (writeValue options toChars (depth + 1))) output := by
  funext output
  rw [writeValue, writeElements_map]

theorem writeValue_object : writeValue options toChars depth (.object members) = fun output =>
      if options.maxDepth < depth then .error ⟨.depthExceeded, "JSON writer depth limit exceeded"⟩
      else writeContainer options depth 0x7B 0x7D ((sortMembers options members).map fun member =>
        writeMember options member.1 (writeValue options toChars (depth + 1) member.2)) output := by
  funext output
  rw [writeValue, writeMembers_map]
  simp only [sortMembers_map, map_map, Function.comp_def]

theorem writeValue_writes (value : Value) :
    WritesText options (writeValue options toChars depth value) (render options toChars depth (arrange options value))
      (Writable toChars options.maxDepth depth value) := by
  induction value using Value.induct generalizing depth with
  | scalar value =>
    refine mono (guard _ _ (writeScalar_writes options toChars value)) ?_
    simp [Writable]
  | array elements ih =>
    have items := writeContainer_writes depth 0x5B 0x5D fun element member => ih element member (depth + 1)
    simp only [arrange, render, arrangeElements_map, renderElements_map, map_map]
    rw [writeValue_array]
    refine mono (guard _ _ items) ?_
    simp [Writable, writableElements_iff]
  | object members ih =>
    have items := writeContainer_writes depth 0x7B 0x7D fun member (inside : member ∈ sortMembers options members) =>
      writeMember_writes member.1 (ih member ((mem_sortMembers options members member).mp inside) (depth + 1))
    simp only [arrange, render, arrangeMembers_map, renderMembers_map, sortMembers_map, map_map]
    rw [writeValue_object]
    refine mono (guard _ _ items) ?_
    simp [Writable, writableMembers_iff, mem_sortMembers]

end Writer

end NginBase.Json
