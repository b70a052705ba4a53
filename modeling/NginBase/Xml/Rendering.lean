import NginBase.Xml.Writer

namespace NginBase.Xml

open Library List Writes Content Unicode

section

variable (options : WriteOptions)

def indentation (mixed : Bool) (depth : Nat) : Bytes :=
  if options.pretty = true ∧ mixed = false then 0x0A :: replicate (depth * options.indentWidth) 0x20 else []

def attributeText (entry : Bytes × Bytes) : Bytes := [0x20] ++ (entry.1 ++ ([0x3D, 0x22] ++ (escaped true entry.2 ++ [0x22])))

def cdataText (value : Bytes) : Bytes := (cdataChunks value).flatten

def commentText (value : Bytes) : Bytes := [0x3C, 0x21, 0x2D, 0x2D] ++ (value ++ [0x2D, 0x2D, 0x3E])

def instructionText (name value : Bytes) : Bytes := [0x3C, 0x3F] ++ (name ++ (value ++ [0x3F, 0x3E]))

def elementText (depth : Nat) (name : Bytes) (attributes : List (Bytes × Bytes)) (children : List Content) (inside : Bytes) : Bytes :=
  [0x3C] ++ (name ++ ((attributes.map attributeText).flatten ++
    if children.isEmpty then [0x2F, 0x3E]
    else [0x3E] ++ (inside ++ (indentation options (hasTextChildren children) depth ++ ([0x3C, 0x2F] ++ (name ++ [0x3E]))))))

mutual

def render (depth : Nat) : Content → Bytes
  | .element name attributes children =>
    elementText options depth name attributes children (renderChildren (depth + 1) (hasTextChildren children) children)
  | .leaf .text _ value => escaped false value
  | .leaf .cdata _ value => cdataText value
  | .leaf .comment _ value => commentText value
  | .leaf .processingInstruction name value => instructionText name value

def renderChildren (depth : Nat) (mixed : Bool) : List Content → Bytes
  | [] => []
  | child :: rest => indentation options mixed depth ++ (render depth child ++ renderChildren depth mixed rest)

end

end

mutual

def Content.Writable (limit depth : Nat) : Content → Prop
  | .element _ attributes children =>
    depth ≤ limit ∧ (∀ entry ∈ attributes, isValidUtf8 entry.2 = true) ∧ AllWritable limit (depth + 1) children
  | .leaf .text _ value => isValidUtf8 value = true
  | .leaf .cdata _ _ => True
  | .leaf .comment _ value => ¬ [0x2D, 0x2D] <:+: value ∧ value.getLast? ≠ some 0x2D
  | .leaf .processingInstruction name value => name ≠ [] ∧ ¬ [0x3F, 0x3E] <:+: value

def Content.AllWritable (limit depth : Nat) : List Content → Prop
  | [] => True
  | child :: rest => child.Writable limit depth ∧ AllWritable limit depth rest

end

namespace Writer

variable (options : WriteOptions)

abbrev WritesText (write : Pending) (text : Bytes) (fine : Prop) : Prop := Writes options.maxOutputBytes write text fine

theorem append_writes (text : Bytes) : WritesText options (fun output => append options output text) text True :=
  Writes.append options.maxOutputBytes _ text

theorem indent_writes (depth : Nat) :
    WritesText options (indent options depth)
      (if options.pretty then 0x0A :: replicate (depth * options.indentWidth) 0x20 else []) True := by
  unfold indent
  cases pretty : options.pretty with
  | false => exact nothing _
  | true =>
    simp only [Bool.true_eq_false, if_false, if_true]
    constructor
    · intro output _ room
      rw [length_cons, length_replicate] at room
      have shallow : ¬ (options.indentWidth ≠ 0 ∧ options.maxOutputBytes / options.indentWidth < depth) := by
        intro ⟨nonzero, deep⟩
        -- an indentation beyond the quotient would not fit
        have := (Nat.div_lt_iff_lt_mul (Nat.pos_of_ne_zero nonzero)).mp deep
        omega
      have newline : append options output [0x0A] = .ok (output ++ [0x0A]) :=
        (append_writes options [0x0A]).ok output trivial (by rw [length_singleton]; omega)
      rw [newline, ok_bind, if_neg shallow, if_neg, append_assoc]
      · rfl
      · rw [length_append, length_singleton]
        omega
    · intro output output' small h
      obtain ⟨middle, newline, h⟩ := bind_ok h
      obtain ⟨_, rfl, small'⟩ := (append_writes options [0x0A]).only output middle small newline
      split at h
      · cases h
      split at h
      · cases h
      cases h
      refine ⟨trivial, by rw [append_assoc]; rfl, ?_⟩
      rw [length_append, length_replicate]
      omega

theorem breakLine_writes (mixed : Bool) (depth : Nat) :
    WritesText options (breakLine options mixed depth) (indentation options mixed depth) True := by
  unfold breakLine indentation
  split
  · rename_i both
    have written := indent_writes options depth
    rwa [if_pos both.1] at written
  · exact nothing _

theorem writeAttribute_writes (entry : Bytes × Bytes) :
    WritesText options (fun output => writeAttribute options output entry) (attributeText entry)
      (isValidUtf8 entry.2 = true) := by
  have whole := (append_writes options [0x20]).seq ((append_writes options entry.1).seq ((append_writes options [0x3D, 0x22]).seq
    ((escape_writes true entry.2 options).seq (append_writes options [0x22]))))
  apply mono whole
  simp

theorem writeAttributes_writes (attributes : List (Bytes × Bytes)) :
    WritesText options (fun output => attributes.foldlM (writeAttribute options) output) (attributes.map attributeText).flatten
      (∀ entry ∈ attributes, isValidUtf8 entry.2 = true) := by
  induction attributes with
  | nil =>
    apply mono (nothing _)
    simp
  | cons entry rest ih =>
    apply mono ((writeAttribute_writes options entry).seq ih)
    simp

theorem writeComment_writes (value : Bytes) :
    WritesText options (writeComment options value) (commentText value) (¬ [0x2D, 0x2D] <:+: value ∧ value.getLast? ≠ some 0x2D) := by
  have whole := (append_writes options [0x3C, 0x21, 0x2D, 0x2D]).seq
    ((append_writes options value).seq (append_writes options [0x2D, 0x2D, 0x3E]))
  apply mono (guard _ _ whole)
  rw [not_or, Bool.not_eq_true, Option.isSome_eq_false_iff, Option.isNone_iff_eq_none, find_none_iff]
  simp

theorem writeInstruction_writes (name value : Bytes) :
    WritesText options (writeInstruction options name value) (instructionText name value) (name ≠ [] ∧ ¬ [0x3F, 0x3E] <:+: value) := by
  have whole := (append_writes options [0x3C, 0x3F]).seq
    ((append_writes options name).seq ((append_writes options value).seq (append_writes options [0x3F, 0x3E])))
  apply mono (guard _ _ whole)
  rw [not_or, Bool.not_eq_true, Option.isSome_eq_false_iff, Option.isNone_iff_eq_none, find_none_iff]
  simp

theorem writeElement_writes (depth : Nat) (name : Bytes) (attributes : List (Bytes × Bytes)) (children : List Content)
    {inside : Pending} {text : Bytes} {fine : Prop} (inner : WritesText options inside text fine) (empty : children = [] → fine) :
    WritesText options (writeElement options depth name attributes children inside) (elementText options depth name attributes children text)
      (depth ≤ options.maxDepth ∧ (∀ entry ∈ attributes, isValidUtf8 entry.2 = true) ∧ fine) := by
  have tag := append_writes options [0x3C]
  have named := append_writes options name
  have listed := writeAttributes_writes options attributes
  cases children with
  | nil =>
    apply mono (guard _ _ (tag.seq (named.seq (listed.seq (append_writes options [0x2F, 0x3E])))))
    simp [empty rfl]
  | cons child rest =>
    have closing := (append_writes options [0x3E]).seq (inner.seq ((breakLine_writes options (hasTextChildren (child :: rest)) depth).seq
      ((append_writes options [0x3C, 0x2F]).seq (named.seq (append_writes options [0x3E])))))
    apply mono (guard _ _ (tag.seq (named.seq (listed.seq closing))))
    simp

mutual

theorem writeNode_writes (depth : Nat) : ∀ content,
    WritesText options (writeNode options depth content) (render options depth content) (content.Writable options.maxDepth depth)
  | .element name attributes children => by
    unfold writeNode render Writable
    apply writeElement_writes options depth name attributes children (writeChildren_writes (depth + 1) _ children)
    intro empty
    subst empty
    trivial
  | .leaf .text _ value => by
    unfold writeNode render Writable
    exact escape_writes false value options
  | .leaf .cdata _ value => by
    unfold writeNode render Writable
    exact all (append_writes options) (cdataChunks value)
  | .leaf .comment _ value => by
    unfold writeNode render Writable
    exact writeComment_writes options value
  | .leaf .processingInstruction name value => by
    unfold writeNode render Writable
    exact writeInstruction_writes options name value

theorem writeChildren_writes (depth : Nat) (mixed : Bool) : ∀ children,
    WritesText options (writeChildren options depth mixed children) (renderChildren options depth mixed children)
      (AllWritable options.maxDepth depth children)
  | [] => by
    show WritesText options (fun output => writeChildren options depth mixed [] output) _ _
    unfold writeChildren renderChildren AllWritable
    exact nothing _
  | child :: rest => by
    show WritesText options (fun output => writeChildren options depth mixed (child :: rest) output) _ _
    unfold writeChildren renderChildren AllWritable
    apply mono ((breakLine_writes options mixed depth).seq
      ((writeNode_writes depth child).seq (writeChildren_writes depth mixed rest)))
    simp

end

def prolog : Bytes := if options.includeDeclaration then declarationText else []

theorem write_iff {name : Bytes} {attributes : List (Bytes × Bytes)} {children : List Content} (text : Bytes) :
    let root : Content := .element name attributes children
    write options root = .ok text ↔ root.Writable options.maxDepth 0 ∧ text.length ≤ options.maxOutputBytes ∧
      text = prolog options ++ render options 0 root := by
  intro root
  have declared : WritesText options (fun output => if options.includeDeclaration then append options output declarationText else .ok output)
      (prolog options) True := by
    unfold prolog
    cases options.includeDeclaration with
    | false => exact nothing _
    | true => exact append_writes options declarationText
  have whole := declared.seq (writeNode_writes options 0 root)
  have same : write options root =
      (if options.includeDeclaration then append options [] declarationText else .ok []) >>= writeNode options 0 root := by
    unfold write
    cases options.includeDeclaration <;> rfl
  rw [same]
  constructor
  · intro ok
    obtain ⟨⟨_, fine⟩, same, small⟩ := whole.only [] text (Nat.zero_le _) ok
    exact ⟨fine, small, same⟩
  · intro ⟨fine, small, same⟩
    subst same
    have ok := whole.ok [] ⟨trivial, fine⟩ (by rwa [length_nil, Nat.zero_add])
    rwa [nil_append] at ok

end Writer

end NginBase.Xml
