import NginBase.Xml.Bounds
import NginBase.Xml.SyntaxTokens

namespace NginBase.Xml

open Library List Option Nat

namespace Grammar

def Ws (w : Bytes) : Prop := ∀ b ∈ w, isWhitespace b = true

theorem ws_nil : Ws [] := fun _ mem => nomatch mem

inductive Name : Bytes → Prop
  | mk {first : UInt8} {rest : Bytes} (start : isNameStart first = true) (more : ∀ b ∈ rest, isNameContinue b = true) :
    Name (first :: rest)

def Until (close body : Bytes) : Prop := find close (body ++ close) = some body.length

/-- The attributes of a start tag with their raw values, and the white space around them. -/
inductive Attributes : List (Bytes × Bytes) → Bytes → Prop
  | none {w : Bytes} (ws : Ws w) : Attributes [] w
  | more {w name w₁ w₂ value rest : Bytes} {quote : UInt8} {attributes : List (Bytes × Bytes)} (ws : Ws w) (separated : w ≠ [])
    (named : Name name) (ws₁ : Ws w₁) (ws₂ : Ws w₂) (quotes : quote = 0x27 ∨ quote = 0x22) (unquoted : quote ∉ value)
    (noTag : 0x3C ∉ value) (others : Attributes attributes rest) :
    Attributes ((name, value) :: attributes)
      (w ++ (name ++ (w₁ ++ 0x3D :: (w₂ ++ quote :: (value ++ quote :: rest)))))

def StartTag (name : Bytes) (attributes : List (Bytes × Bytes)) (selfClosing : Bool) (s : Bytes) : Prop :=
  ∃ inside, Name name ∧ Attributes attributes inside ∧
    s = 0x3C :: (name ++ (inside ++ if selfClosing then [0x2F, 0x3E] else [0x3E]))

def EndTag (name s : Bytes) : Prop := ∃ w, Name name ∧ Ws w ∧ s = 0x3C :: 0x2F :: (name ++ (w ++ [0x3E]))

def Comment (text s : Bytes) : Prop :=
  ¬ [0x2D, 0x2D] <:+: text ∧ text.getLast? ≠ some 0x2D ∧ s = [0x3C, 0x21, 0x2D, 0x2D] ++ (text ++ [0x2D, 0x2D, 0x3E])

def Instruction (target body s : Bytes) : Prop :=
  Name target ∧ Until [0x3F, 0x3E] body ∧ s = [0x3C, 0x3F] ++ (target ++ (body ++ [0x3F, 0x3E]))

def CData (text s : Bytes) : Prop :=
  Until [0x5D, 0x5D, 0x3E] text ∧ s = [0x3C, 0x21, 0x5B, 0x43, 0x44, 0x41, 0x54, 0x41, 0x5B] ++ (text ++ [0x5D, 0x5D, 0x3E])

/-- `<!DOCTYPE…>`, up to the first `>` outside quotes and brackets. -/
def Doctype (s : Bytes) : Prop :=
  [0x3C, 0x21, 0x44, 0x4F, 0x43, 0x54, 0x59, 0x50, 0x45] <+: s ∧ Cursor.doctypeLength s false false 0 = some s.length

def Text (s : Bytes) : Prop := s ≠ [] ∧ 0x3C ∉ s ∧ ¬ [0x5D, 0x5D, 0x3E] <:+: s

end Grammar

namespace Cursor

/-- The cursor `c'` is behind `s`, which is what `c` reads first. -/
structure Past (c : Cursor) (s : Bytes) (c' : Cursor) : Prop where
  rest : c.rest = s ++ c'.rest
  offset : c'.offset = c.offset + s.length

variable {c c' c'' : Cursor} {s t : Bytes}

theorem Past.refl (c : Cursor) : c.Past [] c := ⟨rfl, rfl⟩

theorem Past.trans (first : c.Past s c') (second : c'.Past t c'') : c.Past (s ++ t) c'' := by
  constructor
  · rw [first.rest, second.rest, append_assoc]
  · rw [second.offset, first.offset, length_append, add_assoc]

theorem Past.unique (past : c.Past s c') (past' : c.Past s c'') : c' = c'' := by
  have rest : c'.rest = c''.rest := append_cancel_left (past.rest.symm.trans past'.rest)
  have offset : c'.offset = c''.offset := past.offset.trans past'.offset.symm
  cases c'
  cases c''
  simp only at rest offset
  rw [rest, offset]

theorem past_advance {after : Bytes} (split : c.rest = s ++ after) :
    c.Past s (c.advance s.length) ∧ (c.advance s.length).rest = after := by
  have rest : (c.advance s.length).rest = after := by rw [advance, split, drop_left]
  constructor
  · constructor
    · rw [rest, split]
    · rw [advance, split, length_append, min_eq_left (le_add_right _ _)]
  · exact rest

theorem past_starts (starts : c.startsWith s = true) : c.Past s (c.advance s.length) := by
  obtain ⟨after, split⟩ := (startsWith_iff s).mp starts
  exact (past_advance split.symm).1

theorem past_peek {b : UInt8} (peeked : c.peek = b) (visible : b ≠ 0) : c.Past [b] (c.advance 1) := by
  cases ahead : c.rest with
  | nil =>
    rw [peek, ahead] at peeked
    exact absurd peeked.symm visible
  | cons head rest =>
    rw [peek, ahead] at peeked
    have same : head = b := peeked
    subst same
    have split : c.rest = [head] ++ rest := ahead
    exact (past_advance split).1

theorem past_find {needle : Bytes} {i : Nat} (found : find needle c.rest = some i) :
    c.Past (c.rest.take i ++ needle) (c.advance (i + needle.length)) ∧ Grammar.Until needle (c.rest.take i) := by
  have split := find_split found
  have bound := find_bound found
  have length : (c.rest.take i ++ needle).length = i + needle.length := by
    rw [length_append, length_take]
    omega
  constructor
  · have past := (past_advance (s := c.rest.take i ++ needle) (by rw [append_assoc, ← split])).1
    rwa [length] at past
  · rw [split, ← append_assoc] at found
    have short : (c.rest.take i).length = i := by
      rw [length_take]
      omega
    rw [Grammar.Until, short]
    exact find_shorten found (le_of_eq length.symm)

theorem skipWhitespace_past (c : Cursor) : ∃ w, Grammar.Ws w ∧ c.Past w c.skipWhitespace := by
  apply Exists.intro (c.rest.takeWhile isWhitespace)
  constructor
  · exact fun b mem => mem_takeWhile_imp mem
  · exact (past_advance (takeWhile_append_dropWhile).symm).1

variable {profile : Profile} {slice : Slice}

theorem parseName_past (h : c.parseName profile = .ok (slice, c')) : Grammar.Name slice.bytes ∧ c.Past slice.bytes c' := by
  unfold parseName at h
  split at h
  · cases h
  rename_i start
  rw [Bool.not_eq_false] at start
  cases h
  cases ahead : c.rest with
  | nil =>
    rw [peek, ahead] at start
    cases start
  | cons first rest =>
    rw [peek, ahead] at start
    have bytes : (first :: rest).take (1 + (((first :: rest).drop 1).takeWhile isNameContinue).length) =
        first :: rest.takeWhile isNameContinue := by
      rw [add_comm, take_succ_cons]
      congr 1
      exact prefix_iff_eq_take.mp ( takeWhile_prefix _) |>.symm
    rw [bytes]
    constructor
    · exact .mk start fun b mem => mem_takeWhile_imp mem
    · have split : c.rest = (first :: rest.takeWhile isNameContinue) ++ rest.dropWhile isNameContinue := by
        rw [ahead, cons_append, takeWhile_append_dropWhile]
      have past := (past_advance split).1
      rwa [length_cons, add_comm] at past

theorem scanComment_past (starts : c.startsWith [0x3C, 0x21, 0x2D, 0x2D] = true) (h : c.scanComment profile = .ok (slice, c')) :
    ∃ s, Grammar.Comment slice.bytes s ∧ c.Past s c' := by
  have opened := past_starts starts
  unfold scanComment at h
  dsimp only at h
  split at h
  · cases h
  rename_i close found
  split at h
  · cases h
  rename_i plain
  cases h
  rw [not_or, Bool.not_eq_true, isSome_eq_false_iff, isNone_iff_eq_none] at plain
  have closed := (past_find found).1
  have past := opened.trans closed
  exact ⟨_, ⟨find_none_iff.mp plain.1, plain.2, rfl⟩, past⟩

theorem scanInstruction_past {declaration : Bool} {target body : Slice} (starts : c.startsWith [0x3C, 0x3F] = true)
    (h : c.scanInstruction profile declaration = .ok ((target, body), c')) :
    (∃ s, Grammar.Instruction target.bytes body.bytes s ∧ c.Past s c') ∧
      (declaration = true → target.bytes = [0x78, 0x6D, 0x6C] ∧ isWhitespace (peekByte body.bytes) = true ∧
        [0x76, 0x65, 0x72, 0x73, 0x69, 0x6F, 0x6E] <:+: body.bytes) ∧
      (declaration = false → reservedXml target.bytes = false) := by
  have opened := past_starts starts
  unfold scanInstruction at h
  split at h
  · cases h
  rename_i name after named
  obtain ⟨isName, past⟩ := parseName_past named
  split at h
  · cases h
  rename_i proper
  split at h
  · cases h
  rename_i close found
  dsimp only at h
  split at h
  · cases h
  rename_i version
  cases h
  obtain ⟨closed, until'⟩ := past_find found
  constructor
  · exact ⟨_, ⟨isName, until', rfl⟩, opened.trans (past.trans closed)⟩
  · constructor
    · intro yes
      subst yes
      simp only [true_and, reduceCtorEq, false_and, or_false, Decidable.not_not] at proper
      simp only [true_and, not_or, Bool.not_eq_false] at version
      exact ⟨proper, version.2.1, by
        by_contra absent
        exact version.2.2 (find_none_iff.mpr absent)⟩
    · intro no
      subst no
      simpa using proper

theorem scanCData_past (starts : c.startsWith [0x3C, 0x21, 0x5B, 0x43, 0x44, 0x41, 0x54, 0x41, 0x5B] = true)
    (h : c.scanCData profile = .ok (slice, c')) : ∃ s, Grammar.CData slice.bytes s ∧ c.Past s c' := by
  have opened := past_starts starts
  unfold scanCData at h
  dsimp only at h
  split at h
  · cases h
  rename_i close found
  cases h
  obtain ⟨closed, until'⟩ := past_find found
  exact ⟨_, ⟨until', rfl⟩, opened.trans closed⟩

theorem doctypeLength_step (value : UInt8) (inSingle inDouble : Bool) (subsetDepth : Nat) :
    (∀ rest, doctypeLength (value :: rest) inSingle inDouble subsetDepth = some 1) ∨
      ∃ inSingle' inDouble' subsetDepth', ∀ rest, doctypeLength (value :: rest) inSingle inDouble subsetDepth =
        (doctypeLength rest inSingle' inDouble' subsetDepth').map (· + 1) := by
  simp only [doctypeLength]
  by_cases single : value = 0x27 ∧ inDouble = false
  · exact .inr ⟨!inSingle, inDouble, subsetDepth, fun _ => if_pos single⟩
  simp only [if_neg single]
  by_cases double : value = 0x22 ∧ inSingle = false
  · exact .inr ⟨inSingle, !inDouble, subsetDepth, fun _ => if_pos double⟩
  simp only [if_neg double]
  by_cases outside : inSingle = false ∧ inDouble = false
  · simp only [if_pos outside]
    by_cases opens : value = 0x5B
    · exact .inr ⟨inSingle, inDouble, subsetDepth + 1, fun _ => if_pos opens⟩
    simp only [if_neg opens]
    by_cases closes : value = 0x5D ∧ 0 < subsetDepth
    · exact .inr ⟨inSingle, inDouble, subsetDepth - 1, fun _ => if_pos closes⟩
    simp only [if_neg closes]
    by_cases ends : value = 0x3E ∧ subsetDepth = 0
    · exact .inl fun _ => if_pos ends
    · exact .inr ⟨inSingle, inDouble, subsetDepth, fun _ => if_neg ends⟩
  · exact .inr ⟨inSingle, inDouble, subsetDepth, fun _ => if_neg outside⟩

theorem doctypeLength_take {text : Bytes} {inSingle inDouble : Bool} {subsetDepth n : Nat}
    (h : doctypeLength text inSingle inDouble subsetDepth = some n) :
    doctypeLength (text.take n) inSingle inDouble subsetDepth = some n := by
  induction text generalizing inSingle inDouble subsetDepth n with
  | nil => cases h
  | cons value rest ih =>
    rcases doctypeLength_step value inSingle inDouble subsetDepth with ends | ⟨_, _, _, goes⟩
    · rw [ends] at h
      cases h
      exact ends _
    · rw [goes] at h
      obtain ⟨k, found, rfl⟩ := map_eq_some_iff.mp h
      rw [take_succ_cons, goes, ih found, map_some]

theorem doctypeLength_keyword {after : Bytes} {n : Nat}
    (h : doctypeLength ([0x3C, 0x21, 0x44, 0x4F, 0x43, 0x54, 0x59, 0x50, 0x45] ++ after) false false 0 = some n) : 9 ≤ n := by
  have keyword : doctypeLength ([0x3C, 0x21, 0x44, 0x4F, 0x43, 0x54, 0x59, 0x50, 0x45] ++ after) false false 0 =
      (((((((((doctypeLength after false false 0).map (· + 1)).map (· + 1)).map (· + 1)).map (· + 1)).map (· + 1)).map (· + 1)).map
        (· + 1)).map (· + 1)).map (· + 1) := rfl
  rw [keyword] at h
  simp only [map_eq_some_iff] at h
  omega

theorem scanDoctype_past {u : Unit} (starts : c.startsWith [0x3C, 0x21, 0x44, 0x4F, 0x43, 0x54, 0x59, 0x50, 0x45] = true)
    (h : c.scanDoctype profile = .ok (u, c')) : ∃ s, Grammar.Doctype s ∧ c.Past s c' := by
  unfold scanDoctype at h
  split at h
  · cases h
  split at h
  · cases h
  rename_i length found
  dsimp only at h
  split at h
  · cases h
  cases h
  have bound := (doctypeLength_bound found).2
  have size : (c.rest.take length).length = length := by
    rw [length_take]
    omega
  have past := (past_advance (take_append_drop length c.rest).symm).1
  rw [size] at past
  apply Exists.intro (c.rest.take length)
  constructor
  · constructor
    · apply prefix_of_prefix_length_le ((startsWith_iff _).mp starts) ( take_prefix length c.rest)
      obtain ⟨after, split⟩ := (startsWith_iff _).mp starts
      rw [← split] at found
      rw [size]
      exact doctypeLength_keyword found
    · rw [doctypeLength_take found, size]
  · exact past

theorem scanText_past (present : c.rest ≠ []) (data : c.peek ≠ 0x3C) (h : c.scanText profile = .ok (slice, c')) :
    Grammar.Text slice.bytes ∧ c.Past slice.bytes c' ∧ (c'.rest = [] ∨ c'.rest.head? = some 0x3C) := by
  have length := textLength_pos present data
  unfold scanText characterData at h
  dsimp only at h
  split at h
  · cases h
  rename_i plain
  cases h
  rw [Bool.not_eq_true, isSome_eq_false_iff, isNone_iff_eq_none] at plain
  have bound := textLength_le c.rest
  have past := (past_advance (take_append_drop ((find [0x3C] c.rest).getD c.rest.length) c.rest).symm).1
  rw [length_take, min_eq_left bound] at past
  have nonempty : c.rest.take ((find [0x3C] c.rest).getD c.rest.length) ≠ [] := by
    intro empty
    have none := congrArg List.length empty
    rw [length_take, length_nil] at none
    omega
  have stop : 0x3C ∉ c.rest.take ((find [0x3C] c.rest).getD c.rest.length) ∧
      (c.rest.drop ((find [0x3C] c.rest).getD c.rest.length) = [] ∨
        (c.rest.drop ((find [0x3C] c.rest).getD c.rest.length)).head? = some 0x3C) := by
    cases found : find [0x3C] c.rest with
    | none =>
      rw [getD_none, take_length, drop_length]
      exact ⟨find_one_none found, .inl rfl⟩
    | some n =>
      obtain ⟨absent, next⟩ := find_one found
      rw [getD_some, next]
      exact ⟨absent, .inr rfl⟩
  exact ⟨⟨nonempty, stop.1, find_none_iff.mp plain⟩, past, stop.2⟩

theorem scanEndTag_past (starts : c.startsWith [0x3C, 0x2F] = true) (h : c.scanEndTag profile = .ok (slice, c')) :
    ∃ s, Grammar.EndTag slice.bytes s ∧ c.Past s c' := by
  have opened := past_starts starts
  unfold scanEndTag at h
  split at h
  · cases h
  rename_i name after named
  obtain ⟨isName, past⟩ := parseName_past named
  obtain ⟨w, ws, skipped⟩ := after.skipWhitespace_past
  dsimp only at h
  split at h
  · cases h
  rename_i closes
  cases h
  have closed := past_peek (not_not.mp closes) (by decide)
  exact ⟨_, ⟨w, isName, ws, rfl⟩, opened.trans (past.trans (skipped.trans closed))⟩

theorem scanQuote_past {quote : UInt8} (h : c.scanQuote profile = .ok (quote, c')) :
    (quote = 0x27 ∨ quote = 0x22) ∧ ∃ w w', Grammar.Ws w ∧ Grammar.Ws w' ∧ c.Past (w ++ 0x3D :: (w' ++ [quote])) c' := by
  obtain ⟨w, ws, skipped⟩ := c.skipWhitespace_past
  unfold scanQuote at h
  dsimp only at h
  split at h
  · cases h
  rename_i equals
  have past := past_peek (not_not.mp equals) (by decide)
  obtain ⟨w', ws', skipped'⟩ := (c.skipWhitespace.advance 1).skipWhitespace_past
  split at h
  · cases h
  rename_i quotes
  cases h
  have either : (c.skipWhitespace.advance 1).skipWhitespace.peek = 0x27 ∨ (c.skipWhitespace.advance 1).skipWhitespace.peek = 0x22 := by
    by_contra neither
    exact quotes (not_or.mp neither)
  have visible : (c.skipWhitespace.advance 1).skipWhitespace.peek ≠ 0 := by
    rcases either with single | double
    · rw [single]
      decide
    · rw [double]
      decide
  have opened := past_peek rfl visible
  constructor
  · exact either
  · exact ⟨w, w', ws, ws', skipped.trans (past.trans (skipped'.trans opened))⟩

theorem scanValue_past {quote : UInt8} (h : c.scanValue profile quote = .ok (slice, c')) :
    quote ∉ slice.bytes ∧ 0x3C ∉ slice.bytes ∧ c.Past slice.bytes c' ∧ c'.Past [quote] (c'.advance 1) := by
  have done {n : Nat} (found : find [quote] c.rest = some n) (noTag : 0x3C ∉ c.rest.take n)
      (h : (.ok (⟨c.offset, c.rest.take n⟩, c.advance n) : Except Failure (Slice × Cursor)) = .ok (slice, c')) :
      quote ∉ slice.bytes ∧ 0x3C ∉ slice.bytes ∧ c.Past slice.bytes c' ∧ c'.Past [quote] (c'.advance 1) := by
    obtain ⟨absent, next⟩ := find_one found
    have bound := find_bound found
    have past := past_advance (take_append_drop n c.rest).symm
    rw [length_take, min_eq_left (by omega)] at past
    cases h
    have closes : (c.advance n).rest = [quote] ++ c.rest.drop (n + 1) := by
      rw [past.2, next]
      rfl
    exact ⟨absent, noTag, past.1, (past_advance closes).1⟩
  unfold scanValue at h
  split at h
  · cases h
  · rename_i found none
    exact done found (fun mem => find_one_none none (mem_of_mem_take mem)) h
  · cases h
  · rename_i length lessThan found tag
    split at h
    · cases h
    rename_i far
    apply done found _ h
    intro mem
    apply (find_one tag).1
    exact (take_subset_take_left c.rest (Nat.le_of_not_lt far)) mem

end Cursor

inductive Content
  | leaf (kind : LeafKind) (name text : Bytes)
  | element (name : Bytes) (attributes : List (Bytes × Bytes)) (children : List Content)

section

variable {motive : Content → Prop} (leaf : ∀ kind name text, motive (.leaf kind name text))
  (element : ∀ name attributes children, (∀ child ∈ children, motive child) → motive (.element name attributes children))

include leaf element

mutual

theorem Content.induct : ∀ content, motive content
  | .leaf kind name text => leaf kind name text
  | .element name attributes children => element name attributes children (Content.inductChildren children)

theorem Content.inductChildren : ∀ children : List Content, ∀ child ∈ children, motive child
  | [], _, mem => absurd mem not_mem_nil
  | first :: rest, child, mem =>
    (mem_cons.mp mem).elim (fun same => same ▸ Content.induct first) (Content.inductChildren rest child)

end

end

mutual

def Tree.content : Tree Bytes → Content
  | .leaf kind name text _ => .leaf kind name text
  | .element name attributes children _ =>
    .element name (attributes.map fun entry => (entry.name, entry.value)) (contents children)

def Tree.contents : List (Tree Bytes) → List Content
  | [] => []
  | tree :: rest => tree.content :: contents rest

end

theorem Tree.contents_append (trees more : List (Tree Bytes)) :
    contents (trees ++ more) = contents trees ++ contents more := by
  induction trees with
  | nil => rw [nil_append, contents, nil_append]
  | cons tree rest ih => rw [cons_append, contents, contents, ih, cons_append]

def Apart (p : UInt8 → Bool) (rest : Bytes) : Prop := ∀ b, rest.head? = some b → p b = false

def TriviaPolicy.keeps (trivia : TriviaPolicy) (content : Content) : List Content :=
  if trivia = .preserve then [content] else []

namespace Grammar

def Decoded (raw text : Bytes) : Prop := (if needsDecode raw = false then .ok raw else decodeXmlText raw) = .ok text

def Opening (name : Bytes) (attributes : List (Bytes × Bytes)) (selfClosing : Bool) (s : Bytes) : Prop :=
  ∃ raw, StartTag name raw selfClosing s ∧ (raw.map Prod.fst).Nodup ∧
    List.Forall₂ (fun written entry => written.1 = entry.1 ∧ Decoded written.2 entry.2) raw attributes

theorem names_written {raw attributes : List (Bytes × Bytes)}
    (values : List.Forall₂ (fun written entry => written.1 = entry.1 ∧ Decoded written.2 entry.2) raw attributes) :
    raw.map Prod.fst = attributes.map Prod.fst := by
  induction values with
  | nil => rfl
  | cons first _ ih => rw [map_cons, map_cons, ih, first.1]

def Stops (rest : Bytes) : Prop := rest = [] ∨ rest.head? = some 0x3C

/-- What stands inside an element, and what it says under a policy for trivia. -/
inductive Contents (trivia : TriviaPolicy) : List Content → Bytes → Prop
  | nil : Contents trivia [] []
  | blank {raw rest : Bytes} {contents : List Content} (text : Text raw) (discards : trivia = .discard)
    (blank : isWhitespaceOnly raw = true) (stops : Stops rest) (others : Contents trivia contents rest) :
    Contents trivia contents (raw ++ rest)
  | text {raw value rest : Bytes} {contents : List Content} (text : Text raw)
    (kept : trivia = .preserve ∨ isWhitespaceOnly raw = false) (decoded : Decoded raw value) (stops : Stops rest)
    (others : Contents trivia contents rest) : Contents trivia (.leaf .text [] value :: contents) (raw ++ rest)
  | cdata {value s rest : Bytes} {contents : List Content} (quoted : CData value s) (others : Contents trivia contents rest) :
    Contents trivia (.leaf .cdata [] value :: contents) (s ++ rest)
  | comment {value s rest : Bytes} {contents : List Content} (comment : Comment value s) (others : Contents trivia contents rest) :
    Contents trivia (trivia.keeps (.leaf .comment [] value) ++ contents) (s ++ rest)
  | instruction {target body s rest : Bytes} {contents : List Content} (instruction : Instruction target body s)
    (ends : Apart isNameContinue (body ++ [0x3F, 0x3E])) (proper : reservedXml target = false)
    (others : Contents trivia contents rest) :
    Contents trivia (trivia.keeps (.leaf .processingInstruction target body) ++ contents) (s ++ rest)
  | empty {name tag rest : Bytes} {attributes : List (Bytes × Bytes)} {contents : List Content}
    (opening : Opening name attributes true tag) (others : Contents trivia contents rest) :
    Contents trivia (.element name attributes [] :: contents) (tag ++ rest)
  | element {name tag inner close rest : Bytes} {attributes : List (Bytes × Bytes)} {children contents : List Content}
    (opening : Opening name attributes false tag) (inside : Contents trivia children inner) (closing : EndTag name close)
    (others : Contents trivia contents rest) :
    Contents trivia (.element name attributes children :: contents) (tag ++ (inner ++ (close ++ rest)))

inductive Element (trivia : TriviaPolicy) : Content → Bytes → Prop
  | empty {name tag : Bytes} {attributes : List (Bytes × Bytes)} (opening : Opening name attributes true tag) :
    Element trivia (.element name attributes []) tag
  | closed {name tag inner close : Bytes} {attributes : List (Bytes × Bytes)} {children : List Content}
    (opening : Opening name attributes false tag) (inside : Contents trivia children inner) (closing : EndTag name close) :
    Element trivia (.element name attributes children) (tag ++ (inner ++ close))

def Declaration (s : Bytes) : Prop :=
  ∃ body, Instruction [0x78, 0x6D, 0x6C] body s ∧ isWhitespace (peekByte body) = true ∧
    [0x76, 0x65, 0x72, 0x73, 0x69, 0x6F, 0x6E] <:+: body

variable {trivia : TriviaPolicy} {content : Content} {contents : List Content} {s rest : Bytes}

theorem Contents.cons (element : Element trivia content s) (others : Contents trivia contents rest) :
    Contents trivia (content :: contents) (s ++ rest) := by
  cases element with
  | empty opening => exact .empty opening others
  | closed opening inside closing =>
    rw [append_assoc, append_assoc]
    exact .element opening inside closing others

end Grammar

end NginBase.Xml
