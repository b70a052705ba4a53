import NginBase.Xml.Acceptance
import NginBase.Xml.Ownership

namespace NginBase.Xml

open Library Charged Cursor List Grammar TriviaPolicy Tree

namespace Syntax

variable {profile : Profile} {c c' : Cursor}

theorem lex_ok {α : Type} {read : Cursor → Except Failure (α × Cursor)} {p : α × Cursor} (h : (lex c read).result = .ok p) :
    read c = .ok p := h

theorem decode_grammar {raw : Slice} {text : Bytes} (h : (decode profile raw).result = .ok text) : Decoded raw.bytes text := by
  unfold decode at h
  unfold Decoded
  split at h
  · rename_i plain
    cases h
    rw [if_pos plain]
  · rename_i coded
    rw [if_neg coded]
    split at h
    · cases h
    rename_i decoded
    cases h
    exact decoded

theorem parseAttribute_grammar {attributes : List TextAttribute} {entry : TextAttribute}
    (h : (parseAttribute profile attributes c).result = .ok (entry, c')) :
    ∃ w w' raw quote, Name entry.name ∧ entry.name ∉ attributes.map Tree.Attribute.name ∧ Ws w ∧ Ws w' ∧
      (quote = 0x27 ∨ quote = 0x22) ∧ quote ∉ raw ∧ 0x3C ∉ raw ∧ Decoded raw entry.value ∧
      c.Past (entry.name ++ (w ++ 0x3D :: (w' ++ quote :: (raw ++ [quote])))) c' := by
  obtain ⟨⟨name, c₁⟩, named, h⟩ := bind_ok h
  obtain ⟨isName, past₁⟩ := parseName_past (lex_ok named)
  dsimp only at h
  split at h
  · cases h
  rename_i absent
  obtain ⟨⟨quote, c₂⟩, quoted, h⟩ := bind_ok h
  obtain ⟨quotes, w, w', ws, ws', past₂⟩ := scanQuote_past (lex_ok quoted)
  obtain ⟨⟨raw, c₃⟩, scanned, h⟩ := bind_ok h
  obtain ⟨unquoted, noTag, past₃, past₄⟩ := scanValue_past (lex_ok scanned)
  obtain ⟨value, decoded, h⟩ := bind_ok h
  cases h
  have fresh : name.bytes ∉ attributes.map Tree.Attribute.name := by
    intro mem
    obtain ⟨earlier, inside, same⟩ := mem_map.mp mem
    exact find?_eq_none.mp absent earlier inside (decide_eq_true same)
  have past := past₁.trans (past₂.trans (past₃.trans past₄))
  refine ⟨w, w', raw.bytes, quote, isName, fresh, ws, ws', quotes, unquoted, noTag, decode_grammar decoded, ?_⟩
  simpa using past

theorem attributeLoop_grammar {start fuel : Nat} {earlier entries : List TextAttribute} {selfClosing : Bool}
    (distinct : (earlier.map Tree.Attribute.name).Nodup)
    (h : (attributeLoop profile start fuel earlier c).result = .ok ((entries, selfClosing), c')) :
    ∃ more raw inside, entries = earlier ++ more ∧ (entries.map Tree.Attribute.name).Nodup ∧ Attributes raw inside ∧
      List.Forall₂ (fun written entry => written.1 = entry.1 ∧ Decoded written.2 entry.2) raw (more.map nameValue) ∧
      c.Past (inside ++ tagEnd selfClosing) c' := by
  induction fuel generalizing c earlier with
  | zero => cases h
  | succ fuel ih =>
    obtain ⟨w, ws, skipped⟩ := c.skipWhitespace_past
    unfold attributeLoop at h
    dsimp only at h
    split at h
    · rename_i closes
      cases h
      exact ⟨[], [], w, (append_nil _).symm, distinct, .none ws, .nil, skipped.trans (past_starts closes)⟩
    · split at h
      · rename_i ends
        cases h
        exact ⟨[], [], w, (append_nil _).symm, distinct, .none ws, .nil, skipped.trans (past_peek ends (by decide))⟩
      · split at h
        · cases h
        · rename_i moved
          split at h
          · cases h
          obtain ⟨⟨entry, c₁⟩, parsed, h⟩ := bind_ok h
          obtain ⟨w₁, w₂, value, quote, named, fresh, ws₁, ws₂, quotes, unquoted, noTag, decoded, past⟩ := parseAttribute_grammar parsed
          have distinct' : ((earlier ++ [entry]).map Tree.Attribute.name).Nodup := by
            rw [map_append, nodup_append]
            refine ⟨distinct, pairwise_singleton _ _, ?_⟩
            intro a mem b inside same
            cases mem_singleton.mp inside
            exact fresh (same ▸ mem)
          obtain ⟨more, raw, inside, rfl, distinct'', written, values, past'⟩ := ih distinct' h
          have separated : w ≠ [] := by
            intro none
            rw [skipped.offset, none] at moved
            exact moved rfl
          refine ⟨entry :: more, (entry.name, value) :: raw, _, by simp, distinct'',
            .more ws separated named ws₁ ws₂ quotes unquoted noTag written, .cons ⟨rfl, decoded⟩ values, ?_⟩
          simpa using skipped.trans (past.trans past')

/-- A run read `s`, and with what the rest says that says what its trees say. -/
def Stands (profile : Profile) (c : Cursor) (trees : List TextTree) (c' : Cursor) : Prop :=
  ∃ s, s ≠ [] ∧ c.Past s c' ∧ ∀ others rest, rest <+: c'.rest → Contents profile.options.trivia others rest →
    Contents profile.options.trivia (contents trees ++ others) (s ++ rest)

/-- A tree from the cursor `c` says what the element read says. -/
def StandsElement (profile : Profile) (c : Cursor) (tree : TextTree) (c' : Cursor) : Prop :=
  ∃ s, Element profile.options.trivia tree.content s ∧ c.Past s c'

section

variable {trees : List TextTree}

theorem leaf_ok {tree : TextTree} {after : Cursor} (h : (do
    let node ← addNode profile tree
    addChild profile after node : Run (List TextTree × Cursor)).result = .ok (trees, c')) : trees = [tree] ∧ c' = after := by
  cases h
  exact ⟨rfl, rfl⟩

theorem parseComment_grammar (starts : c.startsWith [0x3C, 0x21, 0x2D, 0x2D] = true)
    (h : (parseComment profile c).result = .ok (trees, c')) : Stands profile c trees c' := by
  obtain ⟨⟨text, after⟩, scanned, h⟩ := bind_ok h
  obtain ⟨s, comment, past⟩ := scanComment_past starts (lex_ok scanned)
  have nonempty : s ≠ [] := by
    obtain ⟨_, _, rfl⟩ := comment
    exact cons_ne_nil _ _
  dsimp only at h
  split at h
  · rename_i keep
    obtain ⟨rfl, rfl⟩ := leaf_ok h
    refine ⟨s, nonempty, past, fun others rest _ written => ?_⟩
    have all := written.comment comment
    rwa [keeps, if_pos keep] at all
  · rename_i keep
    cases h
    refine ⟨s, nonempty, past, fun others rest _ written => ?_⟩
    have all := written.comment comment
    rwa [keeps, if_neg keep] at all

theorem parseInstruction_grammar (starts : c.startsWith [0x3C, 0x3F] = true)
    (h : (parseInstruction profile c).result = .ok (trees, c')) : Stands profile c trees c' := by
  obtain ⟨⟨⟨target, body⟩, after⟩, scanned, h⟩ := bind_ok h
  obtain ⟨⟨s, instruction, past⟩, _, proper⟩ := scanInstruction_past starts (lex_ok scanned)
  have ends := scanInstruction_apart (lex_ok scanned)
  have nonempty : s ≠ [] := by
    obtain ⟨_, _, rfl⟩ := instruction
    exact cons_ne_nil _ _
  dsimp only at h
  split at h
  · rename_i keep
    obtain ⟨rfl, rfl⟩ := leaf_ok h
    refine ⟨s, nonempty, past, fun others rest _ written => ?_⟩
    have all := written.instruction instruction ends (proper rfl)
    rwa [keeps, if_pos keep] at all
  · rename_i keep
    cases h
    refine ⟨s, nonempty, past, fun others rest _ written => ?_⟩
    have all := written.instruction instruction ends (proper rfl)
    rwa [keeps, if_neg keep] at all

theorem parseCData_grammar (starts : c.startsWith [0x3C, 0x21, 0x5B, 0x43, 0x44, 0x41, 0x54, 0x41, 0x5B] = true)
    (h : (parseCData profile c).result = .ok (trees, c')) : Stands profile c trees c' := by
  obtain ⟨⟨text, after⟩, scanned, h⟩ := bind_ok h
  obtain ⟨s, quoted, past⟩ := scanCData_past starts (lex_ok scanned)
  obtain ⟨rfl, rfl⟩ := leaf_ok h
  refine ⟨s, ?_, past, fun others rest _ written => written.cdata quoted⟩
  obtain ⟨_, rfl⟩ := quoted
  exact cons_ne_nil _ _

theorem stops_before {ahead rest : Bytes} (stops : Stops ahead) (first : rest <+: ahead) : Stops rest := by
  obtain ⟨more, rfl⟩ := first
  cases rest with
  | nil => exact .inl rfl
  | cons b rest =>
    rcases stops with none | next
    · cases none
    · exact .inr next

theorem parseText_grammar (present : c.rest ≠ []) (data : c.peek ≠ 0x3C) (h : (parseText profile c).result = .ok (trees, c')) :
    Stands profile c trees c' := by
  obtain ⟨⟨raw, after⟩, scanned, h⟩ := bind_ok h
  obtain ⟨text, past, stops⟩ := scanText_past present data (lex_ok scanned)
  dsimp only at h
  split at h
  · rename_i blank
    cases h
    exact ⟨raw.bytes, text.1, past, fun others rest first written => written.blank text blank.1 blank.2 (stops_before stops first)⟩
  · rename_i kept
    obtain ⟨value, decoded, h⟩ := bind_ok h
    obtain ⟨rfl, rfl⟩ := leaf_ok h
    refine ⟨raw.bytes, text.1, past, fun others rest first written => ?_⟩
    refine written.text text ?_ (decode_grammar decoded) (stops_before stops first)
    cases policy : profile.options.trivia with
    | preserve => exact .inl rfl
    | discard =>
      rw [policy] at kept
      exact .inr (Bool.eq_false_iff.mpr fun blank => kept ⟨rfl, blank⟩)

theorem parseItem_grammar {parse : Cursor → Run (TextTree × Cursor)}
    (element : ∀ {c tree c'}, c.peek = 0x3C → (parse c).result = .ok (tree, c') → StandsElement profile c tree c')
    (present : c.rest ≠ []) (h : (parseItem profile parse c).result = .ok (trees, c')) : Stands profile c trees c' := by
  unfold parseItem at h
  split at h
  · rename_i starts
    exact parseComment_grammar starts h
  split at h
  · rename_i starts
    exact parseCData_grammar starts h
  split at h
  · rename_i starts
    exact parseInstruction_grammar starts h
  split at h
  · cases h
  split at h
  · rename_i opens
    obtain ⟨⟨child, after⟩, parsed, h⟩ := bind_ok h
    obtain ⟨s, written, past⟩ := element opens parsed
    cases h
    refine ⟨s, ?_, past, fun others rest _ others' => Contents.cons written others'⟩
    obtain ⟨first, tail, _, rfl⟩ := element_head written
    exact cons_ne_nil _ _
  · rename_i data
    exact parseText_grammar present data h

end

theorem contentLoop_grammar {parse : Cursor → Run (TextTree × Cursor)}
    (element : ∀ {c tree c'}, c.peek = 0x3C → (parse c).result = .ok (tree, c') → StandsElement profile c tree c')
    {start fuel : Nat} {name : Bytes} {trees all : List TextTree}
    (h : (contentLoop profile parse start name fuel trees c).result = .ok (all, c')) :
    ∃ more s close, all = trees ++ more ∧ Contents profile.options.trivia (contents more) s ∧
      EndTag name close ∧ c.Past (s ++ close) c' := by
  induction fuel generalizing c trees with
  | zero => cases h
  | succ fuel ih =>
    unfold contentLoop at h
    split at h
    · cases h
    rename_i present
    split at h
    · rename_i closes
      obtain ⟨⟨closeName, after⟩, scanned, h⟩ := bind_ok h
      obtain ⟨close, closing, past⟩ := scanEndTag_past closes (lex_ok scanned)
      dsimp only at h
      split at h
      · cases h
      rename_i same
      cases h
      rw [not_not.mp same] at closing
      exact ⟨[], [], close, (append_nil _).symm, .nil, closing, past⟩
    · obtain ⟨⟨some_, c₁⟩, parsed, h⟩ := bind_ok h
      obtain ⟨item, _, past, stands⟩ := parseItem_grammar element present parsed
      obtain ⟨more, s, close, rfl, written, closing, past'⟩ := ih h
      have first : s <+: c₁.rest := by
        rw [past'.rest, append_assoc]
        exact prefix_append s _
      refine ⟨some_ ++ more, item ++ s, close, append_assoc _ _ _, ?_, closing, ?_⟩
      · rw [contents_append]
        exact stands _ _ first written
      · rw [append_assoc]
        exact past.trans past'

theorem parseElement_grammar (fuel depth : Nat) {tree : TextTree} (opens : c.peek = 0x3C)
    (h : (parseElement profile fuel depth c).result = .ok (tree, c')) : StandsElement profile c tree c' := by
  induction fuel generalizing depth c c' tree with
  | zero => cases h
  | succ fuel ih =>
    have past := past_peek opens (by decide)
    obtain ⟨_, _, h⟩ := bind_ok h
    obtain ⟨⟨name, c₁⟩, named, h⟩ := bind_ok h
    obtain ⟨isName, past₁⟩ := parseName_past (lex_ok named)
    obtain ⟨⟨⟨attributes, selfClosing⟩, c₂⟩, looped, h⟩ := bind_ok h
    have none : (([] : List TextAttribute).map Tree.Attribute.name).Nodup := nodup_nil
    obtain ⟨more, raw, inside, rfl, distinct, written, values, past₂⟩ := attributeLoop_grammar none looped
    obtain ⟨_, _, h⟩ := bind_ok h
    obtain ⟨⟨children, c₃⟩, parsed, done⟩ := bind_ok h
    have names : raw.map Prod.fst = attributes.map Tree.Attribute.name := by
      rw [names_written values, map_map]
      rfl
    have opening : Opening name.bytes (attributes.map nameValue) selfClosing ([0x3C] ++ (name.bytes ++ (inside ++ tagEnd selfClosing))) :=
      ⟨raw, ⟨inside, isName, written, rfl⟩, names ▸ distinct, values⟩
    have whole := past.trans (past₁.trans past₂)
    unfold parseContent at parsed
    cases selfClosing with
    | true =>
      cases parsed
      cases done
      refine ⟨_, ?_, whole⟩
      exact .empty opening
    | false =>
      obtain ⟨more, s, close, rfl, content, closing, past₃⟩ := contentLoop_grammar (fun opens h => ih (depth + 1) opens h) parsed
      cases done
      refine ⟨_, ?_, whole.trans past₃⟩
      exact .closed opening content closing

theorem parse_by_grammar {input : Bytes} {tree : TextTree} (h : (parse profile input).result = .ok tree) :
    XmlText input ∧ ∃ before s after, input = before ++ (s ++ after) ∧ Element profile.options.trivia tree.content s := by
  have behind {c c' : Cursor} {n : Nat} (over' : c.Over c' n) : c.rest = c.rest.take n ++ c'.rest := by
    rw [over'.rest, take_append_drop]
  unfold parse at h
  split at h
  · cases h
  split at h
  · cases h
  split at h
  · cases h
  rename_i valid
  rw [Bool.not_eq_false] at valid
  constructor
  · exact (isValidXmlUtf8_iff input).mp valid
  · obtain ⟨⟨root, c₀⟩, document, h⟩ := bind_ok h
    cases h
    obtain ⟨⟨_, c₁⟩, declared, document⟩ := bind_ok document
    obtain ⟨_, n, over₁⟩ := parseDeclaration_ends.ok _ declared
    obtain ⟨⟨_, c₂⟩, skipped, document⟩ := bind_ok document
    obtain ⟨_, m, over₂⟩ := (miscLoop_ends true _ false (Nat.lt_succ_self _)).ok _ skipped
    dsimp only at document
    split at document
    · cases document
    rename_i rooted
    rw [not_or, not_not] at rooted
    obtain ⟨⟨root', c₃⟩, parsed, document⟩ := bind_ok document
    obtain ⟨⟨_, c₄⟩, skipped', document⟩ := bind_ok document
    split at document
    · cases document
    cases document
    obtain ⟨s, element, past⟩ := parseElement_grammar _ 0 rooted.1 parsed
    have start := behind (over₁.trans over₂)
    rw [past.rest] at start
    exact ⟨_, s, c₃.rest, start, element⟩

end Syntax

def Exceeds (profile : Profile) (input : Bytes) : Prop :=
  profile.limits.maxInputBytes < input.length ∨ decodedBit ≤ input.length ∨
    ∃ tree, (Syntax.parse profile input).result = .ok tree ∧ ¬ (Syntax.parse profile input).total.Stored profile.limits

section

variable (setup : Setup)

theorem Parser.parse_element {input : Bytes} {doc : Document} (h : parse setup input = .ok doc) :
    XmlText input ∧ ∃ before s after, input = before ++ (s ++ after) ∧
      Element setup.options.trivia doc.tree.content s := by
  rcases run_cases setup .owned input with ⟨e, failed, _⟩ | ⟨doc', _, ok, _, read⟩ | ⟨d, e, failed, _⟩
  · cases failed.symm.trans h
  · cases ok.symm.trans h
    exact Syntax.parse_by_grammar (Syntax.document_ok.mp read).1
  · cases failed.symm.trans h

theorem Parser.parse_content {content : Content} {declaration s : Bytes} (declares : declaration = [] ∨ Declaration declaration)
    (element : Element setup.options.trivia content s) (text : XmlText (declaration ++ s)) :
    (∃ doc, parse setup (declaration ++ s) = .ok doc ∧ doc.tree.content = content) ∨
      (∃ e, parse setup (declaration ++ s) = .error e ∧ MemoryFailure e ∧ setup.Scarce) ∨
      ∃ e, parse setup (declaration ++ s) = .error e ∧ Exceeds setup.toProfile (declaration ++ s) := by
  rcases run_cases setup .owned (declaration ++ s) with ⟨e, failed, scarce, memory⟩ | ⟨doc, _, ok, _, read⟩ | ⟨d, e, failed, refused, _⟩
  · exact .inr (.inl ⟨e, failed, memory, scarce⟩)
  · left
    have accepted := (Syntax.document_ok.mp read).1
    by_cases room : (declaration ++ s).length ≤ setup.limits.maxInputBytes ∧ (declaration ++ s).length < decodedBit
    · obtain ⟨tree, parsed, meaning⟩ := Syntax.parse_reads setup.toProfile declares element text room.1 room.2
      cases accepted.symm.trans parsed
      exact ⟨doc, ok, meaning⟩
    · -- a text that is too long is not accepted
      unfold Syntax.parse at accepted
      split at accepted
      · cases accepted
      split at accepted
      · cases accepted
      rename_i first second
      exact absurd ⟨Nat.not_lt.mp first, Nat.not_le.mp second⟩ room
  · right
    right
    refine ⟨_, failed, ?_⟩
    by_cases long : setup.limits.maxInputBytes < (declaration ++ s).length
    · exact .inl long
    by_cases huge : decodedBit ≤ (declaration ++ s).length
    · exact .inr (.inl huge)
    obtain ⟨tree, parsed, _⟩ :=
      Syntax.parse_reads setup.toProfile declares element text (Nat.not_lt.mp long) (Nat.not_le.mp huge)
    refine .inr (.inr ⟨tree, parsed, fun stored => ?_⟩)
    have accepted := Syntax.document_ok.mpr ⟨parsed, stored⟩
    cases accepted.symm.trans refused

end

end NginBase.Xml
