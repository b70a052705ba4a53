import NginBase.Xml.SyntaxPasses

namespace NginBase.Xml

open Library List Cursor

namespace SyntaxContext

open ParseContext

variable {setup : Setup} {grants : Nat → Bool} {input : Bytes} {s s' : SyntaxContext}

theorem parseStartTag_crossed {ctx opened ctx' : ParseContext} {start : Nat} {nameRef : TextRef} {selfClosing : Bool}
    (mode : setup.ownership ≠ .inSitu) (opens : ctx.Crossed [0x3C] opened)
    (h : parseStartTag setup start opened = .ok ((nameRef, selfClosing), ctx')) :
    ∃ text, Construct .startTag text ∧ ctx.Crossed text ctx' := by
  obtain ⟨⟨name, ctx₁⟩, named, h⟩ := bind_ok h
  obtain ⟨c, named, crossed⟩ := lex_crossed named
  obtain ⟨isName, past⟩ := parseName_past named
  obtain ⟨⟨closing, ctx₂⟩, looped, h⟩ := bind_ok h
  obtain ⟨attributes, inside, read, rest⟩ := attributeLoop_crossed mode looped
  cases h
  exact ⟨_, .startTag ⟨inside, isName, read, rfl⟩, opens.trans ((crossed _ past).trans rest)⟩

theorem Reads.parseElement (mode : setup.ownership ≠ .inSitu) {fuel : Nat} {id : NodeId} (reads : Reads input s)
    (opens : s.context.cursor.peek = 0x3C) (h : parseElement setup grants fuel s = .ok (id, s')) :
    Tight setup input s s' ∧ ∃ t ∈ s'.tokens, t.kind = .startTag := by
  induction fuel generalizing s s' id with
  | zero => cases h
  | succ fuel ih =>
    rw [SyntaxContext.parseElement] at h
    split at h
    · cases h
    obtain ⟨⟨⟨nameRef, selfClosing⟩, ctx₁⟩, tag, h⟩ := bind_ok h
    obtain ⟨s₂, listed, h⟩ := bind_ok h
    have bracket : s.context.Crossed [0x3C]
        { s.context with depth := s.context.depth + 1, offset := (s.context.cursor.advance 1).offset } :=
      (crossed_move (past_peek opens (by decide))).still ⟨rfl, rfl⟩
    obtain ⟨text, construct, crossed⟩ := parseStartTag_crossed mode bracket tag
    have first : Tight setup input s s₂ ∧ s₂.context = ctx₁ ∧ ∃ t ∈ s₂.tokens, t.kind = .startTag :=
      reads.added trivial construct crossed (fun other => nomatch other) listed
    obtain ⟨tight, _, t, mem, isTag⟩ := first
    dsimp only at h
    split at h
    · cases h
    obtain ⟨ctx₃, granted, h⟩ := bind_ok h
    have room := allocate_still granted
    have entered (elements : List ElementRecord) : Tight setup input s₂ { s₂ with context := { ctx₃ with elements } } :=
      tight.reads.still ⟨room.source, room.offset⟩
    obtain ⟨s₄, content, h⟩ := bind_ok h
    have inside : Tight setup input s₂ s₄ := by
      unfold parseContent at content
      split at content
      · cases content
        exact entered _
      have loop := (entered _).reads.contentLoop (fun s s' id reads opens h => (ih reads opens h).1) mode content
      exact (entered _).trans loop
    obtain ⟨⟨node, ctx₅⟩, added, h⟩ := bind_ok h
    cases h
    have left := addNode_still added
    have closed : Tight setup input s₄ { s₄ with context := ctx₅ } := inside.reads.still ⟨left.source, left.offset⟩
    constructor
    · exact tight.trans (inside.trans closed)
    · obtain ⟨more, tokens, _⟩ := (inside.trans closed).tokens
      rw [tokens]
      exact ⟨t, mem_append_left _ mem, isTag⟩

/-- Outside the root element there is white space between the tokens, and no token is a tag. -/
abbrev Loose (setup : Setup) (input : Bytes) (s s' : SyntaxContext) : Prop :=
  Lists setup input (fun i => (input[i]?).any isWhitespace = true) (fun kind => kind ≠ .startTag ∧ kind ≠ .endTag) s s'

theorem Reads.skipWhitespace (reads : Reads input s) :
    Loose setup input s { s with context := s.context.skipWhitespace } := by
  obtain ⟨w, ws, crossed⟩ := s.context.skipWhitespace_crossed
  obtain ⟨source, offset, inside, here⟩ := reads.crossed crossed
  constructor
  · exact source
  · exact inside
  · apply Exists.intro []
    constructor
    · exact (append_nil _).symm
    · constructor
      · apply Tiles.done
        · dsimp only
          omega
        · intro i low high
          dsimp only at high
          have place : w[i - s.context.offset]? = input[i]? := by
            rw [← here, getElem?_take_of_lt (by omega), getElem?_drop, Nat.add_sub_cancel' low]
          have short : i - s.context.offset < w.length := by omega
          rw [← place, getElem?_eq_getElem short]
          exact ws _ (getElem_mem short)
      · exact fun _ none => nomatch none

theorem Reads.miscLoop (reads : Reads input s) {prolog sawDoctype : Bool} {fuel : Nat}
    (h : miscLoop setup grants prolog fuel sawDoctype s = .ok s') : Loose setup input s s' := by
  induction fuel generalizing s sawDoctype with
  | zero => cases h
  | succ fuel ih =>
    have blank : Loose setup input s { s with context := s.context.skipWhitespace } := reads.skipWhitespace
    rw [SyntaxContext.miscLoop] at h
    split at h
    · obtain ⟨s₁, comment, h⟩ := bind_ok h
      have first : Loose setup input _ s₁ := blank.reads.parseComment (by decide) (by assumption) comment
      exact blank.trans (first.trans (ih first.reads h))
    split at h
    · obtain ⟨s₁, instruction, h⟩ := bind_ok h
      have first : Loose setup input _ s₁ := blank.reads.parseProcessingInstruction (by decide) (by assumption) instruction
      exact blank.trans (first.trans (ih first.reads h))
    split at h
    · rename_i doctype
      split at h
      · cases h
      obtain ⟨s₁, declared, h⟩ := bind_ok h
      have first : Loose setup input _ s₁ := blank.reads.parseDoctype (by decide) doctype.2 declared
      exact blank.trans (first.trans (ih first.reads h))
    · cases h
      exact blank

theorem Reads.parseDeclaration (reads : Reads input s) (start : s.context.offset = 0)
    (h : s.parseDeclaration setup grants = .ok s') :
    ∃ offset, (offset = 0 ∨ offset = 3 ∧ [0xEF, 0xBB, 0xBF] <+: input) ∧
      Loose setup input { s with context := { s.context with offset } } s' := by
  have whole : s.context.cursor.rest = input := by rw [ParseContext.cursor, start, reads.source, drop_zero]
  unfold SyntaxContext.parseDeclaration at h
  dsimp only at h
  have behind {offset : Nat} (there : Reads input { s with context := { s.context with offset } })
      (h : (if ({ s.context with offset } : ParseContext).cursor.isXmlDeclaration then
        ({ s with context := { s.context with offset } } : SyntaxContext).parseProcessingInstruction setup grants none true
        else .ok { s with context := { s.context with offset } }) = .ok s') :
      Loose setup input { s with context := { s.context with offset } } s' := by
    split at h
    · rename_i declared
      apply there.parseProcessingInstruction (by decide) _ h
      rw [isXmlDeclaration, Bool.and_eq_true] at declared
      have keyword := (startsWith_iff _).mp declared.1
      have shorter : ([0x3C, 0x3F] : Bytes) <+: [0x3C, 0x3F, 0x78, 0x6D, 0x6C] := ⟨[0x78, 0x6D, 0x6C], rfl⟩
      exact (startsWith_iff _).mpr (shorter.trans keyword)
    · cases h
      exact there.lists
  split at h
  · rename_i mark
    have crossed := crossed_move (past_starts mark)
    obtain ⟨_, offset, inside, _⟩ := reads.crossed crossed
    apply Exists.intro (s.context.cursor.advance 3).offset
    constructor
    · right
      constructor
      · have three : (s.context.cursor.advance 3).offset = s.context.offset + 3 := offset
        rw [three, start]
      · rw [← whole]
        exact (startsWith_iff _).mp mark
    · exact behind ⟨reads.source, inside⟩ h
  · exact ⟨s.context.offset, .inl start, behind reads h⟩

end SyntaxContext

open SyntaxContext

end NginBase.Xml
