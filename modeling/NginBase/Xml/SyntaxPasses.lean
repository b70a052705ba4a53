import NginBase.Library.Tables
import NginBase.Xml.Constructs

namespace NginBase.Xml

open Library Cursor List Grammar

inductive Construct : SyntaxKind → Bytes → Prop
  | xmlDeclaration {body s : Bytes} (text : Instruction [0x78, 0x6D, 0x6C] body s)
    (separated : isWhitespace (peekByte body) = true) (version : [0x76, 0x65, 0x72, 0x73, 0x69, 0x6F, 0x6E] <:+: body) :
    Construct .xmlDeclaration s
  | startTag {name s : Bytes} {attributes : List (Bytes × Bytes)} {selfClosing : Bool}
    (text : StartTag name attributes selfClosing s) : Construct .startTag s
  | endTag {name s : Bytes} (text : EndTag name s) : Construct .endTag s
  | text {s : Bytes} (text : Text s) : Construct .text s
  | cdata {body s : Bytes} (text : CData body s) : Construct .cdata s
  | comment {body s : Bytes} (text : Comment body s) : Construct .comment s
  | processingInstruction {target body s : Bytes} (text : Instruction target body s)
    (unreserved : reservedXml target = false) : Construct .processingInstruction s
  | doctype {s : Bytes} (text : Doctype s) : Construct .doctype s

theorem Construct.nonempty {kind : SyntaxKind} {s : Bytes} (construct : Construct kind s) : s ≠ [] := by
  intro empty
  subst empty
  cases construct with
  | xmlDeclaration text => cases text.2.2
  | startTag text =>
    obtain ⟨_, _, _, text⟩ := text
    cases text
  | endTag text =>
    obtain ⟨_, _, _, text⟩ := text
    cases text
  | text text => exact text.1 rfl
  | cdata text => cases text.2
  | comment text => cases text.2.2
  | processingInstruction text => cases text.2.2
  | doctype text => cases text.2

namespace ParseContext

structure Still (ctx ctx' : ParseContext) : Prop where
  source : ctx'.memory.source = ctx.memory.source
  offset : ctx'.offset = ctx.offset

/-- The text is the same, and the cursor went past `s`. -/
structure Crossed (ctx : ParseContext) (s : Bytes) (ctx' : ParseContext) : Prop where
  source : ctx'.memory.source = ctx.memory.source
  past : ctx.cursor.Past s ctx'.cursor

variable {setup : Setup} {ctx ctx' ctx'' : ParseContext} {s t : Bytes}

theorem Still.refl (ctx : ParseContext) : ctx.Still ctx := ⟨rfl, rfl⟩

theorem Still.trans (first : ctx.Still ctx') (second : ctx'.Still ctx'') : ctx.Still ctx'' :=
  ⟨second.source.trans first.source, second.offset.trans first.offset⟩

theorem Still.cursor (still : ctx.Still ctx') : ctx'.cursor = ctx.cursor := by
  rw [ParseContext.cursor, still.source, still.offset, ParseContext.cursor]

theorem Crossed.still (crossed : ctx.Crossed s ctx') (still : ctx'.Still ctx'') : ctx.Crossed s ctx'' := by
  constructor
  · exact still.source.trans crossed.source
  · rw [still.cursor]
    exact crossed.past

theorem Still.crossed (still : ctx.Still ctx') (crossed : ctx'.Crossed s ctx'') : ctx.Crossed s ctx'' := by
  constructor
  · exact crossed.source.trans still.source
  · rw [← still.cursor]
    exact crossed.past

theorem Crossed.trans (first : ctx.Crossed s ctx') (second : ctx'.Crossed t ctx'') : ctx.Crossed (s ++ t) ctx'' :=
  ⟨second.source.trans first.source, first.past.trans second.past⟩

theorem crossed_move {c : Cursor} (past : ctx.cursor.Past s c) : ctx.Crossed s { ctx with offset := c.offset } := by
  constructor
  · rfl
  · have same : ({ ctx with offset := c.offset } : ParseContext).cursor = c := by
      have rest := past.rest
      obtain ⟨offset, bytes⟩ := c
      have moved : offset = ctx.offset + s.length := past.offset
      subst moved
      rw [ParseContext.cursor] at rest ⊢
      dsimp only at rest ⊢
      rw [← drop_drop, rest, drop_left]
    rw [same]
    exact past

theorem lex_crossed {α : Type} {a : α} {read : Cursor → Except Failure (α × Cursor)} (h : ctx.lex read = .ok (a, ctx')) :
    ∃ c, read ctx.cursor = .ok (a, c) ∧ ∀ s, ctx.cursor.Past s c → ctx.Crossed s ctx' := by
  obtain ⟨c, scanned, rfl⟩ := lex_ok h
  exact ⟨c, scanned, fun s past => crossed_move past⟩

theorem allocate_still {message : String} {first last : Nat} (h : ctx.allocate setup message first last = .ok ctx') :
    ctx.Still ctx' := by
  unfold allocate at h
  split at h
  · cases h
    exact ⟨rfl, rfl⟩
  · cases h

theorem addNode_still {node : NodeRecord} {id : NodeId} (h : ctx.addNode setup node = .ok (id, ctx')) : ctx.Still ctx' := by
  unfold addNode at h
  split at h
  · cases h
  obtain ⟨ctx₁, granted, h⟩ := bind_ok h
  cases h
  exact ⟨(allocate_still granted).source, (allocate_still granted).offset⟩

theorem addChild_still {elementIndex : Nat} {child : NodeId} (h : ctx.addChild setup elementIndex child = .ok ctx') :
    ctx.Still ctx' := by
  unfold addChild at h
  split at h
  · cases h
  split at h
  · cases h
  dsimp only at h
  split at h
  · cases h
  cases h
  exact ⟨rfl, rfl⟩

theorem addLeaf_still {elementIndex : Nat} {node : NodeRecord} (h : ctx.addLeaf setup elementIndex node = .ok ctx') :
    ctx.Still ctx' := by
  obtain ⟨⟨id, ctx₁⟩, added, h⟩ := bind_ok h
  exact (addNode_still added).trans (addChild_still h)

theorem decodeText_still {refused : String} {raw : Slice} {ref : TextRef} (mode : setup.ownership ≠ .inSitu)
    (h : ctx.decodeText setup refused raw = .ok (ref, ctx')) : ctx.Still ctx' := by
  unfold decodeText at h
  split at h
  · cases h
    exact .refl _
  unfold decodeCopy at h
  split at h
  · cases h
  dsimp only at h
  split at h
  · cases h
  obtain ⟨_, _, h⟩ := bind_ok h
  split at h
  · cases h
    exact ⟨rfl, rfl⟩
  obtain ⟨ctx₁, granted, h⟩ := bind_ok h
  split at h
  · cases h
  obtain ⟨ctx₂, granted', h⟩ := bind_ok h
  cases h
  have first := allocate_still granted
  have second := allocate_still granted'
  exact ⟨second.source.trans first.source, second.offset.trans first.offset⟩

theorem parseComment_crossed {parentElement : Option Nat} (starts : ctx.cursor.startsWith [0x3C, 0x21, 0x2D, 0x2D] = true)
    (h : ctx.parseComment setup parentElement = .ok ctx') : ∃ s, Construct .comment s ∧ ctx.Crossed s ctx' := by
  obtain ⟨⟨text, ctx₁⟩, scanned, h⟩ := bind_ok h
  obtain ⟨c, scanned, crossed⟩ := lex_crossed scanned
  obtain ⟨s, comment, past⟩ := scanComment_past starts scanned
  apply Exists.intro s
  constructor
  · exact .comment comment
  · apply (crossed s past).still
    dsimp only at h
    split at h
    · split at h
      · exact addLeaf_still h
      · cases h
        exact .refl _
    · cases h
      exact .refl _

theorem parseProcessingInstruction_crossed {parentElement : Option Nat} {declaration : Bool}
    (starts : ctx.cursor.startsWith [0x3C, 0x3F] = true)
    (h : ctx.parseProcessingInstruction setup parentElement declaration = .ok ctx') :
    ∃ s, Construct (if declaration then .xmlDeclaration else .processingInstruction) s ∧ ctx.Crossed s ctx' := by
  obtain ⟨⟨⟨target, body⟩, ctx₁⟩, scanned, h⟩ := bind_ok h
  obtain ⟨c, scanned, crossed⟩ := lex_crossed scanned
  obtain ⟨⟨s, instruction, past⟩, declared, undeclared⟩ := scanInstruction_past starts scanned
  apply Exists.intro s
  constructor
  · cases declaration with
    | true =>
      obtain ⟨target', separated, version⟩ := declared rfl
      rw [target'] at instruction
      exact .xmlDeclaration instruction separated version
    | false => exact .processingInstruction instruction (undeclared rfl)
  · apply (crossed s past).still
    dsimp only at h
    split at h
    · split at h
      · exact addLeaf_still h
      · cases h
        exact .refl _
    · cases h
      exact .refl _

theorem parseCData_crossed {elementIndex : Nat}
    (starts : ctx.cursor.startsWith [0x3C, 0x21, 0x5B, 0x43, 0x44, 0x41, 0x54, 0x41, 0x5B] = true)
    (h : ctx.parseCData setup elementIndex = .ok ctx') : ∃ s, Construct .cdata s ∧ ctx.Crossed s ctx' := by
  obtain ⟨⟨text, ctx₁⟩, scanned, h⟩ := bind_ok h
  obtain ⟨c, scanned, crossed⟩ := lex_crossed scanned
  obtain ⟨s, cdata, past⟩ := scanCData_past starts scanned
  exact ⟨s, .cdata cdata, (crossed s past).still (addLeaf_still h)⟩

theorem parseText_crossed {elementIndex : Nat} (mode : setup.ownership ≠ .inSitu) (present : ctx.cursor.rest ≠ [])
    (data : ctx.cursor.peek ≠ 0x3C) (h : ctx.parseText setup elementIndex = .ok ctx') :
    ∃ s, Construct .text s ∧ ctx.Crossed s ctx' ∧ (ctx'.cursor.rest = [] ∨ ctx'.cursor.rest.head? = some 0x3C) := by
  obtain ⟨⟨raw, ctx₁⟩, scanned, h⟩ := bind_ok h
  obtain ⟨c, scanned, crossed⟩ := lex_crossed scanned
  obtain ⟨text, past, stop⟩ := scanText_past present data scanned
  have whole : ctx.Crossed raw.bytes ctx' := by
    apply (crossed _ past).still
    dsimp only at h
    split at h
    · cases h
      exact .refl _
    obtain ⟨⟨ref, ctx₂⟩, decoded, h⟩ := bind_ok h
    exact (decodeText_still mode decoded).trans (addLeaf_still h)
  have same : ctx'.cursor.rest = c.rest := append_cancel_left (whole.past.rest.symm.trans past.rest)
  exact ⟨raw.bytes, .text text, whole, same ▸ stop⟩

theorem doctype_crossed (starts : ctx.cursor.startsWith [0x3C, 0x21, 0x44, 0x4F, 0x43, 0x54, 0x59, 0x50, 0x45] = true)
    {u : Unit} (h : ctx.lex (scanDoctype setup.toProfile) = .ok (u, ctx')) :
    ∃ s, Construct .doctype s ∧ ctx.Crossed s ctx' := by
  obtain ⟨c, scanned, crossed⟩ := lex_crossed h
  obtain ⟨s, doctype, past⟩ := scanDoctype_past starts scanned
  exact ⟨s, .doctype doctype, crossed s past⟩

theorem skipWhitespace_crossed (ctx : ParseContext) : ∃ w, Ws w ∧ ctx.Crossed w ctx.skipWhitespace := by
  obtain ⟨w, ws, past⟩ := ctx.cursor.skipWhitespace_past
  exact ⟨w, ws, crossed_move past⟩

theorem parseAttribute_crossed {start attributeBegin : Nat} (mode : setup.ownership ≠ .inSitu)
    (h : ctx.parseAttribute setup start attributeBegin = .ok ctx') :
    ∃ name w w' value quote, Name name ∧ Ws w ∧ Ws w' ∧ (quote = 0x27 ∨ quote = 0x22) ∧ quote ∉ value ∧
      0x3C ∉ value ∧ ctx.Crossed (name ++ (w ++ 0x3D :: (w' ++ quote :: (value ++ [quote])))) ctx' := by
  obtain ⟨⟨name, ctx₁⟩, named, h⟩ := bind_ok h
  obtain ⟨c₁, named, crossed₁⟩ := lex_crossed named
  obtain ⟨isName, past₁⟩ := parseName_past named
  dsimp only at h
  split at h
  · cases h
  obtain ⟨⟨quote, ctx₂⟩, quoted, h⟩ := bind_ok h
  obtain ⟨c₂, quoted, crossed₂⟩ := lex_crossed quoted
  obtain ⟨quotes, w, w', ws, ws', past₂⟩ := scanQuote_past quoted
  obtain ⟨⟨raw, ctx₃⟩, valued, h⟩ := bind_ok h
  obtain ⟨c₃, valued, crossed₃⟩ := lex_crossed valued
  obtain ⟨unquoted, noTag, past₃, closed⟩ := scanValue_past valued
  obtain ⟨⟨value, ctx₄⟩, decoded, h⟩ := bind_ok h
  have still := decodeText_still mode decoded
  have here : ctx₄.cursor = c₃ := still.cursor.trans ((crossed₃ _ past₃).past.unique past₃)
  rw [← here] at closed
  have last : ctx₄.Crossed [quote] ctx' := by
    split at h
    · cases h
    obtain ⟨ctx₅, granted, h⟩ := bind_ok h
    cases h
    have room := allocate_still granted
    exact (crossed_move closed).still ⟨room.source, room.offset⟩
  have all := (crossed₁ _ past₁).trans ((crossed₂ _ past₂).trans ((crossed₃ _ past₃).trans (still.crossed last)))
  apply Exists.intro name.bytes
  apply Exists.intro w
  apply Exists.intro w'
  apply Exists.intro raw.bytes
  apply Exists.intro quote
  simpa using And.intro isName (And.intro ws (And.intro ws' (And.intro quotes (And.intro unquoted (And.intro noTag all)))))

theorem attributeLoop_crossed {start attributeBegin fuel : Nat} {selfClosing : Bool} (mode : setup.ownership ≠ .inSitu)
    (h : ctx.attributeLoop setup start attributeBegin fuel = .ok (selfClosing, ctx')) :
    ∃ attributes inside, Attributes attributes inside ∧
      ctx.Crossed (inside ++ if selfClosing then [0x2F, 0x3E] else [0x3E]) ctx' := by
  induction fuel generalizing ctx with
  | zero => cases h
  | succ fuel ih =>
    obtain ⟨w, ws, skipped⟩ := ctx.skipWhitespace_crossed
    rw [attributeLoop] at h
    split at h
    · rename_i closes
      cases h
      have closed := crossed_move (past_starts closes)
      exact ⟨[], w, .none ws, skipped.trans closed⟩
    split at h
    · rename_i closes
      cases h
      have closed := crossed_move (past_peek closes (by decide))
      exact ⟨[], w, .none ws, skipped.trans closed⟩
    split at h
    · cases h
    rename_i apart
    split at h
    · cases h
    obtain ⟨ctx₁, parsed, h⟩ := bind_ok h
    obtain ⟨name, w₁, w₂, value, quote, named, ws₁, ws₂, quotes, unquoted, noTag, crossed⟩ := parseAttribute_crossed mode parsed
    obtain ⟨attributes, inside, others, rest⟩ := ih h
    have separated : w ≠ [] := by
      intro empty
      have moved : ctx.skipWhitespace.offset = ctx.offset + w.length := skipped.past.offset
      rw [empty] at moved
      exact apart moved
    apply Exists.intro ((name, value) :: attributes)
    apply Exists.intro (w ++ (name ++ (w₁ ++ 0x3D :: (w₂ ++ quote :: (value ++ quote :: inside)))))
    constructor
    · exact .more ws separated named ws₁ ws₂ quotes unquoted noTag others
    · have all := skipped.trans (crossed.trans rest)
      simpa using all

end ParseContext

namespace SyntaxContext

open ParseContext

variable {setup : Setup} {grants : Nat → Bool} {input : Bytes} {free : Nat → Prop} {kinds : SyntaxKind → Prop}
  {s s' s'' : SyntaxContext}

/-- A token covers one construct of its kind, a text token all of the text there. -/
structure Marks (source : SourceId) (input : Bytes) (t : SyntaxToken) : Prop where
  source : t.span.source = source
  inside : t.span.last ≤ input.length
  construct : Construct t.kind ((input.drop t.span.first).take (t.span.last - t.span.first))
  maximal : t.kind = .text → input[t.span.last]? = none ∨ input[t.span.last]? = some 0x3C

/-- From `s` to `s'` the parser went on in `input` and listed the constructs of some `kinds`, with
    nothing but `free` places between them. -/
structure Lists (setup : Setup) (input : Bytes) (free : Nat → Prop) (kinds : SyntaxKind → Prop) (s s' : SyntaxContext) : Prop where
  source : s'.context.memory.source = input
  inside : s'.context.offset ≤ input.length
  tokens : ∃ ts, s'.tokens = s.tokens ++ ts ∧
    Tiles (fun t : SyntaxToken => t.span.first) (fun t => t.span.last) free s.context.offset ts s'.context.offset ∧
    ∀ t ∈ ts, kinds t.kind ∧ Marks setup.source input t

/-- A context that reads `input`. -/
structure Reads (input : Bytes) (s : SyntaxContext) : Prop where
  source : s.context.memory.source = input
  inside : s.context.offset ≤ input.length

theorem Lists.reads (lists : Lists setup input free kinds s s') : Reads input s' := ⟨lists.source, lists.inside⟩

theorem Reads.lists (reads : Reads input s) : Lists setup input free kinds s s :=
  ⟨reads.source, reads.inside, [], (append_nil _).symm, Tiles.refl _, fun _ none => nomatch none⟩

theorem Lists.trans (first : Lists setup input free kinds s s') (second : Lists setup input free kinds s' s'') :
    Lists setup input free kinds s s'' := by
  obtain ⟨ts, listed, tiles, marks⟩ := first.tokens
  obtain ⟨ts', listed', tiles', marks'⟩ := second.tokens
  constructor
  · exact second.source
  · exact second.inside
  · apply Exists.intro (ts ++ ts')
    constructor
    · rw [listed', listed, append_assoc]
    · constructor
      · exact tiles.append tiles'
      · intro t mem
        rcases mem_append.mp mem with earlier | later
        · exact marks t earlier
        · exact marks' t later

section

variable (reads : Reads input s)

include reads

theorem Reads.crossed {ctx' : ParseContext} {text : Bytes} (crossed : s.context.Crossed text ctx') :
    ctx'.memory.source = input ∧ ctx'.offset = s.context.offset + text.length ∧ ctx'.offset ≤ input.length ∧
      (input.drop s.context.offset).take text.length = text := by
  have source : ctx'.memory.source = input := crossed.source.trans reads.source
  have offset : ctx'.offset = s.context.offset + text.length := crossed.past.offset
  have rest := crossed.past.rest
  rw [ParseContext.cursor, reads.source] at rest
  dsimp only at rest
  have length := congrArg length rest
  rw [length_drop, length_append] at length
  have inside := reads.inside
  constructor
  · exact source
  · constructor
    · exact offset
    · constructor
      · omega
      · rw [rest, take_left]

theorem Reads.added {kind : SyntaxKind} {ctx' : ParseContext} {text : Bytes} (permitted : kinds kind)
    (construct : Construct kind text) (crossed : s.context.Crossed text ctx')
    (stop : kind = .text → ctx'.cursor.rest = [] ∨ ctx'.cursor.rest.head? = some 0x3C)
    (h : addSyntax setup grants { s with context := ctx' } kind s.context.offset ctx'.offset = .ok s') :
    Lists setup input free kinds s s' ∧ s'.context = ctx' ∧ ∃ t ∈ s'.tokens, t.kind = kind := by
  obtain ⟨source, offset, inside, here⟩ := reads.crossed crossed
  unfold addSyntax at h
  split at h
  · cases h
    have positive : 0 < text.length := length_pos_of_ne_nil construct.nonempty
    have token : Marks setup.source input ⟨kind, ⟨setup.source, s.context.offset, ctx'.offset⟩⟩ := by
      constructor
      · rfl
      · exact inside
      · rw [offset, Nat.add_sub_cancel_left, here]
        exact construct
      · intro isText
        have after : ctx'.cursor.rest = input.drop ctx'.offset := by rw [ParseContext.cursor, source]
        rw [after, head?_drop, drop_eq_nil_iff, ← getElem?_eq_none_iff] at stop
        exact stop isText
    have wide : s.context.offset < ctx'.offset := by omega
    constructor
    · constructor
      · exact source
      · exact inside
      · apply Exists.intro [⟨kind, ⟨setup.source, s.context.offset, ctx'.offset⟩⟩]
        constructor
        · rfl
        · constructor
          · exact .token (Nat.le_refl _) (fun _ low high => absurd high (Nat.not_lt_of_le low)) wide (Tiles.refl _)
          · intro t mem
            rw [mem_singleton.mp mem]
            exact ⟨permitted, token⟩
    · exact ⟨rfl, _, mem_append_right _ mem_cons_self, rfl⟩
  · cases h

theorem Reads.mark {kind : SyntaxKind} {part : ParseContext → Except Failure ParseContext} (permitted : kinds kind)
    (went : ∀ ctx', part s.context = .ok ctx' → ∃ text, Construct kind text ∧ s.context.Crossed text ctx' ∧
      (kind = .text → ctx'.cursor.rest = [] ∨ ctx'.cursor.rest.head? = some 0x3C))
    (h : s.mark setup grants kind part = .ok s') : Lists setup input free kinds s s' := by
  obtain ⟨ctx', ran, h⟩ := bind_ok h
  obtain ⟨text, construct, crossed, stop⟩ := went ctx' ran
  exact (reads.added permitted construct crossed stop h).1

theorem Reads.parseComment (permitted : kinds .comment) {parentElement : Option Nat}
    (starts : s.context.cursor.startsWith [0x3C, 0x21, 0x2D, 0x2D] = true)
    (h : s.parseComment setup grants parentElement = .ok s') : Lists setup input free kinds s s' := by
  apply reads.mark permitted _ h
  intro ctx' ran
  obtain ⟨text, construct, crossed⟩ := parseComment_crossed starts ran
  exact ⟨text, construct, crossed, fun other => nomatch other⟩

theorem Reads.parseProcessingInstruction {parentElement : Option Nat} {declaration : Bool}
    (permitted : kinds (if declaration then .xmlDeclaration else .processingInstruction))
    (starts : s.context.cursor.startsWith [0x3C, 0x3F] = true)
    (h : s.parseProcessingInstruction setup grants parentElement declaration = .ok s') :
    Lists setup input free kinds s s' := by
  apply reads.mark permitted _ h
  intro ctx' ran
  obtain ⟨text, construct, crossed⟩ := parseProcessingInstruction_crossed starts ran
  exact ⟨text, construct, crossed, by cases declaration <;> exact fun other => nomatch other⟩

theorem Reads.parseDoctype (permitted : kinds .doctype)
    (starts : s.context.cursor.startsWith [0x3C, 0x21, 0x44, 0x4F, 0x43, 0x54, 0x59, 0x50, 0x45] = true)
    (h : s.parseDoctype setup grants = .ok s') : Lists setup input free kinds s s' := by
  apply reads.mark permitted _ h
  intro ctx' ran
  obtain ⟨⟨_, ctx₁⟩, scanned, ran⟩ := bind_ok ran
  cases ran
  obtain ⟨text, construct, crossed⟩ := doctype_crossed starts scanned
  exact ⟨text, construct, crossed, fun other => nomatch other⟩

theorem Reads.parseEndTag (permitted : kinds .endTag) {name : TextRef}
    (starts : s.context.cursor.startsWith [0x3C, 0x2F] = true) (h : s.parseEndTag setup grants name = .ok s') :
    Lists setup input free kinds s s' := by
  apply reads.mark permitted _ h
  intro ctx' ran
  obtain ⟨⟨closeName, ctx₁⟩, scanned, ran⟩ := bind_ok ran
  obtain ⟨c, scanned, crossed⟩ := lex_crossed scanned
  obtain ⟨text, endTag, past⟩ := scanEndTag_past starts scanned
  dsimp only at ran
  split at ran
  · cases ran
  cases ran
  exact ⟨text, .endTag endTag, crossed text past, fun other => nomatch other⟩

theorem Reads.still {ctx' : ParseContext} (still : s.context.Still ctx') :
    Lists setup input free kinds s { s with context := ctx' } := by
  constructor
  · exact still.source.trans reads.source
  · rw [still.offset]
    exact reads.inside
  · rw [still.offset]
    exact ⟨[], (append_nil _).symm, Tiles.refl _, fun _ none => nomatch none⟩

end

abbrev Tight (setup : Setup) (input : Bytes) (s s' : SyntaxContext) : Prop :=
  Lists setup input (fun _ => False) (fun _ => True) s s'

section

variable {parse : SyntaxContext → Except Failure (NodeId × SyntaxContext)}
  (tight : ∀ s s' id, Reads input s → s.context.cursor.peek = 0x3C → parse s = .ok (id, s') → Tight setup input s s')

include tight

theorem Reads.parseItem (mode : setup.ownership ≠ .inSitu) (reads : Reads input s) (present : s.context.cursor.rest ≠ [])
    {elementIndex : Nat} (h : parseItem setup grants parse s elementIndex = .ok s') : Tight setup input s s' := by
  unfold SyntaxContext.parseItem at h
  dsimp only at h
  split at h
  · exact reads.parseComment trivial (by assumption) h
  split at h
  · rename_i starts
    apply reads.mark trivial _ h
    intro ctx' ran
    obtain ⟨text, construct, crossed⟩ := parseCData_crossed starts ran
    exact ⟨text, construct, crossed, fun other => nomatch other⟩
  split at h
  · exact reads.parseProcessingInstruction trivial (by assumption) h
  split at h
  · cases h
  split at h
  · rename_i opens
    obtain ⟨⟨child, s₁⟩, parsed, h⟩ := bind_ok h
    obtain ⟨ctx', added, h⟩ := bind_ok h
    cases h
    have element := tight s s₁ child reads opens parsed
    exact element.trans (element.reads.still (addChild_still added))
  · rename_i data
    apply reads.mark trivial _ h
    intro ctx' ran
    obtain ⟨text, construct, crossed, stop⟩ := parseText_crossed mode present data ran
    exact ⟨text, construct, crossed, fun _ => stop⟩

theorem Reads.contentLoop (mode : setup.ownership ≠ .inSitu) (reads : Reads input s) {start elementIndex fuel : Nat} {name : TextRef}
    (h : contentLoop setup grants parse start elementIndex name fuel s = .ok s') : Tight setup input s s' := by
  induction fuel generalizing s with
  | zero => cases h
  | succ fuel ih =>
    rw [SyntaxContext.contentLoop] at h
    split at h
    · cases h
    rename_i present
    split at h
    · exact reads.parseEndTag trivial (by assumption) h
    · obtain ⟨s₁, item, h⟩ := bind_ok h
      have first := reads.parseItem tight mode present item
      exact first.trans (ih first.reads h)

end

end SyntaxContext

end NginBase.Xml
