import NginBase.Xml.ParserSteps

namespace NginBase.Xml

open Library Cost List Runs Syntax Cursor Nat Tree

namespace ParseContext

variable {setup : Setup} {level n : Nat} {ctx ctx' : ParseContext} {c c' : Cursor} {t : Cost}

theorem Follows.makeSpan_within (follows : ctx.Follows c) {first last : Nat} (ordered : first ≤ last)
    (inside : last ≤ c.offset) : makeSpan first last = ⟨first, last⟩ := by
  have bound := follows.inside
  have small := follows.small
  have position := follows.offset
  unfold decodedBit at small
  unfold Xml.makeSpan
  rw [mod_eq_of_lt (by omega), mod_eq_of_lt (by omega)]

theorem Follows.makeSpan (follows : ctx.Follows c) {start : Nat} (before : start ≤ c.offset) :
    makeSpan start c.offset = ⟨start, c.offset⟩ := follows.makeSpan_within before (le_refl _)

section

variable {base : ParseContext} {record : ElementRecord} {refs : List (Tree TextRef)}
  (here : Matches setup level ctx c t) (filling : Filling base record refs ctx)

theorem Filled.nothing (here : Matches setup level ctx c t) (filling : Filling base record refs ctx) :
    Filled setup level base record refs ctx t ctx ([], c) :=
  ⟨[], here, .refl ctx, by rwa [append_nil], .nil ctx⟩

theorem Filling.moved (filling : Filling base record refs ctx) (offset : Nat) :
    Filling base record refs { ctx with offset } := ⟨filling.nodes, filling.elements, filling.attributes⟩

include here filling

theorem parseComment_refines :
    Refines setup t (Filled setup level base record refs ctx) (ctx.parseComment setup (some base.elements.length))
      (Syntax.parseComment setup.toProfile c) := by
  apply lex_refines here.toFollows
  intro text c' result
  obtain ⟨n, positive, over', passes⟩ := scanComment_over result
  have moved := here.past over'
  have further := here.past_extends over'
  apply ite Iff.rfl
  · intro _ _
    rw [here.offset, moved.toFollows.makeSpan (by have := over'.offset; omega)]
    apply mono (addLeaf_refines .comment moved (filling.moved _) ⟨.inl rfl, rfl⟩
      (moved.toFollows.reads_stored passes.last (here.toFollows.slice passes)))
    intro t' ctx' q filled
    exact filled.after further
  · intro _ _
    exact .pure ((Filled.nothing moved (filling.moved _)).after further)

theorem parseProcessingInstruction_refines : Refines setup t (Filled setup level base record refs ctx)
      (ctx.parseProcessingInstruction setup (some base.elements.length) false) (parseInstruction setup.toProfile c) := by
  apply lex_refines here.toFollows
  intro both c' result
  obtain ⟨n, positive, over', named, passes⟩ := scanInstruction_over result
  have moved := here.past over'
  have further := here.past_extends over'
  apply ite Iff.rfl
  · intro _ _
    rw [here.offset, moved.toFollows.makeSpan (by have := over'.offset; omega)]
    apply mono (addLeaf_refines .processingInstruction moved (filling.moved _)
      (moved.toFollows.reads named.last (here.toFollows.slice named))
      (moved.toFollows.reads_stored passes.last (here.toFollows.slice passes)))
    intro t' ctx' q filled
    exact filled.after further
  · intro _ _
    exact .pure ((Filled.nothing moved (filling.moved _)).after further)

theorem parseCData_refines :
    Refines setup t (Filled setup level base record refs ctx) (ctx.parseCData setup base.elements.length)
      (Syntax.parseCData setup.toProfile c) := by
  apply lex_refines here.toFollows
  intro text c' result
  obtain ⟨n, positive, over', passes⟩ := scanCData_over result
  have moved := here.past over'
  dsimp only
  rw [here.offset, moved.toFollows.makeSpan (by have := over'.offset; omega)]
  apply mono (addLeaf_refines .cdata moved (filling.moved _) ⟨.inl rfl, rfl⟩
    (moved.toFollows.reads_stored passes.last (here.toFollows.slice passes)))
  intro t' ctx' q filled
  exact filled.after (here.past_extends over')

theorem parseText_refines (present : c.rest ≠ []) (data : c.peek ≠ 0x3C) :
    Refines setup t (Filled setup level base record refs ctx) (ctx.parseText setup base.elements.length)
      (Syntax.parseText setup.toProfile c) := by
  apply lex_refines here.toFollows
  intro raw c' result
  obtain ⟨n, positive, over', same⟩ := scanText_over present data result
  have passes : c.Passes raw c' := by
    rw [same]
    exact passes_take c over'.inside (le_of_eq over'.offset.symm)
  have moved := here.past over'
  apply Runs.ite Iff.rfl
  · intro _ _
    exact .pure ((Filled.nothing moved (filling.moved _)).after (here.past_extends over'))
  · intro _ _
    apply Runs.bind (decodeText_refines here over' passes (by decide))
    intro t₁ p text decoded
    obtain ⟨ref, ctx₁⟩ := p
    have there := decoded.matches'
    dsimp only at there ⊢
    have filling₁ : Filling base record refs ctx₁ := by
      constructor
      · rw [decoded.nodes]
        exact filling.nodes
      · rw [decoded.elements]
        exact filling.elements
      · rw [decoded.attributes]
        exact filling.attributes
    rw [here.offset, there.offset, there.toFollows.makeSpan (by have := over'.offset; omega)]
    apply Runs.mono (addLeaf_refines .text there filling₁ ⟨.inl rfl, rfl⟩ decoded.reads)
    intro t' ctx' q filled
    exact filled.after decoded.extends'

end

section

structure AttributeShows (ctx : ParseContext) (entry : Tree.Attribute TextRef) (shown : Tree.Attribute Bytes) : Prop where
  name : ctx.Reads entry.name shown.name
  value : ctx.Reads entry.value shown.value
  span : entry.span = shown.span
  valueSpan : entry.valueSpan = shown.valueSpan
  start : entry.name.offsetOrId = shown.span.first
  length : entry.name.length = shown.name.length
  inSource : entry.name.offsetOrId < decodedBit

theorem AttributeShows.mono {entry : Tree.Attribute TextRef} {shown : Tree.Attribute Bytes}
    (shows' : ctx.AttributeShows entry shown) (later : ctx.Extends ctx') : ctx'.AttributeShows entry shown :=
  { shows' with name := shows'.name.mono later, value := shows'.value.mono later }

abbrev AttributesShow (ctx : ParseContext) := Forall₂ ctx.AttributeShows

theorem AttributesShow.mono {entries : List (Tree.Attribute TextRef)} {attributes : List (Tree.Attribute Bytes)}
    (shown : ctx.AttributesShow entries attributes) (later : ctx.Extends ctx') :
    ctx'.AttributesShow entries attributes := shown.imp fun _ _ one => one.mono later

/-- The tables since `base`: the attributes of the start tag so far. -/
structure Tagging (base : ParseContext) (entries : List (Tree.Attribute TextRef)) (ctx : ParseContext) : Prop where
  nodes : ctx.nodes = base.nodes
  elements : ctx.elements = base.elements
  attributes : ctx.attributes = base.attributes ++ entries.map Tree.Attribute.record

theorem find_shown {entries : List (Tree.Attribute TextRef)} {attributes : List (Tree.Attribute Bytes)} {ref : TextRef}
    {name : Bytes} (shown : ctx.AttributesShow entries attributes) (reads : ctx.memory.text ref = name) :
    ((entries.map Tree.Attribute.record).find? (fun previous => ctx.memory.text previous.name = ctx.memory.text ref) = none ∧
      attributes.find? (fun earlier => earlier.name = name) = none) ∨
    ∃ entry earlier, (entries.map Tree.Attribute.record).find?
        (fun previous => ctx.memory.text previous.name = ctx.memory.text ref) = some (Tree.Attribute.record entry) ∧
      attributes.find? (fun earlier => earlier.name = name) = some earlier ∧ ctx.AttributeShows entry earlier := by
  induction shown with
  | nil => exact .inl ⟨rfl, rfl⟩
  | @cons entry earlier entries attributes one rest ih =>
    have text : ctx.memory.text (Tree.Attribute.record entry).name = earlier.name := one.name.text
    rw [map_cons, find?_cons, find?_cons, text, reads]
    by_cases same : earlier.name = name
    · right
      simp only [same]
      exact ⟨entry, earlier, rfl, rfl, one⟩
    · simp only [same]
      rw [reads] at ih
      exact ih

variable {base : ParseContext} {entries : List (Tree.Attribute TextRef)} {attributes : List (Tree.Attribute Bytes)}

section

variable (start : Nat) (here : Matches setup level ctx c t) (tagging : Tagging base entries ctx)

include start here tagging

theorem storeAttribute_refines {nameRef value : TextRef} {attributeStart first last : Nat} {a : Tree.Attribute Bytes}
    (span : makeSpan attributeStart ctx.offset = a.span) (valueSpan : makeSpan first last = a.valueSpan)
    (one : ctx.AttributeShows ⟨nameRef, value, a.span, a.valueSpan⟩ a) : Refines setup t
      (fun t' ctx' q => ∃ entry, Matches setup level ctx' q.2 t' ∧ ctx.Extends ctx' ∧
        Tagging base (entries ++ [entry]) ctx' ∧ ctx'.AttributeShows entry q.1) (do
        if setup.limits.maxMembers ≤ ctx.attributes.length ∨ 2 ^ 32 - 1 ≤ ctx.attributes.length then
          throw (ctx.errorAt setup .limitExceeded "XML mem limit exceeded" attributeStart ctx.offset) else
          let ctx ← ctx.allocate setup "XML attribute allocation failed" start ctx.offset let entry : AttributeRecord :=
            { name := nameRef, value, span := makeSpan attributeStart ctx.offset, valueSpan := makeSpan first last }
          return { ctx with attributes := ctx.attributes ++ [entry] })
      (do
        Charged.charge { attributes := 1 }
          (Xml.errorAt setup.toProfile .limitExceeded "XML mem limit exceeded" attributeStart c.offset)
        return (a, c)) := by
  have counted := here.attributes
  have within := here.within
  have limit : (documentBudget setup.limits).fits t { attributes := 1 } ↔
      ¬ (setup.limits.maxMembers ≤ ctx.attributes.length ∨ 2 ^ 32 - 1 ≤ ctx.attributes.length) := by
    show (t + { attributes := 1 }).Stored setup.limits ↔ _
    simp only [stored_iff, admitted_iff, add_nodes, add_elements, add_attributes,
      add_children, add_deepest, add_decoded, sentinel] at within ⊢
    omega
  apply charge
  · intro fits
    rw [if_neg (limit.mp fits)]
    apply bind_left (allocate_refines (by decide) _ _)
    intro ctx₁ allocated
    subst allocated
    apply Runs.pure
    rw [span, valueSpan]
    refine ⟨⟨nameRef, value, a.span, a.valueSpan⟩, ⟨here.toFollows.of_same rfl rfl, here.depth, fits,
      here.decodedBytes, here.nodes, here.elements, ?_, here.children⟩, .of_same rfl rfl,
      ⟨tagging.nodes, tagging.elements, ?_⟩, one.mono (.of_same rfl rfl)⟩
    · rw [length_append, counted]
      rfl
    · rw [map_append, ← append_assoc, ← tagging.attributes]
      rfl
  · intro exceeds
    rw [if_pos (not_not.mp (limit.not.mp exceeds)), ← here.offset]
    exact ⟨_, rfl, errorAt_same _ _ _ _ _⟩

theorem parseAttribute_refines (shown : ctx.AttributesShow entries attributes) : Refines setup t
      (fun t' ctx' q => ∃ entry, Matches setup level ctx' q.2 t' ∧ ctx.Extends ctx' ∧
        Tagging base (entries ++ [entry]) ctx' ∧ ctx'.AttributeShows entry q.1)
      (ctx.parseAttribute setup start base.attributes.length) (Syntax.parseAttribute setup.toProfile attributes c) := by
  apply lex_refines here.toFollows
  intro name named result
  obtain ⟨n, positive, over', rfl⟩ := parseName_over result
  have length : (c.rest.take n).length = n := length_take_of_le over'.inside
  have position := here.offset
  have there := here.past over'
  have further := here.past_extends over'
  have passes : c.Passes ⟨c.offset, c.rest.take n⟩ named :=
    passes_take c over'.inside (le_of_eq over'.offset.symm)
  have reads := there.toFollows.reads passes.last (here.toFollows.slice passes)
  have rows : ctx.attributes.drop base.attributes.length = entries.map Tree.Attribute.record := by
    rw [tagging.attributes, drop_left]
  have small : c.offset + n < decodedBit := by
    have inside := there.inside
    have bound := there.small
    rw [over'.offset] at inside
    exact lt_of_le_of_lt inside bound
  dsimp only at reads ⊢
  rw [rows]
  rcases find_shown (shown.mono further) reads.text with ⟨missing, missing'⟩ | ⟨entry, earlier, found, found', one⟩
  · rw [missing, missing']
    apply lex_refines there.toFollows
    intro quote quoted result
    obtain ⟨m, _, quoting⟩ := scanQuote_over result
    have there₁ := there.past quoting
    have further₁ := there.past_extends quoting
    apply lex_refines there₁.toFollows
    intro raw closed result
    obtain ⟨k, closing, rfl⟩ := scanValue_over result
    have value : quoted.Passes ⟨quoted.offset, quoted.rest.take k⟩ closed :=
      passes_take quoted closing.inside (le_of_eq closing.offset.symm)
    apply Runs.bind (decodeText_refines there₁ closing value (by decide))
    intro t₁ p text decoded
    obtain ⟨ref, ctx₁⟩ := p
    have there₂ := decoded.matches'
    have further₂ := decoded.extends'
    have ending := closed.advance_over 1
    have there₃ := there₂.past ending
    have further₃ := there₂.past_extends ending
    rw [there₂.toFollows.cursor]
    have later := (further.trans further₁).trans (further₂.trans further₃)
    have between : closed.offset ≤ (closed.advance 1).offset := ending.offset ▸ le_add_right _ _
    have start' : c.offset ≤ (closed.advance 1).offset := by
      have := over'.offset
      have := quoting.offset
      have := closing.offset
      omega
    have kept : Tagging base entries { ctx₁ with offset := (closed.advance 1).offset } :=
      ⟨decoded.nodes.trans tagging.nodes, decoded.elements.trans tagging.elements,
        decoded.attributes.trans tagging.attributes⟩
    rw [position]
    apply Runs.mono (storeAttribute_refines start there₃ kept
      (a := ⟨c.rest.take n, text, ⟨c.offset, (closed.advance 1).offset⟩,
        ⟨quoted.offset, Slice.last ⟨quoted.offset, quoted.rest.take k⟩⟩⟩)
      (there₃.toFollows.makeSpan start')
      (there₃.toFollows.makeSpan_within (le_add_right _ _) (value.last.trans between)) ?_)
    · intro t' ctx' q ⟨entry, matched, extended, tagged, one⟩
      exact ⟨entry, matched, later.trans extended, tagged, one⟩
    · have whole : c.offset % 2 ^ 32 = c.offset := mod_eq_of_lt (by unfold decodedBit at small; omega)
      have size : (c.rest.take n).length % 2 ^ 32 = (c.rest.take n).length :=
        mod_eq_of_lt (by unfold decodedBit at small; omega)
      constructor
      · exact reads.mono (further₁.trans (further₂.trans further₃))
      · exact decoded.reads.mono further₃
      · rfl
      · rfl
      · exact whole
      · exact size
      · show c.offset % 2 ^ 32 < decodedBit
        rw [whole]
        exact lt_of_le_of_lt (le_add_right _ _) small
  · rw [found, found']
    apply Runs.fail
    have same : (Tree.Attribute.record entry).name.offsetOrId = earlier.span.first := one.start
    have size : (Tree.Attribute.record entry).name.length = earlier.name.length := one.length
    have source : ¬ decodedBit ≤ (Tree.Attribute.record entry).name.offsetOrId := not_le.mpr one.inSource
    rw [if_neg source, same, size]
    exact located_same _ _

end

theorem Follows.skipWhitespace (follows : ctx.Follows c) :
    ctx.skipWhitespace = { ctx with offset := c.skipWhitespace.offset } := by
  unfold ParseContext.skipWhitespace
  rw [follows.cursor]

def Tagged (setup : Setup) (level : Nat) (base ctx : ParseContext) (t' : Cost) (p : Bool × ParseContext)
    (q : (List (Tree.Attribute Bytes) × Bool) × Cursor) : Prop :=
  ∃ entries, p.1 = q.1.2 ∧ Matches setup level p.2 q.2 t' ∧ ctx.Extends p.2 ∧ Tagging base entries p.2 ∧
    p.2.AttributesShow entries q.1.1

theorem attributeLoop_refines (start fuel : Nat) (here : Matches setup level ctx c t)
    (tagging : Tagging base entries ctx) (shown : ctx.AttributesShow entries attributes) :
    Refines setup t (Tagged setup level base ctx) (attributeLoop setup start base.attributes.length fuel ctx)
      (Syntax.attributeLoop setup.toProfile start fuel attributes c) := by
  induction fuel generalizing ctx c t entries attributes with
  | zero => exact .fail trivial
  | succ fuel ih =>
    obtain ⟨blank, skipped⟩ := c.skipWhitespace_over
    have there := here.past skipped
    have further := here.past_extends skipped
    have cursor := there.toFollows.cursor
    have position := here.offset
    unfold attributeLoop Syntax.attributeLoop
    rw [here.toFollows.skipWhitespace]
    dsimp only
    rw [cursor]
    have ended (closing : Bool) (count : Nat) :
        Tagged setup level base ctx t
          (closing, { ctx with offset := (c.skipWhitespace.advance count).offset })
          ((attributes, closing), c.skipWhitespace.advance count) := by
      have over' := c.skipWhitespace.advance_over count
      have last := further.trans (there.past_extends over')
      exact ⟨entries, rfl, there.past over', last, ⟨tagging.nodes, tagging.elements, tagging.attributes⟩, shown.mono last⟩
    apply Runs.ite Iff.rfl
    · intro _ _
      exact .pure (ended true 2)
    · intro _ _
      apply Runs.ite Iff.rfl
      · intro _ _
        exact .pure (ended false 1)
      · intro _ _
        apply Runs.ite (by rw [position])
        · intro _ _
          exact .fail (there.toFollows.errorHere_same _ _)
        · intro _ _
          apply Runs.ite Iff.rfl
          · intro _ _
            apply Runs.fail
            rw [there.toFollows.size]
            exact errorAt_same _ _ _ _ _
          · intro _ _
            apply Runs.bind (parseAttribute_refines start there
              ⟨tagging.nodes, tagging.elements, tagging.attributes⟩ (shown.mono further))
            intro t₁ ctx₁ q ⟨entry, matched, extended, tagged, one⟩
            have whole := further.trans extended
            apply Runs.mono (ih matched tagged
              (rel_append (shown.mono whole) (Forall₂.cons one .nil)))
            intro t' p r ⟨entries', closing, matched', extended', tagged', shown'⟩
            exact ⟨entries', closing, matched', whole.trans extended', tagged', shown'⟩

end

section

variable {base : ParseContext} {record : ElementRecord} {refs : List (Tree TextRef)}

def ElementRead (setup : Setup) (level : Nat) (ctx : ParseContext) (t' : Cost) (p : NodeId × ParseContext)
    (q : Tree Bytes × Cursor) : Prop :=
  ∃ ref, Matches setup level p.2 q.2 t' ∧ ctx.Extends p.2 ∧ ctx.Lays p.2 ref ∧ p.2.Shows ref q.1 ∧
    p.1 = ctx.nodes.length + ref.descendants

variable {parse : ParseContext → Except Failure (NodeId × ParseContext)}
  {parse' : Cursor → Syntax.Run (Tree Bytes × Cursor)}
  (same : ∀ ctx c t, Matches setup level ctx c t → c.peek = 0x3C →
    Refines setup t (ElementRead setup level ctx) (parse ctx) (parse' c))

include same

theorem parseItem_refines (here : Matches setup level ctx c t) (filling : Filling base record refs ctx)
    (present : c.rest ≠ []) :
    Refines setup t (Filled setup level base record refs ctx) (parseItem setup parse ctx base.elements.length)
      (Syntax.parseItem setup.toProfile parse' c) := by
  unfold parseItem Syntax.parseItem
  rw [here.toFollows.cursor]
  apply ite Iff.rfl
  · intro _ _
    exact parseComment_refines here filling
  · intro _ _
    apply ite Iff.rfl
    · intro _ _
      exact parseCData_refines here filling
    · intro _ _
      apply ite Iff.rfl
      · intro _ _
        exact parseProcessingInstruction_refines here filling
      · intro _ _
        apply ite Iff.rfl
        · intro _ _
          exact .fail (here.toFollows.errorHere_same _ _)
        · intro _ _
          apply ite Iff.rfl
          · intro _ opens
            apply bind (same ctx c t here opens)
            intro t₁ p q ⟨ref, matched, extended, lays, shown, id⟩
            dsimp only at matched extended lays shown id ⊢
            rw [id]
            apply mono (addChild_refines matched filling lays)
            intro t₂ ctx₂ r ⟨result, grown, filling₂⟩
            subst result
            exact ⟨[ref], grown.matches', extended.trans grown.extends', filling₂, (shown.mono grown.extends').all⟩
          · intro _ data
            exact parseText_refines here filling present data

def ContentRead (setup : Setup) (level : Nat) (base : ParseContext) (record : ElementRecord) (ctx : ParseContext)
    (t' : Cost) (ctx' : ParseContext) (q : List (Tree Bytes) × Cursor) : Prop :=
  ∃ refs, Matches setup level ctx' q.2 t' ∧ ctx.Extends ctx' ∧ Filling base record refs ctx' ∧ ctx'.ShowsAll refs q.1

theorem contentLoop_refines (start fuel : Nat) {name : TextRef} {nameText : Bytes} {trees : List (Tree Bytes)}
    (here : Matches setup level ctx c t) (filling : Filling base record refs ctx) (shown : ctx.ShowsAll refs trees)
    (named : ctx.Reads name nameText) : Refines setup t (ContentRead setup level base record ctx)
      (contentLoop setup parse start base.elements.length name fuel ctx)
      (Syntax.contentLoop setup.toProfile parse' start nameText fuel trees c) := by
  induction fuel generalizing ctx c t refs trees with
  | zero => exact .fail trivial
  | succ fuel ih =>
    unfold contentLoop Syntax.contentLoop
    rw [here.toFollows.cursor]
    apply Runs.ite Iff.rfl
    · intro _ _
      apply Runs.fail
      rw [here.toFollows.size]
      exact errorAt_same _ _ _ _ _
    · intro _ present
      apply Runs.ite Iff.rfl
      · intro _ _
        apply lex_refines here.toFollows
        intro closeName after result
        obtain ⟨n, positive, over', passes⟩ := scanEndTag_over result
        have there := here.past over'
        have further := here.past_extends over'
        have close := there.toFollows.reads passes.last (here.toFollows.slice passes)
        apply Runs.ite (by rw [close.text, (named.mono further).text])
        · intro _ _
          apply Runs.fail
          rw [here.offset]
          exact errorAt_same _ _ _ _ _
        · intro _ _
          exact .pure ⟨refs, there, further, filling.moved _, shown.mono further⟩
      · intro _ _
        apply Runs.bind (parseItem_refines same here filling present)
        intro t₁ ctx₁ q ⟨more, matched, extended, filling₁, added⟩
        apply Runs.mono (ih matched filling₁ ((shown.mono extended).append added) (named.mono extended))
        intro t' ctx' r ⟨refs', matched', extended', filling', shown'⟩
        exact ⟨refs', matched', extended.trans extended', filling', shown'⟩

theorem parseContent_refines (start : Nat) (selfClosing : Bool) {name : TextRef} {nameText : Bytes}
    (here : Matches setup level ctx c t) (filling : Filling base record [] ctx) (named : ctx.Reads name nameText) :
    Refines setup t (ContentRead setup level base record ctx)
      (parseContent setup parse start base.elements.length name selfClosing ctx)
      (Syntax.parseContent setup.toProfile parse' start nameText selfClosing c) := by
  unfold parseContent Syntax.parseContent
  cases selfClosing with
  | true => exact .pure ⟨[], here, .refl ctx, filling, .nil ctx⟩
  | false =>
    rw [here.toFollows.cursor]
    exact contentLoop_refines same start _ here filling (.nil ctx) named

end

theorem AttributesShow.texts {entries : List (Tree.Attribute TextRef)} {attributes : List (Tree.Attribute Bytes)}
    (shown : ctx.AttributesShow entries attributes) : entries.map (Tree.Attribute.map ctx.memory.text) = attributes := by
  induction shown with
  | nil => rfl
  | cons one rest ih =>
    rw [map_cons, ih]
    simp only [Tree.Attribute.map, one.name.text, one.value.text, one.span, one.valueSpan]

theorem shows_element {name : TextRef} {nameText : Bytes} {entries : List (Tree.Attribute TextRef)}
    {attributes : List (Tree.Attribute Bytes)} {refs : List (Tree TextRef)} {trees : List (Tree Bytes)}
    (span : CompactSpan) (named : ctx.Reads name nameText) (tagged : ctx.AttributesShow entries attributes)
    (shown : ctx.ShowsAll refs trees) :
    ctx.Shows (.element name entries refs span) (.element nameText attributes trees span) := by
  intro ctx' later
  rw [Tree.map, Tree.mapAll_eq, shown ctx' later, (tagged.mono later).texts, (named.mono later).text]

theorem lays_element {base ctx₁ : ParseContext} {name : TextRef} {entries : List (Tree.Attribute TextRef)}
    {refs : List (Tree TextRef)} {record : ElementRecord} {span : CompactSpan} (tagging : Tagging ctx entries base)
    (filling : Filling base record refs ctx₁)
    (own : record.name = name ∧ record.attributes = ⟨ctx.attributes.length, entries.length⟩)
    (nodes : ctx'.nodes = ctx₁.nodes ++ [{ kind := .element, name := ⟨base.elements.length, 0⟩, span }])
    (elements : ctx'.elements = ctx₁.elements.modify base.elements.length fun element => { element with span })
    (attributes : ctx'.attributes = ctx₁.attributes) :
    ctx.Lays ctx' (.element name entries refs span) := by
  have place : base.content = ctx.place.inside entries := by
    unfold content Place.inside ParseContext.place
    rw [tagging.nodes, tagging.elements, tagging.attributes, length_append, length_map]
  constructor
  · rw [nodes, filling.nodes, place, tagging.nodes, tagging.elements, append_assoc]
    rfl
  · rw [elements, filling.elements, modify_between, place, tagging.elements, placed, map_cons]
    simp only [openRecord, Placed.record, own.1, own.2, tagging.nodes, ParseContext.place]
  · rw [attributes, filling.attributes, tagging.attributes, attributeRows, append_assoc]

theorem Matches.descend (here : Matches setup level ctx c t) (over' : c.Over c' n)
    (fits : (documentBudget setup.limits).fits t { deepest := level + 1 }) :
    Matches setup (level + 1) { ctx with depth := ctx.depth + 1, offset := c'.offset } c'
      ((documentBudget setup.limits).spend t { deepest := level + 1 }) :=
  { toFollows := here.toFollows.past over' rfl rfl
    depth := congrArg (· + 1) here.depth
    within := fits
    decodedBytes := here.decodedBytes
    nodes := here.nodes
    elements := here.elements
    attributes := here.attributes
    children := here.children }

theorem elementBody_refines {parse : ParseContext → Except Failure (NodeId × ParseContext)}
    {parse' : Cursor → Syntax.Run (Tree Bytes × Cursor)} {base : ParseContext} {name : TextRef} {nameText : Bytes}
    {entries : List (Tree.Attribute TextRef)} {attributes : List (Tree.Attribute Bytes)} {start : Nat}
    (same : ∀ ctx c t, Matches setup (level + 1) ctx c t → c.peek = 0x3C →
      Refines setup t (ElementRead setup (level + 1) ctx) (parse ctx) (parse' c))
    (selfClosing : Bool) (here : Matches setup (level + 1) ctx c t) (before : start ≤ c.offset)
    (reads : ctx.Reads name nameText) (tagging : Tagging base entries ctx)
    (shown : ctx.AttributesShow entries attributes) (earlier : base.Extends ctx) :
    Refines setup t (ElementRead setup level base) (do if 2 ^ 32 - 1 ≤ ctx.elements.length then
          throw (ctx.errorAt setup .limitExceeded "XML element limit exceeded" start ctx.offset) else
          let elementIndex := ctx.elements.length
          let ctx ← ctx.allocate setup "XML element allocation failed" start ctx.offset
          let record : ElementRecord :=
            { name,
              attributes :=
                ⟨base.attributes.length % 2 ^ 32, (ctx.attributes.length - base.attributes.length) % 2 ^ 32⟩,
              span := makeSpan start ctx.offset }
          let ctx := { ctx with elements := ctx.elements ++ [record] }
          let ctx ← parseContent setup parse start elementIndex name selfClosing ctx
          let span := makeSpan start ctx.offset
          let ctx :=
            { ctx with
              depth := ctx.depth - 1
              elements := ctx.elements.modify elementIndex fun element => { element with span } }
          ctx.addNode setup { kind := .element, name := ⟨elementIndex, 0⟩, span })
      (do
        Charged.charge { elements := 1 }
          (Xml.errorAt setup.toProfile .limitExceeded "XML element limit exceeded" start c.offset)
        let (children, after) ← Syntax.parseContent setup.toProfile parse' start nameText selfClosing c
        let node ← Syntax.addNode setup.toProfile (.element nameText attributes children ⟨start, after.offset⟩)
        return (node, after)) := by
  have counted := here.elements
  have within := here.within
  have limit : (documentBudget setup.limits).fits t { elements := 1 } ↔ ¬ 2 ^ 32 - 1 ≤ ctx.elements.length := by
    show (t + { elements := 1 }).Stored setup.limits ↔ _
    simp only [stored_iff, admitted_iff, add_nodes, add_elements, add_attributes,
      add_children, add_deepest, add_decoded, sentinel] at within ⊢
    omega
  apply Runs.charge
  · intro fits
    rw [if_neg (limit.mp fits)]
    apply Runs.bind_left (allocate_refines (by decide) _ _)
    intro ctx₁ allocated
    subst allocated
    generalize spans : makeSpan start ctx.offset = tag
    have ranges : (⟨base.attributes.length % 2 ^ 32, (ctx.attributes.length - base.attributes.length) % 2 ^ 32⟩ : TableRange) =
        ⟨base.attributes.length, entries.length⟩ := by
      have total := within.attributeIds
      rw [← here.attributes, tagging.attributes, length_append, length_map] at total
      unfold sentinel at total
      rw [tagging.attributes, length_append, length_map, mod_eq_of_lt (by omega),
        Nat.mod_eq_of_lt (by omega), Nat.add_sub_cancel_left]
    rw [ranges]
    have there : Matches setup (level + 1)
        { ctx with requests := ctx.requests + 1, elements := ctx.elements ++
          [{ name, attributes := ⟨base.attributes.length, entries.length⟩, span := tag }] } c
        ((documentBudget setup.limits).spend t { elements := 1 }) :=
      ⟨here.toFollows.of_same rfl rfl, here.depth, fits, here.decodedBytes, here.nodes,
        by rw [length_append, counted]; rfl, here.attributes, here.children⟩
    have filling : Filling { ctx with requests := ctx.requests + 1 }
        { name, attributes := ⟨base.attributes.length, entries.length⟩, span := tag } []
        { ctx with requests := ctx.requests + 1, elements := ctx.elements ++
          [{ name, attributes := ⟨base.attributes.length, entries.length⟩, span := tag }] } :=
      ⟨(append_nil _).symm, rfl, (append_nil _).symm⟩
    have further : ctx.Extends { ctx with requests := ctx.requests + 1, elements := ctx.elements ++
        [{ name, attributes := ⟨base.attributes.length, entries.length⟩, span := tag }] } := .of_same rfl rfl
    apply Runs.bind (parseContent_refines same start selfClosing there filling (reads.mono further))
    rintro t₁ ctx₁ q ⟨refs, there₁, further₁, filling₁, shown₁⟩
    obtain ⟨trees, after⟩ := q
    have later : c.offset ≤ after.offset := by
      have position := further₁.offset
      rwa [there.offset, there₁.offset] at position
    have span : makeSpan start ctx₁.offset = ⟨start, after.offset⟩ := by
      rw [there₁.offset]
      exact there₁.toFollows.makeSpan (before.trans later)
    rw [span, ← bind_pure (addNode _ _ _)]
    have there₂ : Matches setup level
        { ctx₁ with
          depth := ctx₁.depth - 1
          elements := ctx₁.elements.modify ctx.elements.length
            fun element => { element with span := ⟨start, after.offset⟩ } } after t₁ :=
      ⟨there₁.toFollows.of_same rfl rfl, by rw [there₁.depth]; rfl, there₁.within, there₁.decodedBytes, there₁.nodes,
        by rw [length_modify]; exact there₁.elements, there₁.attributes, there₁.children⟩
    apply Runs.bind (addNode_refines there₂ rfl)
    rintro t₂ p node ⟨result, id, grown, nodes, elements, rows⟩
    obtain ⟨id', ctx₂⟩ := p
    subst result
    apply Runs.pure
    have last : ctx₁.Extends ctx₂ := .of_same grown.memory grown.offset
    have whole : ctx.Extends ctx₂ := (further.trans further₁).trans last
    have tagging₁ : Tagging base entries { ctx with requests := ctx.requests + 1 } :=
      ⟨tagging.nodes, tagging.elements, tagging.attributes⟩
    refine ⟨.element name entries refs ⟨start, after.offset⟩, grown.matches', earlier.trans whole,
      lays_element tagging₁ filling₁ ⟨rfl, rfl⟩ nodes elements rows,
      shows_element _ (reads.mono whole) (shown.mono whole) (shown₁.mono last), ?_⟩
    rw [id, filling₁.nodes, length_append, forestRows_length]
    exact congrArg (· + _) (congrArg length tagging.nodes)
  · intro exceeds
    rw [if_pos (not_not.mp (limit.not.mp exceeds)), ← here.offset]
    exact ⟨_, rfl, errorAt_same _ _ _ _ _⟩

theorem parseElement_refines (fuel : Nat) (here : Matches setup level ctx c t) (opens : c.peek = 0x3C) :
    Refines setup t (ElementRead setup level ctx) (parseElement setup fuel ctx)
      (Syntax.parseElement setup.toProfile fuel level c) := by
  induction fuel generalizing level ctx c t with
  | zero => exact .fail trivial
  | succ fuel ih =>
    have within := here.within
    have depth := here.depth
    have limit : (documentBudget setup.limits).fits t { deepest := level + 1 } ↔
        ¬ setup.limits.maxDepth ≤ ctx.depth := by
      show (t + { deepest := level + 1 }).Stored setup.limits ↔ _
      simp only [stored_iff, admitted_iff, add_nodes, add_elements, add_attributes,
        add_children, add_deepest, add_decoded] at within ⊢
      omega
    unfold parseElement Syntax.parseElement
    apply charge
    · intro fits
      rw [if_neg (limit.mp fits), here.toFollows.cursor]
      have opening := c.advance_over 1
      have there := here.descend opening fits
      apply lex_refines there.toFollows
      intro name named result
      obtain ⟨n, positive, over', rfl⟩ := parseName_over result
      have there₁ := there.past over'
      have named' : (c.advance 1).Passes ⟨(c.advance 1).offset, (c.advance 1).rest.take n⟩ named :=
        passes_take _ over'.inside (le_of_eq over'.offset.symm)
      have reads := there₁.toFollows.reads named'.last (there.toFollows.slice named')
      dsimp only at there₁ reads ⊢
      rw [there₁.toFollows.cursor, here.offset]
      have entered : ctx.Extends { ctx with depth := ctx.depth + 1, offset := (c.advance 1).offset } :=
        here.toFollows.past_extends opening rfl rfl
      have further₁ : ctx.Extends { ctx with depth := ctx.depth + 1, offset := named.offset } :=
        entered.trans (there.past_extends over')
      apply bind (attributeLoop_refines c.offset _ there₁ ⟨rfl, rfl, (append_nil _).symm⟩ Forall₂.nil)
      intro t₁ p q ⟨entries, closing, there₂, further₂, tagging, shown⟩
      obtain ⟨selfClosing, ctx₂⟩ := p
      obtain ⟨⟨attributes, selfClosing'⟩, tagged⟩ := q
      subst closing
      have before : c.offset ≤ tagged.offset := by
        have position := (further₁.trans further₂).offset
        rwa [here.offset, there₂.offset] at position
      apply mono (elementBody_refines (fun ctx c t here opens => ih here opens) selfClosing there₂ before
        (reads.mono further₂) tagging shown further₂)
      intro t' p q ⟨ref, matched, extended, lays, shown', id⟩
      exact ⟨ref, matched, further₁.trans extended, ⟨lays.nodes, lays.elements, lays.attributes⟩, shown', id⟩
    · intro exceeds
      rw [if_pos (not_not.mp (limit.not.mp exceeds))]
      exact ⟨_, rfl, here.toFollows.errorHere_same _ _⟩

structure Passed (setup : Setup) (level : Nat) (ctx : ParseContext) (t t' : Cost) (ctx' : ParseContext)
    (q : Unit × Cursor) : Prop where
  matches' : Matches setup level ctx' q.2 t'
  extends' : ctx.Extends ctx'
  nodes : ctx'.nodes = ctx.nodes
  elements : ctx'.elements = ctx.elements
  attributes : ctx'.attributes = ctx.attributes

theorem Passed.trans {t₁ t₂ : Cost} {ctx₁ ctx₂ : ParseContext} {q₁ q₂ : Unit × Cursor}
    (first : Passed setup level ctx t t₁ ctx₁ q₁) (second : Passed setup level ctx₁ t₁ t₂ ctx₂ q₂) :
    Passed setup level ctx t t₂ ctx₂ q₂ :=
  ⟨second.matches', first.extends'.trans second.extends', second.nodes.trans first.nodes,
    second.elements.trans first.elements, second.attributes.trans first.attributes⟩

theorem Matches.passed (here : Matches setup level ctx c t) (over' : c.Over c' n) :
    Passed setup level ctx t t { ctx with offset := c'.offset } ((), c') :=
  ⟨here.past over', here.past_extends over', rfl, rfl, rfl⟩

theorem miscLoop_refines (prolog : Bool) (fuel : Nat) (sawDoctype : Bool) (here : Matches setup level ctx c t) :
    Refines setup t (Passed setup level ctx t) (miscLoop setup prolog fuel sawDoctype ctx)
      (Syntax.miscLoop setup.toProfile prolog fuel sawDoctype c) := by
  induction fuel generalizing ctx c t sawDoctype with
  | zero => exact .fail trivial
  | succ fuel ih =>
    obtain ⟨blank, skipped⟩ := c.skipWhitespace_over
    have there := here.past skipped
    have first := here.passed skipped
    unfold miscLoop Syntax.miscLoop
    rw [here.toFollows.skipWhitespace]
    dsimp only
    rw [there.toFollows.cursor]
    have onward {c'' : Cursor} {m : Nat} (over' : c.skipWhitespace.Over c'' m) (saw : Bool) :
        Refines setup t (Passed setup level ctx t)
          (miscLoop setup prolog fuel saw { ctx with offset := c''.offset })
          (Syntax.miscLoop setup.toProfile prolog fuel saw c'') := by
      apply mono (ih saw (there.past over'))
      intro t' ctx' q passed
      exact (first.trans (there.passed over')).trans passed
    apply ite Iff.rfl
    · intro _ _
      unfold parseComment
      simp only [bind_assoc]
      apply lex_refines there.toFollows
      intro text c'' result
      obtain ⟨m, _, over', _⟩ := scanComment_over result
      exact onward over' sawDoctype
    · intro _ _
      apply ite Iff.rfl
      · intro _ _
        unfold parseProcessingInstruction
        simp only [bind_assoc]
        apply lex_refines there.toFollows
        intro both c'' result
        obtain ⟨m, _, over', _⟩ := scanInstruction_over result
        exact onward over' sawDoctype
      · intro _ _
        apply ite Iff.rfl
        · intro _ _
          apply ite Iff.rfl
          · intro _ _
            exact .fail (there.toFollows.errorHere_same _ _)
          · intro _ _
            apply lex_refines there.toFollows
            intro _ c'' result
            obtain ⟨m, _, over'⟩ := scanDoctype_over result
            exact onward over' true
        · intro _ _
          exact .pure first

theorem parseDeclaration_refines (here : Matches setup level ctx c t) :
    Refines setup t (Passed setup level ctx t) (ctx.parseDeclaration setup)
      (Syntax.parseDeclaration setup.toProfile c) := by
  -- what follows the byte order mark
  have declared {ctx : ParseContext} {c : Cursor} (here : Matches setup level ctx c t) :
      Refines setup t (Passed setup level ctx t)
        (if ctx.cursor.isXmlDeclaration then ctx.parseProcessingInstruction setup none true else .ok ctx)
        (if c.isXmlDeclaration then (do
          let read ← Syntax.lex c (scanInstruction setup.toProfile true)
          return ((), read.2))
        else return ((), c)) := by
    rw [here.toFollows.cursor]
    apply ite Iff.rfl
    · intro _ _
      apply lex_refines here.toFollows
      intro both c' result
      obtain ⟨m, _, over', _⟩ := scanInstruction_over result
      exact .pure (here.passed over')
    · intro _ _
      exact .pure ⟨here, .refl ctx, rfl, rfl, rfl⟩
  unfold parseDeclaration Syntax.parseDeclaration
  rw [here.toFollows.cursor]
  by_cases mark : c.startsWith [0xEF, 0xBB, 0xBF] = true
  · rw [if_pos mark, if_pos mark]
    have over' := c.advance_over 3
    apply mono (declared (here.past over'))
    intro t' ctx' q passed
    exact (here.passed over').trans passed
  · rw [if_neg mark, if_neg mark]
    exact declared here

end ParseContext

structure Document.Laid (doc : Document) (ref : Tree TextRef) : Prop where
  nodes : doc.nodes = ref.nodeRows {} sentinel
  elements : doc.elements = (ref.placed {}).map Placed.record
  attributes : doc.attributes = ref.attributeRows
  root : doc.root = ref.descendants
  small : doc.nodes.length ≤ sentinel

theorem Document.Laid.stands {doc : Document} {ref : Tree TextRef} (laid : doc.Laid ref) : Stands doc {} sentinel ref :=
  ⟨laid.nodes ▸ Segment.whole _, laid.elements ▸ Segment.whole _, laid.attributes ▸ Segment.whole _⟩

theorem Document.Laid.refs {doc : Document} {ref : Tree TextRef} (laid : doc.Laid ref) : doc.refs = ref := by
  have shown := Stands.treeAt laid.small {} sentinel doc.nodes.length ref
    (by rw [laid.nodes, nodeRows_length]) laid.stands
  rw [zero_add] at shown
  rw [Document.refs, laid.root, shown]

def Syntax.document (profile : Profile) (input : Bytes) : Except Failure (Tree Bytes) :=
  (·.1) <$> (parse profile input).execute (documentBudget profile.limits) 0

theorem document_refines {setup : Setup} (input : Bytes) (requests : Nat) (short : input.length < decodedBit) :
    ParseContext.Refines setup 0 (fun _ (doc : Document) q => ∃ ref, doc.Laid ref ∧ doc.tree = q.1) (do
        let ctx : ParseContext := { memory := { source := input }, requests }
        let ctx ← ctx.parseDeclaration setup
        let ctx ← ctx.miscLoop setup true (ctx.cursor.rest.length + 1) false
        if ctx.cursor.peek ≠ 0x3C ∨ ctx.cursor.startsWith [0x3C, 0x2F] then
          throw (ctx.errorHere setup .invalidDocumentStructure "XML document requires one root element")
        else
          let (root, ctx) ← ctx.parseElement setup (ctx.cursor.rest.length + 1)
          let ctx ← ctx.miscLoop setup false (ctx.cursor.rest.length + 1) false
          if ctx.cursor.rest ≠ [] then
            throw (ctx.errorHere setup .invalidDocumentStructure "Content is not allowed after the XML root element")
          else if setup.limits.maxTotalMemoryBytes < setup.resources.committed ctx.requests then
            throw (ctx.errorAt setup .limitExceeded "XML total memory limit exceeded" 0 input.length)
          else return ctx.document root)
      (parseDocument setup.toProfile { rest := input }) := by
  have start : ParseContext.Matches setup 0 { memory := { source := input }, requests } { rest := input } 0 := by
    refine ⟨⟨rfl, rfl, zero_le _, short, le_refl _⟩, rfl, ?_, rfl, rfl, rfl, rfl, rfl⟩
    exact stored_iff.mpr ⟨admitted_iff.mpr (by simp), by simp⟩
  apply bind (ParseContext.parseDeclaration_refines start)
  intro t₁ ctx₁ q₁ passed₁
  have there₁ := passed₁.matches'
  rw [there₁.toFollows.cursor]
  apply bind (ParseContext.miscLoop_refines true _ false there₁)
  intro t₂ ctx₂ q₂ passed₂
  obtain ⟨_, c₂⟩ := q₂
  have there₂ := passed₂.matches'
  rw [there₂.toFollows.cursor]
  apply ite Iff.rfl
  · intro _ _
    exact .fail (there₂.toFollows.errorHere_same _ _)
  · intro _ opens
    have bracket : c₂.peek = 0x3C := not_not.mp (not_or.mp opens).1
    apply bind (ParseContext.parseElement_refines _ there₂ bracket)
    intro t₃ p₃ q₃ ⟨ref, there₃, further₃, lays, shown, id⟩
    obtain ⟨root, ctx₃⟩ := p₃
    dsimp only at there₃ further₃ lays shown id ⊢
    rw [there₃.toFollows.cursor]
    apply bind (ParseContext.miscLoop_refines false _ false there₃)
    intro t₄ ctx₄ q₄ passed₄
    obtain ⟨_, c₄⟩ := q₄
    have there₄ := passed₄.matches'
    rw [there₄.toFollows.cursor]
    apply ite Iff.rfl
    · intro _ _
      exact .fail (there₄.toFollows.errorHere_same _ _)
    · intro _ _
      split
      · rename_i past
        exact .giveUp ⟨⟨_, .inr past⟩, .inr ⟨rfl, show "XML total memory limit exceeded" ∈ _ by decide⟩⟩
      apply Runs.pure
      have none₂ : ctx₂.nodes = [] ∧ ctx₂.elements = [] ∧ ctx₂.attributes = [] :=
        ⟨passed₂.nodes.trans passed₁.nodes, passed₂.elements.trans passed₁.elements,
          passed₂.attributes.trans passed₁.attributes⟩
      have place : ctx₂.place = {} := by
        unfold ParseContext.place
        rw [none₂.1, none₂.2.1, none₂.2.2]
        rfl
      have laid : (ctx₄.document root).Laid ref := by
        constructor
        · show ctx₄.nodes = _
          rw [passed₄.nodes, lays.nodes, none₂.1, place, nil_append]
        · show ctx₄.elements = _
          rw [passed₄.elements, lays.elements, none₂.2.1, place, nil_append]
        · show ctx₄.attributes = _
          rw [passed₄.attributes, lays.attributes, none₂.2.2, nil_append]
        · rw [id, none₂.1]
          exact zero_add _
        · show ctx₄.nodes.length ≤ sentinel
          rw [there₄.nodes]
          exact there₄.within.nodeIds
      refine ⟨ref, laid, ?_⟩
      rw [Document.tree, laid.refs]
      exact shown ctx₄ passed₄.extends'

theorem parseState_refines {setup : Setup} (input : Bytes) (requests : Nat) :
    Simulates (Exhausted setup) Failure.Same (fun doc tree => ∃ ref, doc.Laid ref ∧ doc.tree = tree)
      (parseState setup { memory := { source := input }, requests }) (document setup.toProfile input) := by
  have whole : ParseContext.Refines setup 0 (fun _ (doc : Document) tree => ∃ ref, doc.Laid ref ∧ doc.tree = tree)
      (parseState setup { memory := { source := input }, requests }) (parse setup.toProfile input) := by
    unfold parseState parse
    apply ite Iff.rfl
    · intro _ _
      exact .fail (ParseContext.errorAt_same _ _ _ _ _)
    · intro _ _
      apply ite Iff.rfl
      · intro _ _
        exact .fail (ParseContext.errorAt_same _ _ _ _ _)
      · intro _ short
        apply ite Iff.rfl
        · intro _ _
          exact .fail (ParseContext.errorAt_same _ _ _ _ _)
        · intro _ _
          apply bind_right (document_refines input requests (not_le.mp short))
          intro t' doc q laid
          exact .pure laid
  unfold document
  unfold ParseContext.Refines Runs at whole
  generalize parseState setup _ = x at whole ⊢
  generalize (parse setup.toProfile input).execute (documentBudget setup.limits) 0 = y at whole ⊢
  cases whole with
  | giveUp gives => exact .giveUp gives
  | error same => exact .error same
  | ok same => exact .ok same

theorem parseWith_refines (setup : Setup) (message : String) (input : Bytes) :
    Simulates (Exhausted setup) Failure.Same (fun doc tree => ∃ ref, doc.Laid ref ∧ doc.tree = tree)
      (parseWith setup message input) (document setup.toProfile input) := by
  unfold parseWith
  by_cases granted : setup.resources.grants 0 = true
  · rw [if_pos granted]
    exact parseState_refines input 1
  · rw [if_neg granted]
    exact .giveUp ⟨⟨0, .inl (by simpa using granted)⟩, .inl rfl⟩

end NginBase.Xml
