import NginBase.Json.EventEquivalence
import NginBase.Json.LexerGrammar

namespace NginBase.Json

open Library Cursor List

/-! The spans of the events: the direct parser delivers the token of a bracket or a key as its span,
the walk over a document delivers the span of the whole value. -/

section

variable (handler : EventHandler)

def deliver (events : List Event) (event : Event) : Except Failure (List Event) :=
  let action := handler events event
  if action.continueParsing then .ok (events ++ [event])
  else
    .error (.diagnostic
      { code := .handlerRejected, span := event.span, location := { offset := event.span.first },
        consumerContext := action.consumerContext, message := "JSON event handler stopped parsing" })

mutual

/-- `Emit`, over the values that the views of the document show. -/
def emit : SpannedValue → List Event → Except Failure (List Event)
  | .scalar span value, events => deliver handler events ⟨scalarEvent value, span⟩
  | .array span elements, events => do
    let events ← deliver handler events ⟨.startArray, span⟩
    let events ← emitElements elements events
    deliver handler events ⟨.endArray, span⟩
  | .object span members, events => do
    let events ← deliver handler events ⟨.startObject, span⟩
    let events ← emitMembers members events
    deliver handler events ⟨.endObject, span⟩

def emitElements : List SpannedValue → List Event → Except Failure (List Event)
  | [], events => .ok events
  | element :: rest, events => do
    let events ← emit element events
    emitElements rest events

def emitMembers : List (Bytes × SourceSpan × SpannedValue) → List Event → Except Failure (List Event)
  | [], events => .ok events
  | (key, span, value) :: rest, events => do
    let events ← deliver handler events ⟨.key key, span⟩
    let events ← emit value events
    emitMembers rest events

end

/-- `EventParser::ParseContiguous`: the events delivered by a run that succeeds. -/
def parseContiguous (setup : Setup) (scratch : ParseScratch) (input : Bytes) : Except Failure (List Event) :=
  if setup.options.duplicateKeys = .keepLast then do
    let doc ← Parser.parseBorrowed setup scratch input
    emit handler doc.tree []
  else parseEventsContiguous setup handler scratch input

end

def EventData.bracket : EventData → Option UInt8
  | .startArray => some 0x5B
  | .endArray => some 0x5D
  | .startObject => some 0x7B
  | .endObject => some 0x7D
  | _ => none

/-- An event whose span is its token: one bracket, or a key between its quotes. -/
inductive CoversToken (source : SourceId) (input : Bytes) : Event → Prop
  | bracket {data : EventData} {b : UInt8} {before after : Bytes} (stands : data.bracket = some b)
    (text : input = before ++ b :: after) : CoversToken source input ⟨data, ⟨source, before.length, before.length + 1⟩⟩
  | key {key raw before after : Bytes} (chars : Grammar.Chars raw key) (text : input = before ++ 0x22 :: (raw ++ 0x22 :: after)) :
    CoversToken source input ⟨.key key, ⟨source, before.length, before.length + 1 + raw.length + 1⟩⟩
  | scalar (value : Scalar) (span : SourceSpan) : CoversToken source input ⟨scalarEvent value, span⟩

theorem CoversToken.narrow {source : SourceId} {input : Bytes} {data : EventData} {span : SourceSpan} {b : UInt8}
    (covers : CoversToken source input ⟨data, span⟩) (stands : data.bracket = some b) : span.last = span.first + 1 := by
  cases covers with
  | bracket => rfl
  | key => cases stands
  | scalar value => cases value <;> cases stands

namespace EventContext

variable (setup : Setup) (input : Bytes)

/-- The parser reads `input`, and every event so far covers its token. -/
structure Reading (ctx : EventContext) : Prop where
  follows : ∃ offset decoded, offset ≤ input.length ∧ ctx.reader.Follows setup ⟨offset, input.drop offset⟩ decoded
  covered : ∀ event ∈ ctx.events, CoversToken setup.source input event

def Reads (x : Except Failure EventContext) : Prop := ∀ ctx, x = .ok ctx → Reading setup input ctx

variable {setup input} {handler : EventHandler} {ctx ctx' : EventContext}

theorem Reads.bind {α : Type} {x : Except Failure α} {f : α → Except Failure EventContext}
    (next : ∀ a, x = .ok a → Reads setup input (f a)) : Reads setup input (x >>= f) := by
  intro ctx ok
  obtain ⟨a, first, rest⟩ := bind_ok ok
  exact next a first ctx rest

theorem Reads.error (e : Failure) : Reads setup input (.error e) := fun _ ok => nomatch ok

section

variable (reading : Reading setup input ctx)

include reading

theorem Reading.reads : Reads setup input (.ok ctx) :=
  fun _ ok => Except.ok.inj ok ▸ reading

theorem Reading.cursor :
    ctx.reader.cursor = ⟨ctx.reader.offset, input.drop ctx.reader.offset⟩ ∧ ctx.reader.offset ≤ input.length := by
  obtain ⟨offset, decoded, inside, follows⟩ := reading.follows
  have here : ctx.reader.offset = offset := follows.offset
  rw [follows.cursor, here]
  exact ⟨rfl, inside⟩

theorem Reading.split {b : UInt8} (found : peekByte ctx.reader.cursor.rest = b) (visible : b ≠ 0) :
    ∃ before after, input = before ++ b :: after ∧ before.length = ctx.reader.offset := by
  obtain ⟨cursor, inside⟩ := reading.cursor
  have present := peekByte_some found visible
  rw [cursor] at found present
  apply Exists.intro (input.take ctx.reader.offset)
  apply Exists.intro (input.drop (ctx.reader.offset + 1))
  constructor
  · cases ahead : input.drop ctx.reader.offset with
    | nil =>
      rw [ahead] at present
      exact absurd present (Nat.lt_irrefl 0)
    | cons head tail =>
      rw [ahead] at found
      have same : head = b := found
      have behind : input.drop (ctx.reader.offset + 1) = tail := by
        rw [← drop_drop, ahead, drop_one, tail_cons]
      rw [behind, ← same, ← ahead, take_append_drop]
  · rw [length_take]
    omega

theorem Reading.moved {c : Cursor} {n : Nat} (past : ctx.reader.cursor.Over c n) (depth : Nat) :
    Reading setup input { ctx with depth, reader := { ctx.reader with offset := c.offset } } := by
  obtain ⟨offset, decoded, inside, follows⟩ := reading.follows
  rw [follows.cursor] at past
  have there := (follows.past past).1
  obtain ⟨ahead, rfl⟩ := past
  rw [length_drop] at ahead
  constructor
  · apply Exists.intro (offset + n)
    apply Exists.intro decoded
    constructor
    · omega
    · simpa only [advance, drop_drop] using there
  · exact reading.covered

theorem Reading.lex {α : Type} {a : α} {read : Cursor → Except Failure (α × Cursor)}
    (moves : ∀ c c' a, read c = .ok (a, c') → ∃ n, c.Over c' n) (h : ctx.lex read = .ok (a, ctx')) :
    Reading setup input ctx' := by
  obtain ⟨⟨a', reader⟩, run, same⟩ := bind_ok h
  cases same
  unfold Reader.lex at run
  split at run
  · cases run
  rename_i a c scanned
  cases run
  obtain ⟨n, past⟩ := moves _ _ _ scanned
  exact reading.moved past ctx.depth

theorem Reading.skipTrivia {u : Unit} (h : ctx.lex (Cursor.skipTrivia setup.toProfile) = .ok (u, ctx')) :
    Reading setup input ctx' := by
  apply reading.lex _ h
  intro c c' a skipped
  obtain ⟨n, past, _⟩ := skipTrivia_over skipped
  exact ⟨n, past⟩

theorem Reading.separator {close : UInt8} {expected trailing : String} {closed : Bool}
    (h : ctx.lex (separator setup.toProfile close expected trailing) = .ok (closed, ctx')) : Reading setup input ctx' := by
  apply reading.lex _ h
  intro c c' a separated
  obtain ⟨n, past, _⟩ := separator_over separated
  exact ⟨n, past⟩

theorem Reading.colon {expected : String} {u : Unit} (h : ctx.lex (colon setup.toProfile expected) = .ok (u, ctx')) :
    Reading setup input ctx' := by
  apply reading.lex _ h
  intro c c' a read
  obtain ⟨n, past, _⟩ := colon_over read
  exact ⟨n, past⟩

theorem Reading.delivered {event : Event} (covers : CoversToken setup.source input event) (emit : Bool) :
    Reads setup input (ctx.deliver handler event emit) := by
  unfold deliver
  split
  · exact reading.reads
  dsimp only
  split
  · apply Reading.reads
    constructor
    · exact reading.follows
    · intro event' known
      rcases mem_append.mp known with earlier | new
      · exact reading.covered event' earlier
      · rw [mem_singleton.mp new]
        exact covers
  · exact .error _

theorem Reading.parseString {string : ParsedString} (h : ctx.parseString setup = .ok (string, ctx')) :
    Reading setup input ctx' ∧ CoversToken setup.source input ⟨.key (ctx'.reader.memory.view string.value), string.span⟩ := by
  obtain ⟨⟨string', reader⟩, run, same⟩ := bind_ok h
  cases same
  obtain ⟨offset, decoded, inside, follows⟩ := reading.follows
  have spec := Reader.parseString_spec (s := ⟨⟨offset, input.drop offset⟩, { decoded := decoded }⟩)
    "JSON event string allocation failed" follows
  rw [run] at spec
  generalize reference : Reference.parseString setup.toProfile _ = y at spec
  cases spec with
  | @ok _ q parsed =>
    obtain ⟨⟨text, span⟩, s⟩ := q
    obtain ⟨token, scanned, decoded', rfl⟩ := Reference.parseString_token reference
    obtain ⟨past, first, _, _⟩ := scanString_over scanned
    obtain ⟨chars, around⟩ := scanString_chars scanned decoded'
    have there := parsed.follows
    have span := parsed.span
    have view := parsed.view
    obtain ⟨ahead, cursor⟩ := past
    rw [length_drop] at ahead
    constructor
    · constructor
      · apply Exists.intro (offset + (1 + token.raw.length + 1))
        apply Exists.intro s.tally.decoded
        constructor
        · omega
        · rw [cursor] at there
          simpa only [advance, drop_drop] using there
      · exact reading.covered
    · have before : (input.take offset).length = offset := by
        rw [length_take]
        omega
      have whole : input = input.take offset ++ 0x22 :: (token.raw ++ 0x22 :: s.cursor.rest) := by
        rw [← around, take_append_drop]
      have covers : CoversToken setup.source input _ := .key chars whole
      rw [before] at covers
      rw [span, view, StringToken.span, first]
      exact covers

theorem Reading.beginValue : Reads setup input (ctx.beginValue setup) := by
  unfold EventContext.beginValue
  split
  · exact .error _
  · exact Reading.reads ⟨reading.follows, reading.covered⟩

end

theorem beginValue_reader (h : ctx.beginValue setup = .ok ctx') : ctx'.reader = ctx.reader := by
  unfold EventContext.beginValue at h
  split at h
  · cases h
  cases h
  rfl

section

variable (reading : Reading setup input ctx)

include reading

theorem Reading.bracket {data : EventData} {b : UInt8} (stands : data.bracket = some b)
    (found : peekByte ctx.reader.cursor.rest = b) (visible : b ≠ 0) (depth : Nat) (emit : Bool) : Reads setup input
      (({ ctx with depth, reader := { ctx.reader with offset := ctx.reader.offset + 1 } } : EventContext).deliver handler
        ⟨data, ⟨setup.source, ctx.reader.offset, ctx.reader.offset + 1⟩⟩ emit) := by
  have past : ctx.reader.cursor.Over (ctx.reader.cursor.advance 1) 1 := ⟨peekByte_some found visible, rfl⟩
  apply (reading.moved past depth).delivered
  obtain ⟨before, after, text, length⟩ := reading.split found visible
  rw [← length]
  exact .bracket stands text

theorem Reading.openContainer {data : EventData} {b : UInt8} (stands : data.bracket = some b)
    (found : peekByte ctx.reader.cursor.rest = b) (visible : b ≠ 0) (emit : Bool) :
    Reads setup input (ctx.openContainer setup handler data emit) := by
  apply Reads.bind
  intro ctx₁ counted
  have same := beginValue_reader counted
  split
  · exact .error _
  · rw [← same] at found ⊢
    exact (reading.beginValue ctx₁ counted).bracket stands found visible (ctx₁.depth + 1) emit

theorem Reading.closeContainer {data : EventData} {close : UInt8} (stands : data.bracket = some close)
    (visible : close ≠ 0) (unterminated : String) (emit : Bool) :
    Reads setup input (ctx.closeContainer setup handler close unterminated data emit) := by
  unfold EventContext.closeContainer
  split
  · exact .error _
  · rename_i found
    exact reading.bracket stands (not_not.mp found) visible (ctx.depth - 1) emit

end

theorem lex_memory {α : Type} {a : α} {read : Cursor → Except Failure (α × Cursor)} (h : ctx.lex read = .ok (a, ctx')) :
    ctx'.reader.memory = ctx.reader.memory := by
  obtain ⟨⟨a', reader⟩, run, same⟩ := bind_ok h
  cases same
  unfold Reader.lex at run
  split at run
  · cases run
  cases run
  rfl

theorem Reading.admitKey (reading : Reading setup input ctx) {keys keys' : List SeenKey} {key : ParsedString} {keepMember : Bool}
    (h : admitKey setup ctx keys key = .ok (keepMember, keys', ctx')) :
    Reading setup input ctx' ∧ ctx'.reader.memory = ctx.reader.memory := by
  have counted (memberCount requests : Nat) :
      Reading setup input { ctx with memberCount, reader := { ctx.reader with requests } } := by
    obtain ⟨offset, decoded, inside, follows⟩ := reading.follows
    constructor
    · exact ⟨offset, decoded, inside, follows.offset, follows.rest, follows.inside, follows.decoded, follows.room⟩
    · exact reading.covered
  unfold EventContext.admitKey at h
  dsimp only at h
  generalize (if setup.options.duplicateKeys = .preserve then none else keys.find? _) = duplicate at h
  split at h
  · cases h
  split at h
  · cases h
    exact ⟨reading, rfl⟩
  split at h
  · cases h
  split at h
  · cases h
    exact ⟨counted _ _, rfl⟩
  split at h
  · cases h
    exact ⟨counted _ _, rfl⟩
  · cases h

section

variable {parse : EventContext → Bool → Except Failure EventContext}
  (reads : ∀ ctx emit, Reading setup input ctx → Reads setup input (parse ctx emit))

include reads

theorem Reading.arrayLoop (emit : Bool) (fuel : Nat) (reading : Reading setup input ctx) :
    Reads setup input (arrayLoop setup parse emit fuel ctx) := by
  induction fuel generalizing ctx with
  | zero => exact .error _
  | succ fuel ih =>
    apply Reads.bind
    intro ctx₁ element
    have after := reads ctx emit reading ctx₁ element
    apply Reads.bind
    intro ⟨closed, ctx₂⟩ separated
    have next := after.separator separated
    dsimp only
    split
    · exact next.reads
    · exact ih next

theorem Reading.parseArray (emit : Bool) (reading : Reading setup input ctx) (bracket : peekByte ctx.reader.cursor.rest = 0x5B) :
    Reads setup input (parseArray setup handler parse ctx emit) := by
  apply Reads.bind
  intro ctx₁ opened
  have inside := reading.openContainer rfl bracket (by decide) emit ctx₁ opened
  apply Reads.bind
  intro ⟨_, ctx₂⟩ trivia
  have first := inside.skipTrivia trivia
  apply Reads.bind
  intro ctx₃ values
  have last : Reading setup input ctx₃ := by
    unfold arrayValues at values
    split at values
    · cases values
      exact first
    · exact first.arrayLoop reads emit _ _ values
  exact last.closeContainer rfl (by decide) _ emit

theorem Reading.objectLoop (emit : Bool) (fuel : Nat) (keys : List SeenKey) (reading : Reading setup input ctx) :
    Reads setup input (objectLoop setup handler parse emit fuel ctx keys) := by
  induction fuel generalizing ctx keys with
  | zero => exact .error _
  | succ fuel ih =>
    rw [EventContext.objectLoop]
    split
    · exact .error _
    apply Reads.bind
    intro ⟨key, ctx₁⟩ named
    obtain ⟨after, covers⟩ := reading.parseString named
    apply Reads.bind
    intro ⟨keepMember, keys', ctx₂⟩ admitted
    obtain ⟨known, memory⟩ := after.admitKey admitted
    apply Reads.bind
    intro ⟨_, ctx₃⟩ colon
    have past := known.colon colon
    rw [← memory, ← lex_memory colon] at covers
    apply Reads.bind
    intro ctx₄ delivered
    have shown := past.delivered covers (emit && keepMember) ctx₄ delivered
    apply Reads.bind
    intro ctx₅ value
    have last := reads ctx₄ (emit && keepMember) shown ctx₅ value
    apply Reads.bind
    intro ⟨closed, ctx₆⟩ separated
    have next := last.separator separated
    dsimp only
    split
    · exact next.reads
    · exact ih keys' next

theorem Reading.parseObject (emit : Bool) (reading : Reading setup input ctx) (brace : peekByte ctx.reader.cursor.rest = 0x7B) :
    Reads setup input (parseObject setup handler parse ctx emit) := by
  apply Reads.bind
  intro ctx₁ opened
  have inside := reading.openContainer rfl brace (by decide) emit ctx₁ opened
  apply Reads.bind
  intro ⟨_, ctx₂⟩ trivia
  have first := inside.skipTrivia trivia
  apply Reads.bind
  intro ctx₃ members
  have last : Reading setup input ctx₃ := by
    unfold objectMembers at members
    split at members
    · cases members
      exact first
    · exact first.objectLoop reads emit _ _ _ members
  exact last.closeContainer rfl (by decide) _ emit

end

theorem Reading.parseValue (fuel : Nat) (emit : Bool) (reading : Reading setup input ctx) :
    Reads setup input (parseValue setup handler fuel ctx emit) := by
  induction fuel generalizing ctx emit with
  | zero => exact .error _
  | succ fuel ih =>
    apply Reads.bind
    intro ⟨_, ctx₁⟩ trivia
    have here := reading.skipTrivia trivia
    dsimp only
    split
    · rename_i brace
      exact here.parseObject (fun _ emit inner => ih emit inner) emit brace
    split
    · rename_i bracket
      exact here.parseArray (fun _ emit inner => ih emit inner) emit bracket
    apply Reads.bind
    intro ctx₂ counted
    have value := here.beginValue ctx₂ counted
    split
    · apply Reads.bind
      intro ⟨string, ctx₃⟩ parsed
      exact (value.parseString parsed).1.delivered (.scalar (.string _) _) emit
    · apply Reads.bind
      intro ⟨⟨scalar, span⟩, ctx₃⟩ read
      apply Reading.delivered _ (.scalar scalar span) emit
      apply value.lex _ read
      intro c c' a scanned
      obtain ⟨n, past, _⟩ := Cursor.readScalar_over scanned
      exact ⟨n, past⟩

end EventContext

theorem parseEvents_covered {setup : Setup} {handler : EventHandler} {scratch : ParseScratch} {input : Bytes} {events : List Event}
    (ok : parseEventsContiguous setup handler scratch input = .ok events) :
    ∀ event ∈ events, CoversToken setup.source input event := by
  unfold parseEventsContiguous at ok
  dsimp only at ok
  split at ok
  · cases ok
  split at ok
  · cases ok
  split at ok
  · cases ok
  obtain ⟨ctx, value, ok⟩ := bind_ok ok
  obtain ⟨⟨_, ctx'⟩, trivia, ok⟩ := bind_ok ok
  split at ok
  · cases ok
  cases ok
  have start : EventContext.Reading { setup with ownership := .borrowed } input
      { reader := { memory := { source := input, scratch := scratch.reset.reserve input.length }, requests := 1 } } := by
    constructor
    · apply Exists.intro 0
      apply Exists.intro 0
      constructor
      · exact Nat.zero_le _
      · constructor
        · rfl
        · rfl
        · exact Nat.zero_le _
        · rfl
        · intro _
          unfold ParseScratch.reserve
          split
          · exact ⟨‹_›, Nat.zero_le _⟩
          · exact ⟨le_refl _, Nat.zero_le _⟩
    · exact fun _ none => nomatch none
  exact ((start.parseValue _ _ ctx value).skipTrivia trivia).covered

def opensContainer (profile : Profile) (input : Bytes) : Bool :=
  match Cursor.skipTrivia profile { rest := input } with
  | .ok (_, c) => peekByte c.rest = 0x5B || peekByte c.rest = 0x7B
  | .error _ => false

theorem Reference.parse_root {profile : Profile} {input : Bytes} {tree : SpannedValue} (ok : parse profile input = .ok tree) :
    (opensContainer profile input = true ∧ tree.span.first + 2 ≤ tree.span.last ∧
      ((∃ elements, tree = .array tree.span elements) ∨ ∃ members, tree = .object tree.span members)) ∨
    (opensContainer profile input = false ∧ ∃ span value, tree = .scalar span value) := by
  unfold parse at ok
  split at ok
  · cases ok
  split at ok
  · cases ok
  obtain ⟨⟨root, s⟩, value, ok⟩ := bind_ok ok
  obtain ⟨⟨_, s'⟩, _, ok⟩ := bind_ok ok
  dsimp only at ok
  split at ok
  · cases ok
  cases ok
  obtain ⟨⟨_, s₁⟩, trivia, value⟩ := bind_ok value
  have skipped := (lex_ok trivia).1
  dsimp only at skipped value
  rw [opensContainer, skipped]
  dsimp only
  split at value
  · rename_i brace
    obtain ⟨⟨n, least, past⟩, members, rfl⟩ :=
      parseObject_further (fun _ _ _ => parseValue_further) (peekByte_some brace (by decide)) value
    left
    constructor
    · rw [brace]
      rfl
    · constructor
      · rw [past.2, SpannedValue.span, advance_offset]
        dsimp only
        omega
      · exact .inr ⟨members, rfl⟩
  split at value
  · rename_i bracket
    obtain ⟨⟨n, least, past⟩, elements, rfl⟩ :=
      parseArray_further (fun _ _ _ => parseValue_further) (peekByte_some bracket (by decide)) value
    left
    constructor
    · rw [bracket]
      rfl
    · constructor
      · rw [past.2, SpannedValue.span, advance_offset]
        dsimp only
        omega
      · exact .inl ⟨elements, rfl⟩
  · rename_i noBrace noBracket
    right
    constructor
    · rw [decide_eq_false noBrace, decide_eq_false noBracket]
      rfl
    · split at value
      · obtain ⟨⟨string, s₂⟩, _, value⟩ := bind_ok value
        exact ⟨_, _, (addNode_ok value).1⟩
      · obtain ⟨⟨scalar, s₂⟩, _, value⟩ := bind_ok value
        exact ⟨_, _, (addNode_ok value).1⟩

theorem deliver_ok {handler : EventHandler} {events events' : List Event} {event : Event}
    (ok : deliver handler events event = .ok events') : events' = events ++ [event] := by
  unfold deliver at ok
  dsimp only at ok
  split at ok
  · cases ok
    rfl
  · cases ok

/-- Every event of an accepted text covers its token, unless the members of an object are those that
    `KeepLast` keeps and the text is a container: then the event that ends it has the span of the whole. -/
theorem event_spans_cover_iff (setup : Setup) (scratch : ParseScratch) (handler : EventHandler) (input : Bytes)
    (events : List Event) (ok : parseContiguous handler setup scratch input = .ok events) :
    (∀ event ∈ events, CoversToken setup.source input event) ↔
      ¬ (setup.options.duplicateKeys = .keepLast ∧ opensContainer setup.toProfile input = true) := by
  unfold parseContiguous at ok
  split at ok
  · rename_i keepLast
    obtain ⟨doc, parsed, emitted⟩ := bind_ok ok
    have reference : Reference.parse setup.toProfile input = .ok doc.tree := by
      have run : Parser.run setup scratch .borrowed input = .ok doc := parsed
      rcases Parser.run_cases setup scratch .borrowed input with ⟨e, failed, _⟩ | ⟨doc', ok, reference⟩ | ⟨d, e, failed, _, _⟩
      · rw [run] at failed
        cases failed
      · rw [run, Except.ok.injEq] at ok
        rw [reference, ok]
      · rw [run] at failed
        cases failed
    rcases Reference.parse_root reference with ⟨container, wide, shape⟩ | ⟨scalar, span, value, shape⟩
    · -- the event of the closing bracket is as wide as the value
      have ends : ∃ data b, EventData.bracket data = some b ∧ (⟨data, doc.tree.span⟩ : Event) ∈ events := by
        rcases shape with ⟨elements, shape⟩ | ⟨members, shape⟩
        · rw [shape] at emitted
          obtain ⟨_, _, emitted⟩ := bind_ok emitted
          obtain ⟨_, _, emitted⟩ := bind_ok emitted
          rw [deliver_ok emitted]
          exact ⟨.endArray, 0x5D, rfl, mem_append_right _ mem_cons_self⟩
        · rw [shape] at emitted
          obtain ⟨_, _, emitted⟩ := bind_ok emitted
          obtain ⟨_, _, emitted⟩ := bind_ok emitted
          rw [deliver_ok emitted]
          exact ⟨.endObject, 0x7D, rfl, mem_append_right _ mem_cons_self⟩
      obtain ⟨data, b, stands, known⟩ := ends
      constructor
      · intro covers
        have narrow := (covers _ known).narrow stands
        omega
      · exact fun other => absurd ⟨keepLast, container⟩ other
    · rw [shape] at emitted
      constructor
      · intro _ both
        rw [scalar] at both
        cases both.2
      · intro _ event known
        rw [deliver_ok emitted, nil_append, mem_singleton] at known
        rw [known]
        exact .scalar value span
  · rename_i streaming
    constructor
    · exact fun _ both => streaming both.1
    · exact fun _ => parseEvents_covered ok

theorem event_spans_cover_container :
    let setup : Setup := { options := { duplicateKeys := .keepLast }, fromChars := fun _ => ⟨⟨0⟩, 0, false⟩ }
    ¬ ∀ (handler : EventHandler) (scratch : ParseScratch) (input : Bytes) (events : List Event),
      parseContiguous handler setup scratch input = .ok events → ∀ event ∈ events, CoversToken setup.source input event := by
  intro setup all
  have ran : parseContiguous (fun _ _ => {}) setup {} [0x5B, 0x5D] = .ok [⟨.startArray, ⟨0, 0, 2⟩⟩, ⟨.endArray, ⟨0, 0, 2⟩⟩] := by
    decide +kernel
  have covers := all _ _ _ _ ran _ mem_cons_self
  exact absurd (covers.narrow (b := 0x5B) rfl) (by decide)

theorem event_spans_cover_preserved :
    let setup : Setup := { options := { duplicateKeys := .preserve }, fromChars := fun _ => ⟨⟨0⟩, 0, false⟩ }
    let input : Bytes := [0x7B, 0x22, 0x61, 0x22, 0x3A, 0x31, 0x7D]
    CoversToken setup.source input ⟨.key [0x61], ⟨0, 1, 4⟩⟩ ∧ CoversToken setup.source input ⟨.endObject, ⟨0, 6, 7⟩⟩ := by
  intro setup input
  have ran : parseContiguous (fun _ _ => {}) setup {} input =
      .ok [⟨.startObject, ⟨0, 0, 1⟩⟩, ⟨.key [0x61], ⟨0, 1, 4⟩⟩, ⟨.int64 1, ⟨0, 5, 6⟩⟩, ⟨.endObject, ⟨0, 6, 7⟩⟩] := by
    decide +kernel
  have covers := (event_spans_cover_iff setup {} (fun _ _ => {}) input _ ran).mpr (by decide)
  exact ⟨covers _ (by decide), covers _ (by decide)⟩

end NginBase.Json
