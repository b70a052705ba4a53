import NginBase.Xml.StreamSteps
import NginBase.Xml.WrittenTexts

namespace NginBase.Xml

open Library Command Content List Parser Grammar

inductive Divided : List Content → List Content → Prop
  | nil : Divided [] []
  | text {value : Bytes} {rest rest' : List Content} (others : Divided rest rest') :
    Divided (.leaf .text [] value :: rest) (.leaf .text [] value :: rest')
  | cdata {sections : List Bytes} {rest rest' : List Content} (solid : sections ≠ []) (others : Divided rest rest') :
    Divided (.leaf .cdata [] sections.flatten :: rest) (sections.map (.leaf .cdata [] ·) ++ rest')
  | element {name : Bytes} {attributes : List (Bytes × Bytes)} {children children' rest rest' : List Content}
    (inside : Divided children children') (others : Divided rest rest') :
    Divided (.element name attributes children :: rest) (.element name attributes children' :: rest')

theorem Divided.append {first first' second second' : List Content} (one : Divided first first') (two : Divided second second') :
    Divided (first ++ second) (first' ++ second') := by
  induction one with
  | nil => exact two
  | text _ ih => exact ih.text
  | cdata solid _ ih =>
    rw [append_assoc]
    exact ih.cdata solid
  | element inside _ _ ih => exact inside.element ih

namespace StreamWriter

structure Opened where
  name : Bytes
  attributes : List (Bytes × Bytes) := []
  children : List Content := []
  pending : Bytes := []

def Opened.contents (e : Opened) : List Content := e.children ++ if e.pending = [] then [] else [.leaf .text [] e.pending]

def Opened.add (e : Opened) (child : Content) : Opened := { e with children := e.contents ++ [child], pending := [] }

def Opened.content (e : Opened) : Content := .element e.name e.attributes e.contents

/-- What calls have said: the elements that are open, innermost first, and those that are complete. -/
structure Story where
  opened : List Opened := []
  roots : List Content := []

def Story.after (t : Story) : Call → Story
  | .beginElement name => { t with opened := { name } :: t.opened }
  | .addAttribute name value =>
    { t with opened := t.opened.modifyHead fun e => { e with attributes := e.attributes ++ [(name, value)] } }
  | .text value => { t with opened := t.opened.modifyHead fun e => { e with pending := e.pending ++ value } }
  | .cdata value => { t with opened := t.opened.modifyHead fun e => e.add (.leaf .cdata [] value) }
  | .endElement =>
    match t.opened with
    | [] => t
    | [e] => { opened := [], roots := t.roots ++ [e.content] }
    | e :: parent :: rest => { t with opened := parent.add e.content :: rest }
  | .comment _ | .processingInstruction _ _ => t

def structureOf (calls : List Call) : List Content := (calls.foldl Story.after {}).roots

section

def Begins (contents : List Content) (s : Bytes) : Prop :=
  ∀ others rest, Contents .preserve others rest → Contents .preserve (contents ++ others) (s ++ rest)

def Opened.tag (e : Opened) : Bytes := [0x3C] ++ (e.name ++ (e.attributes.map attributeText).flatten)

def Opened.Filled (e : Opened) (text : Bytes) : Prop :=
  0x0D ∉ e.pending ∧ ∃ children' s, Divided e.children children' ∧ Begins children' s ∧
    text = e.tag ++ ([0x3E] ++ (s ++ escaped false e.pending))

def Opened.Bare (e : Opened) (text : Bytes) : Prop := e.children = [] ∧ e.pending = [] ∧ text = e.tag

/-- What the writer knows of an open element, and the text it has written of it. -/
structure Written (frame : Frame) (e : Opened) (text : Bytes) : Prop where
  name : frame.name = e.name
  names : frame.attributeNames = e.attributes.map Prod.fst
  named : Name e.name
  listed : ∀ entry ∈ e.attributes, Name entry.1 ∧ 0x0D ∉ entry.2
  distinct : (e.attributes.map Prod.fst).Nodup
  inside : if frame.startOpen then e.Bare text else e.Filled text

variable {frame : Frame} {e : Opened} {text : Bytes}

theorem Written.filled (written : Written frame e text) : e.Filled (text ++ frame.startEnd) := by
  have inside := written.inside
  unfold Frame.startEnd
  split at inside
  · rename_i unclosed
    obtain ⟨childless, silent, rfl⟩ := inside
    refine ⟨by simp [silent], [], [], by rw [childless]; exact .nil, fun _ _ others => others, ?_⟩
    simp [silent, escaped, unclosed]
  · rename_i closed
    rwa [if_neg closed, append_nil]

theorem Opened.Filled.say (filled : e.Filled text) {value : Bytes} (plain : 0x0D ∉ value) :
    { e with pending := e.pending ++ value }.Filled (text ++ escaped false value) := by
  obtain ⟨steady, children', s, divided, begins, rfl⟩ := filled
  refine ⟨fun mem => (mem_append.mp mem).elim steady plain, children', s, divided, begins, ?_⟩
  rw [escaped_append]
  simp [Opened.tag]

theorem Opened.Filled.contents (filled : e.Filled text) :
    ∃ contents' s, Divided e.contents contents' ∧ text = e.tag ++ ([0x3E] ++ s) ∧
      ∀ others rest, Stops rest → Contents .preserve others rest →
        Contents .preserve (contents' ++ others) (s ++ rest) := by
  obtain ⟨steady, children', s, divided, begins, rfl⟩ := filled
  unfold Opened.contents
  split
  · rename_i silent
    refine ⟨children', s, by rwa [append_nil], by simp [silent, escaped], fun others rest _ read => begins others rest read⟩
  rename_i solid
  refine ⟨_, _, divided.append (.text .nil), rfl, ?_⟩
  intro others rest stops read
  rw [append_assoc, append_assoc]
  exact begins _ _ (read.text (written_text solid) (.inl rfl) (written_decoded steady) stops)

theorem Opened.Filled.add (filled : e.Filled text) {child : Content} {children' : List Content} {piece : Bytes}
    (divided : Divided [child] children') (starts : piece.head? = some 0x3C) (begins : Begins children' piece) :
    (e.add child).Filled (text ++ piece) := by
  obtain ⟨contents', s, same, rfl, reads⟩ := filled.contents
  refine ⟨not_mem_nil, contents' ++ children', s ++ piece, same.append divided, ?_, ?_⟩
  · intro others rest read
    rw [append_assoc, append_assoc]
    apply reads _ _ _ (begins others rest read)
    right
    rw [head?_append, starts]
    rfl
  · simp [Opened.add, Opened.tag, escaped]

theorem Written.element (written : Written frame e text) :
    ∃ content', Divided [e.content] [content'] ∧ Element .preserve content' (text ++ frame.endText) := by
  have names : ∀ entry ∈ e.attributes, Name entry.1 := fun entry mem => (written.listed entry mem).1
  have values : ∀ entry ∈ e.attributes, 0x0D ∉ entry.2 := fun entry mem => (written.listed entry mem).2
  have opening := written_opening written.named names written.distinct values
  have inside := written.inside
  unfold Frame.endText
  split at inside
  · rename_i unclosed
    obtain ⟨childless, silent, rfl⟩ := inside
    have empty : Element .preserve (.element e.name e.attributes []) _ := .empty (opening true)
    refine ⟨.element e.name e.attributes [], ?_, ?_⟩
    · simp only [Opened.content, Opened.contents, childless, silent]
      exact .element .nil .nil
    · simpa [unclosed, Opened.tag] using empty
  · rename_i closed
    obtain ⟨contents', s, same, rfl, reads⟩ := inside.contents
    have read := reads [] [] (.inl rfl) .nil
    have whole := Element.closed (opening false) read (written_endTag written.named)
    refine ⟨_, .element same .nil, ?_⟩
    simpa [closed, Opened.tag, written.name] using whole

theorem Written.more (written : Written frame e text) {frame' : Frame} {e' : Opened} {text' : Bytes}
    (name : frame'.name = frame.name) (names : frame'.attributeNames = frame.attributeNames) (complete : frame'.startOpen = false)
    (name' : e'.name = e.name) (attributes' : e'.attributes = e.attributes) (filled : e'.Filled text') : Written frame' e' text' where
  name := by rw [name, name', written.name]
  names := by rw [names, attributes', written.names]
  named := name' ▸ written.named
  listed := attributes' ▸ written.listed
  distinct := attributes' ▸ written.distinct
  inside := by rwa [complete]

end

section

/-- The texts of the open elements, one inside the other; only the innermost start tag can lack its end. -/
inductive Stacked : List Frame → List Opened → Bytes → Prop
  | nil : Stacked [] [] []
  | cons {frame : Frame} {frames : List Frame} {e : Opened} {opened : List Opened} {before text : Bytes} (outer : Stacked frames opened before)
    (complete : ∀ parent ∈ frames, parent.startOpen = false) (written : Written frame e text) :
    Stacked (frame :: frames) (e :: opened) (before ++ text)

inductive Follows (options : WriteOptions) : StreamWriter → Story → Prop
  | fresh {sink : Sink} (output : sink.output = []) : Follows options { sink } {}
  | inside {sink : Sink} {stack : List Frame} {opened : List Opened} {text : Bytes} (stacked : Stacked stack opened text)
    (solid : stack ≠ []) (output : sink.output = Writer.prolog options ++ text) :
    Follows options { sink, stack, rootCount := 1 } { opened }
  | closed {sink : Sink} {root root' : Content} {s : Bytes} (divided : Divided [root] [root']) (element : Element .preserve root' s)
    (output : sink.output = Writer.prolog options ++ s) : Follows options { sink, rootCount := 1 } { roots := [root] }

variable {options : WriteOptions} {c : Call} {w w' : StreamWriter} {t : Story}

theorem isName_named {name : Bytes} (named : isName name = true) : Name name := by
  cases name with
  | nil => cases named
  | cons first rest =>
    simp only [isName, Bool.and_eq_true, all_eq_true] at named
    exact .mk named.1.2 named.2

theorem Written.opened {name : Bytes} (named : isName name = true) : Written { name } { name } ([0x3C] ++ name) where
  name := rfl
  names := rfl
  named := isName_named named
  listed := nofun
  distinct := nodup_nil
  inside := ⟨rfl, rfl, by simp [Opened.tag]⟩

theorem Follows.step (follows : Follows options w t) (step : Step options c w w') (plain : c.Plain) : Follows options w' (t.after c) := by
  cases step with
  | root named output =>
    cases follows with
    | fresh empty =>
      apply Follows.inside (.cons .nil nofun (.opened named)) (cons_ne_nil _ _)
      rw [output, empty, nil_append, nil_append]
  | @child name sink sink' frame rest rootCount named output =>
    cases follows with
    | inside stacked _ before =>
      cases stacked with
      | @cons _ _ e opened below text outer complete written =>
        have parent : Written { frame with startOpen := false, hasContent := true } e (text ++ frame.startEnd) :=
          written.more rfl rfl rfl rfl rfl written.filled
        apply Follows.inside (.cons (.cons outer complete parent) (forall_mem_cons.mpr ⟨rfl, complete⟩) (.opened named))
          (cons_ne_nil _ _)
        rw [output, before]
        simp
  | @addAttribute name value sink sink' frame rest rootCount unclosed named fresh valid output =>
    cases follows with
    | inside stacked _ before =>
      cases stacked with
      | @cons _ _ e opened below text outer complete written =>
        have bare := written.inside
        rw [if_pos unclosed] at bare
        obtain ⟨childless, silent, rfl⟩ := bare
        have names : (e.attributes ++ [(name, value)]).map Prod.fst = frame.attributeNames ++ [name] := by
          rw [map_append, written.names]
          rfl
        have longer : Written { frame with attributeNames := frame.attributeNames ++ [name] }
            { e with attributes := e.attributes ++ [(name, value)] } (e.tag ++ attributeText (name, value)) :=
          { name := written.name
            names := names.symm
            named := written.named
            listed := forall_mem_append.mpr ⟨written.listed, forall_mem_singleton.mpr ⟨isName_named named, plain⟩⟩
            distinct := by
              rw [names, nodup_append]
              exact ⟨written.names ▸ written.distinct, pairwise_singleton _ _, by grind⟩
            inside := by
              rw [if_pos unclosed]
              exact ⟨childless, silent, by simp [Opened.tag]⟩ }
        apply Follows.inside (.cons outer complete longer) (cons_ne_nil _ _)
        rw [output, before]
        simp
  | @text value sink sink' frame rest rootCount valid output =>
    cases follows with
    | inside stacked _ before =>
      cases stacked with
      | @cons _ _ e opened below text outer complete written =>
        have more : Written { frame with startOpen := false, hasContent := true, hasText := true } { e with pending := e.pending ++ value }
            (text ++ frame.startEnd ++ escaped false value) :=
          written.more rfl rfl rfl rfl rfl (written.filled.say plain)
        apply Follows.inside (.cons outer complete more) (cons_ne_nil _ _)
        rw [output, before]
        simp
  | @cdata value sink sink' frame rest rootCount valid output =>
    cases follows with
    | inside stacked _ before =>
      cases stacked with
      | @cons _ _ e opened below text outer complete written =>
        obtain ⟨sections, solid, rfl, parts, same⟩ := cdataText_sections value
        have begins : Begins (sections.map (.leaf .cdata [] ·) ++ []) (cdataText sections.flatten) := by
          intro others rest read
          rw [append_nil, same]
          exact contents_sections parts read
        have added := written.filled.add (.cdata solid .nil) rfl begins
        have more : Written { frame with startOpen := false, hasContent := true, hasText := true } (e.add (.leaf .cdata [] sections.flatten))
            (text ++ frame.startEnd ++ cdataText sections.flatten) :=
          written.more rfl rfl rfl rfl rfl added
        apply Follows.inside (.cons outer complete more) (cons_ne_nil _ _)
        rw [output, before]
        simp
  | @ends sink sink' frame rest rootCount output =>
    cases follows with
    | inside stacked _ before =>
      cases stacked with
      | @cons _ _ e opened below text outer complete written =>
        obtain ⟨content', same, element⟩ := written.element
        cases outer with
        | nil =>
          apply Follows.closed same element
          rw [output, before]
          simp
        | @cons parent frames e' opened below' text' outer complete' written' =>
          obtain ⟨_, _, _, starts⟩ := Syntax.element_head element
          have added := written'.filled.add same (by rw [starts]; rfl) fun others rest read => .cons element read
          have whole := complete parent mem_cons_self
          rw [Frame.startEnd, whole, if_neg (by decide), append_nil] at added
          have more : Written parent (e'.add e.content) (text' ++ (text ++ frame.endText)) :=
            written'.more rfl rfl whole rfl rfl added
          apply Follows.inside (.cons outer complete' more) (cons_ne_nil _ _)
          rw [output, before]
          simp

end

end StreamWriter

mutual

def Content.names : Content → List Bytes
  | .leaf _ _ _ => []
  | .element name attributes children => name :: (attributes.map Prod.fst ++ namesOf children)

def Content.namesOf : List Content → List Bytes
  | [] => []
  | child :: rest => child.names ++ namesOf rest

end

theorem Content.namesOf_append (first second : List Content) : namesOf (first ++ second) = namesOf first ++ namesOf second := by
  induction first with
  | nil => rfl
  | cons child rest ih => rw [cons_append, namesOf, namesOf, ih, append_assoc]

theorem Divided.names {contents contents' : List Content} (divided : Divided contents contents') :
    namesOf contents = namesOf contents' := by
  have none (sections : List Bytes) : namesOf (sections.map (.leaf .cdata [] ·)) = [] := by
    induction sections with
    | nil => rfl
    | cons _ _ ih => exact ih
  induction divided with
  | nil => rfl
  | text _ ih => exact ih
  | cdata _ _ ih =>
    rw [namesOf_append, none]
    exact ih
  | element _ _ inside others => rw [Content.namesOf, Content.namesOf, Content.names, Content.names, inside, others]

theorem Content.Proper.names {trivia : TriviaPolicy} {content : Content} (proper : content.Proper trivia) : ∀ name ∈ content.names, XmlText name := by
  induction content using Content.induct with
  | leaf kind name text => exact nofun
  | element name attributes children ih =>
    obtain ⟨named, _, listed, all⟩ := proper
    have inside : ∀ name ∈ Content.namesOf children, XmlText name := by
      induction children with
      | nil => exact nofun
      | cons child rest ih' =>
        intro name mem
        rcases List.mem_append.mp mem with mem | mem
        · exact ih child List.mem_cons_self all.1 name mem
        · exact ih' (fun child mem => ih child (List.mem_cons_of_mem _ mem)) all.2 name mem
    intro name' mem
    rcases List.mem_cons.mp mem with rfl | mem
    · exact named.2
    rcases List.mem_append.mp mem with mem | mem
    · obtain ⟨entry, among, rfl⟩ := List.mem_map.mp mem
      exact (listed entry among).1.2
    · exact inside name' mem

namespace StreamWriter

section

def Call.names : Call → List Bytes
  | .beginElement name | .addAttribute name _ => [name]
  | _ => []

def Opened.names (e : Opened) : List Bytes := e.name :: (e.attributes.map Prod.fst ++ namesOf e.children)

def Story.names (t : Story) : List Bytes := t.opened.flatMap Opened.names ++ namesOf t.roots

theorem Opened.contents_names (e : Opened) : Content.namesOf e.contents = Content.namesOf e.children := by
  unfold Opened.contents
  rw [Content.namesOf_append]
  split <;> simp [Content.namesOf, Content.names]

theorem Opened.add_names (e : Opened) (child : Content) : (e.add child).names = e.names ++ child.names := by
  simp [Opened.names, Opened.add, namesOf_append, Opened.contents_names, namesOf]

theorem Opened.content_names (e : Opened) : e.content.names = e.names := by
  rw [Opened.content, Content.names, Opened.contents_names, Opened.names]

variable {options : WriteOptions} {c : Call} {w w' : StreamWriter} {t : Story}

theorem Follows.names (follows : Follows options w t) (step : Step options c w w') {name : Bytes} (mem : name ∈ t.names ∨ name ∈ c.names) :
    name ∈ (t.after c).names := by
  cases step with
  | root _ _ =>
    cases follows with
    | fresh _ => simpa [Story.names, Story.after, Call.names, Opened.names, namesOf] using mem
  | child _ _ =>
    cases follows with
    | inside _ _ _ => simpa [Story.names, Story.after, Call.names, Opened.names, or_comm] using mem
  | addAttribute _ _ _ _ _ =>
    cases follows with
    | inside stacked _ _ =>
      cases stacked with
      | cons _ _ _ =>
        simp [Story.names, Story.after, Call.names, Opened.names] at mem ⊢
        grind
  | text _ _ =>
    cases follows with
    | inside stacked _ _ =>
      cases stacked with
      | cons _ _ _ => simpa [Story.names, Story.after, Call.names, Opened.names] using mem
  | cdata _ _ =>
    cases follows with
    | inside stacked _ _ =>
      cases stacked with
      | cons _ _ _ => simpa [Story.names, Story.after, Call.names, Opened.add_names, names] using mem
  | ends _ =>
    cases follows with
    | inside stacked _ _ =>
      cases stacked with
      | cons outer _ _ =>
        cases outer with
        | nil => simpa [Story.names, Story.after, Call.names, Opened.content_names, namesOf] using mem
        | cons _ _ _ =>
          simp [Story.names, Story.after, Call.names, Opened.add_names, Opened.content_names] at mem ⊢
          grind

def Valid (w : StreamWriter) : Prop := XmlText w.sink.output ∧ ∀ frame ∈ w.stack, XmlText frame.name

theorem Frame.startEnd_text (frame : Frame) : XmlText frame.startEnd := by
  unfold Frame.startEnd
  split
  · exact xmlText_ascii (by decide +kernel)
  · exact xmlText_nil

theorem Valid.step (valid : Valid w) (step : Step options c w w') (names : ∀ name ∈ c.names, XmlText name) : Valid w' := by
  obtain ⟨text, frames⟩ := valid
  have less : XmlText [0x3C] := xmlText_ascii (by decide +kernel)
  cases step with
  | root named output =>
    have name := names _ mem_cons_self
    constructor
    · rw [output]
      exact text.append ((xmlText_prolog options).append (less.append name))
    · exact forall_mem_singleton.mpr name
  | child named output =>
    have name := names _ mem_cons_self
    constructor
    · rw [output]
      exact text.append ((Frame.startEnd_text _).append (less.append name))
    · exact forall_mem_cons.mpr ⟨name, forall_mem_cons.mpr (forall_mem_cons.mp frames)⟩
  | @addAttribute name value sink sink' frame rest rootCount unclosed named fresh allowed output =>
    have single : ∀ entry ∈ [(name, value)], XmlText entry.1 ∧ XmlText entry.2 :=
      forall_mem_singleton.mpr ⟨names name mem_cons_self, allowed⟩
    have entry := xmlText_attributes single
    rw [map_singleton, flatten_singleton] at entry
    constructor
    · rw [output]
      exact text.append entry
    · exact forall_mem_cons.mpr (forall_mem_cons.mp frames)
  | text value output =>
    constructor
    · rw [output]
      exact text.append ((Frame.startEnd_text _).append value.escaped)
    · exact forall_mem_cons.mpr (forall_mem_cons.mp frames)
  | cdata value output =>
    constructor
    · rw [output]
      exact text.append ((Frame.startEnd_text _).append (xmlText_cdata value))
    · exact forall_mem_cons.mpr (forall_mem_cons.mp frames)
  | ends output =>
    obtain ⟨name, frames⟩ := forall_mem_cons.mp frames
    constructor
    · rw [output]
      apply text.append
      unfold Frame.endText
      split
      · exact xmlText_ascii (by decide +kernel)
      · exact (xmlText_ascii (by decide +kernel)).append (name.append (xmlText_ascii (by decide +kernel)))
    · exact frames

end

section

variable {options : WriteOptions} {takes : Bytes → Bytes → Bool} {grants : StreamWriter → Bool}

structure Told (options : WriteOptions) (calls : List Call) (w : StreamWriter) : Prop where
  follows : Follows options w (calls.foldl Story.after {})
  names : ∀ c ∈ calls, ∀ name ∈ c.names, name ∈ (calls.foldl Story.after {}).names
  valid : (∀ c ∈ calls, ∀ name ∈ c.names, XmlText name) → Valid w

theorem Told.step {calls : List Call} {c : Call} {w w' : StreamWriter} (told : Told options calls w) (step : Step options c w w')
    (plain : c.Plain) : Told options (calls ++ [c]) w' := by
  have next : (calls ++ [c]).foldl Story.after {} = (calls.foldl Story.after {}).after c := by rw [foldl_append]; rfl
  constructor
  · rw [next]
    exact told.follows.step step plain
  · intro d among name mem
    rw [next]
    apply told.follows.names step
    rcases mem_append.mp among with among | among
    · exact .inl (told.names d among name mem)
    · cases mem_singleton.mp among
      exact .inr mem
  · intro all
    have before := told.valid fun d among => all d (mem_append_left [c] among)
    exact before.step step (all c (mem_append_right calls (mem_singleton_self c)))

theorem calls_say (lines : options.pretty = false) {calls : List Call} (plain : ∀ c ∈ calls, c.Plain) {w : StreamWriter}
    (written : perform (call options takes grants) calls {} = (.ok (), w)) : Told options calls w := by
  have start : Told options [] {} := ⟨.fresh rfl, nofun, fun _ => ⟨xmlText_nil, nofun⟩⟩
  have step (done : List Call) (c : Call) (w : StreamWriter) (told : Told options done w) (fine : c.Plain) :
      (call options takes grants c).Ensures w (fun _ w' => Told options (done ++ [c]) w') fun _ _ => True :=
    (call_step lines takes grants fine w).mono (fun _ _ step => told.step step fine) fun _ _ _ => trivial
  exact (perform_history _ step calls plain start).ok written

theorem finish_ok {w w' : StreamWriter} (finished : finish w = (.ok (), w')) : w.stack = [] ∧ w.rootCount = 1 := by
  have ensured : (finish).Ensures w (fun _ _ => w.stack = [] ∧ w.rootCount = 1) fun _ _ => True := by
    unfold finish
    simp only [ensures_bind, ensures_get]
    split
    · trivial
    split
    · trivial
    rename_i empty
    split
    · trivial
    rename_i one
    exact ⟨not_not.mp empty, not_not.mp one⟩
  exact ensured.ok finished

end

def Stopped (setup : Setup) (text : Bytes) : Prop :=
  (∃ e, parse setup text = .error e ∧ MemoryFailure e ∧ setup.Scarce) ∨
    ∃ e, parse setup text = .error e ∧ Exceeds setup.toProfile text

/-- What calls have written is read as what they said, unless memory or a limit stops the parse, exactly if all names consist
of characters that XML allows: values are checked for that, names are not. -/
theorem content_round_trip (options : WriteOptions) (lines : options.pretty = false) (takes : Bytes → Bytes → Bool)
    (grants : StreamWriter → Bool) (calls : List Call) (plain : ∀ c ∈ calls, c.Plain) (w w' : StreamWriter)
    (written : perform (call options takes grants) calls {} = (.ok (), w)) (finished : finish w = (.ok (), w')) :
    ∃ root, structureOf calls = [root] ∧ ∀ setup : Setup, setup.options.trivia = .preserve → ¬ Stopped setup w.sink.output →
      ((∃ doc, parse setup w.sink.output = .ok doc ∧ Divided [root] [doc.tree.content]) ↔
        ∀ c ∈ calls, ∀ name ∈ c.names, hasInvalidXmlByte name = false) := by
  have told := calls_say lines plain written
  obtain ⟨empty, one⟩ := finish_ok finished
  have valid (name : Bytes) : hasInvalidXmlByte name = false ↔ XmlText name := by
    rw [hasInvalidXmlByte, Bool.not_eq_false', isXmlText_iff]
  have names := told.names
  have text := told.valid
  have follows := told.follows
  generalize same : calls.foldl Story.after {} = t at follows names
  cases follows with
  | fresh _ => cases one
  | inside _ solid _ => exact absurd empty solid
  | @closed sink root root' s divided element output =>
    refine ⟨root, by rw [structureOf, same], ?_⟩
    intro setup preserve free
    rw [output] at free ⊢
    constructor
    · rintro ⟨doc, ok, _⟩
      obtain ⟨allowed, _⟩ := parse_element setup ok
      obtain ⟨first, rest, _, starts⟩ := Syntax.element_head element
      have behind : XmlText (s ++ []) := by
        rw [starts] at allowed ⊢
        rw [append_nil]
        exact (allowed.cut (ascii_head (by decide) _)).2
      intro c among name mem
      rw [valid]
      apply (element.proper behind).names
      have named := names c among name mem
      simp only [Story.names, divided.names] at named
      simpa [namesOf] using named
    · intro allowed
      have whole := (text fun c among name mem => (valid name).mp (allowed c among name mem)).1
      rw [output] at whole
      rw [← preserve] at element
      rcases parse_content setup (prolog_declares options) element whole with ⟨doc, ok, read⟩ | memory | limited
      · exact ⟨doc, ok, read ▸ divided⟩
      · exact absurd (.inl memory) free
      · exact absurd (.inr limited) free

/-- `<a x="&lt;">b]]>c</a>` with the text in two calls and the end of a section inside one. -/
abbrev sectionCalls : List Call :=
  [.beginElement [0x61], .addAttribute [0x78] [0x3C], .text [0x62], .text [0x3C], .cdata [0x5D, 0x5D, 0x3E, 0x63], .endElement]

abbrev sectionWriter : StreamWriter := { sink := { output := [0x3C, 0x61, 0x20, 0x78, 0x3D, 0x22, 0x26, 0x6C, 0x74, 0x3B, 0x22, 0x3E, 0x62, 0x26,
  0x6C, 0x74, 0x3B, 0x3C, 0x21, 0x5B, 0x43, 0x44, 0x41, 0x54, 0x41, 0x5B, 0x5D, 0x5D, 0x5D, 0x5D, 0x3E, 0x3C, 0x21, 0x5B, 0x43, 0x44, 0x41, 0x54,
  0x41, 0x5B, 0x3E, 0x63, 0x5D, 0x5D, 0x3E, 0x3C, 0x2F, 0x61, 0x3E] }, rootCount := 1 }

theorem section_written : perform (call {} (fun _ _ => true) fun _ => true) sectionCalls {} = (.ok (), sectionWriter) ∧
    finish sectionWriter = (.ok (), sectionWriter) := by decide +kernel

theorem content_round_trip_section :
    ∃ doc, parse { options := { trivia := .preserve } } sectionWriter.sink.output = .ok doc ∧
      Divided [.element [0x61] [([0x78], [0x3C])] [.leaf .text [] [0x62, 0x3C], .leaf .cdata [] [0x5D, 0x5D, 0x3E, 0x63]]] [doc.tree.content] := by
  have accepted : (parse { options := { trivia := .preserve } } sectionWriter.sink.output).isOk = true := by decide +kernel
  have plain : ∀ c ∈ sectionCalls, c.Plain := by simp [Call.Plain]
  obtain ⟨root, structured, reads⟩ := content_round_trip {} rfl _ _ sectionCalls plain _ _ section_written.1 section_written.2
  cases structured
  apply (reads _ rfl _).mpr
  · decide +kernel
  · intro stopped
    unfold Stopped at stopped
    generalize parse { options := { trivia := .preserve } } sectionWriter.sink.output = parsed at accepted stopped
    rcases stopped with ⟨e, rfl, _⟩ | ⟨e, rfl, _⟩ <;> cases accepted

theorem name_refused :
    (match parse { options := { trivia := .preserve } } [0x3C, 0xEF, 0xBF, 0xBE, 0x2F, 0x3E] with
    | .error (.diagnostic d) => d.code == .invalidEncoding
    | _ => false) = true := by
  decide +kernel

theorem name_unread :
    ∃ w, perform (call {} (fun _ _ => true) fun _ => true) [.beginElement [0xEF, 0xBF, 0xBE], .endElement] {} = (.ok (), w) ∧
      finish w = (.ok (), w) ∧ ∃ d, parse { options := { trivia := .preserve } } w.sink.output = .error (.diagnostic d) ∧
        d.code = .invalidEncoding := by
  refine ⟨{ sink := { output := [0x3C, 0xEF, 0xBF, 0xBE, 0x2F, 0x3E] }, rootCount := 1 }, by decide +kernel, by decide +kernel, ?_⟩
  have refused := name_refused
  split at refused
  · rename_i d failed
    exact ⟨d, failed, beq_iff_eq.mp refused⟩
  · cases refused

end StreamWriter

end NginBase.Xml
