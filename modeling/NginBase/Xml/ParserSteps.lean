import NginBase.Xml.Decoding
import NginBase.Xml.Document

namespace NginBase.Xml

open Library Cost List Tree Syntax Runs

def allocationMessages : List String :=
  ["XML node allocation failed", "XML attribute allocation failed", "XML element allocation failed",
    "XML text allocation failed", "XML attribute value allocation failed", "XML total memory limit exceeded"]

def MemoryFailure : Failure → Prop
  | .diagnostic d => d.code = .outOfMemory ∨ d.code = .limitExceeded ∧ d.message ∈ allocationMessages
  | .fuel => False

def Exhausted (setup : Setup) (e : Failure) : Prop := setup.Scarce ∧ MemoryFailure e

namespace ParseContext

def place (ctx : ParseContext) : Place := ⟨ctx.nodes.length, ctx.elements.length, ctx.attributes.length⟩

structure Lays (ctx ctx' : ParseContext) (ref : Tree TextRef) : Prop where
  nodes : ctx'.nodes = ctx.nodes ++ ref.nodeRows ctx.place sentinel
  elements : ctx'.elements = ctx.elements ++ (ref.placed ctx.place).map Placed.record
  attributes : ctx'.attributes = ctx.attributes ++ ref.attributeRows

def Shows (ctx : ParseContext) (ref : Tree TextRef) (tree : Tree Bytes) : Prop :=
  ∀ ctx', ctx.Extends ctx' → ref.map ctx'.memory.text = tree

def ShowsAll (ctx : ParseContext) (refs : List (Tree TextRef)) (trees : List (Tree Bytes)) : Prop :=
  ∀ ctx', ctx.Extends ctx' → refs.map (Tree.map ctx'.memory.text) = trees

theorem Shows.mono {ctx ctx' : ParseContext} {ref : Tree TextRef} {tree : Tree Bytes} (shown : ctx.Shows ref tree)
    (later : ctx.Extends ctx') : ctx'.Shows ref tree :=
  fun ctx'' further => shown ctx'' (later.trans further)

theorem ShowsAll.mono {ctx ctx' : ParseContext} {refs : List (Tree TextRef)} {trees : List (Tree Bytes)}
    (shown : ctx.ShowsAll refs trees) (later : ctx.Extends ctx') : ctx'.ShowsAll refs trees :=
  fun ctx'' further => shown ctx'' (later.trans further)

theorem ShowsAll.append {ctx : ParseContext} {refs more : List (Tree TextRef)} {trees others : List (Tree Bytes)}
    (first : ctx.ShowsAll refs trees) (second : ctx.ShowsAll more others) :
    ctx.ShowsAll (refs ++ more) (trees ++ others) := by
  intro ctx' later
  rw [map_append, first ctx' later, second ctx' later]

theorem ShowsAll.nil (ctx : ParseContext) : ctx.ShowsAll [] [] := fun _ _ => rfl

theorem Shows.all {ctx : ParseContext} {ref : Tree TextRef} {tree : Tree Bytes} (shown : ctx.Shows ref tree) :
    ctx.ShowsAll [ref] [tree] := by
  intro ctx' later
  rw [map_singleton, shown ctx' later]

/-- An element that is being read: its record with the children so far, the last of which is noted in
    `span.last`. -/
def openRecord (base : ParseContext) (record : ElementRecord) (refs : List (Tree TextRef)) : ElementRecord :=
  { record with
    children := ⟨forestHead base.nodes.length sentinel refs, refs.length⟩
    span := ⟨record.span.first,
      if refs = [] then record.span.last else base.nodes.length + weighAll 1 (fun _ => 1) refs - 1⟩ }

def content (base : ParseContext) : Place := ⟨base.nodes.length, base.elements.length + 1, base.attributes.length⟩

/-- The tables since `base`: the record of an element and the rows of its children so far. -/
structure Filling (base : ParseContext) (record : ElementRecord) (refs : List (Tree TextRef)) (ctx : ParseContext) :
    Prop where
  nodes : ctx.nodes = base.nodes ++ forestRows base.content sentinel refs
  elements : ctx.elements =
    base.elements ++ openRecord base record refs :: (forestPlaced base.content refs).map Placed.record
  attributes : ctx.attributes = base.attributes ++ forestAttributes refs

theorem Filling.place {base ctx : ParseContext} {record : ElementRecord} {refs : List (Tree TextRef)}
    (filling : Filling base record refs ctx) : ctx.place = base.content.after refs := by
  unfold ParseContext.place Place.after content
  rw [filling.nodes, filling.elements, filling.attributes]
  simp only [length_append, length_cons, length_map, forestRows_length, forestPlaced_length,
    forestAttributes_length, Place.mk.injEq, true_and, and_true]
  omega

variable (setup : Setup)

structure Matches (level : Nat) (ctx : ParseContext) (c : Cursor) (t : Cost) : Prop extends Follows ctx c where
  depth : ctx.depth = level
  within : t.Stored setup.limits
  decodedBytes : ctx.decodedBytes = t.decoded
  nodes : ctx.nodes.length = t.nodes
  elements : ctx.elements.length = t.elements
  attributes : ctx.attributes.length = t.attributes
  children : ctx.childCount = t.children

abbrev Refines {α β : Type} (t : Cost) (val : Cost → α → β → Prop) (x : Except Failure α)
    (y : Charged Cost Failure β) : Prop :=
  Runs (documentBudget setup.limits) (Exhausted setup) Failure.Same t val x y

variable {setup} {level n : Nat} {ctx ctx' : ParseContext} {c c' : Cursor} {t : Cost}

theorem located_same (ctx : ParseContext) (e : Failure) : (ctx.located e).Same e := by
  cases e with
  | diagnostic d => exact ⟨rfl, rfl, rfl, rfl⟩
  | fuel => trivial

theorem errorAt_same (ctx : ParseContext) (code : ParseErrorCode) (message : String) (first last : Nat) :
    (ctx.errorAt setup code message first last).Same (Xml.errorAt setup.toProfile code message first last) :=
  ctx.located_same _

theorem Follows.errorHere_same (follows : ctx.Follows c) (code : ParseErrorCode) (message : String) :
    (ctx.errorHere setup code message).Same (c.errorHere setup.toProfile code message) := by
  unfold errorHere
  rw [follows.cursor]
  exact ctx.located_same _

section

variable (here : Matches setup level ctx c t)

include here

theorem Matches.moved (follows : ctx'.Follows c')
    (counters : ctx' = { ctx with memory := ctx'.memory, offset := ctx'.offset, requests := ctx'.requests }) :
    Matches setup level ctx' c' t := by
  constructor
  · exact follows
  · rw [counters]
    exact here.depth
  · exact here.within
  · rw [counters]
    exact here.decodedBytes
  · rw [counters]
    exact here.nodes
  · rw [counters]
    exact here.elements
  · rw [counters]
    exact here.attributes
  · rw [counters]
    exact here.children

theorem Matches.past (over' : c.Over c' n) : Matches setup level { ctx with offset := c'.offset } c' t :=
  here.moved (here.toFollows.past over' rfl rfl) rfl

theorem Matches.past_extends (over' : c.Over c' n) :
    ctx.Extends { ctx with offset := c'.offset } := here.toFollows.past_extends over' rfl rfl

end

theorem lex_refines {α β γ : Type} {read : Cursor → Except Failure (α × Cursor)}
    {f : α × ParseContext → Except Failure β} {g : α × Cursor → Charged Cost Failure γ} {val : Cost → β → γ → Prop}
    (here : ctx.Follows c)
    (next : ∀ a c', read c = .ok (a, c') → Refines setup t val (f (a, { ctx with offset := c'.offset })) (g (a, c'))) :
    Refines setup t val (ctx.lex read >>= f) (Syntax.lex c read >>= g) := by
  unfold lex Syntax.lex
  rw [here.cursor]
  cases result : read c with
  | error e => exact .error (ctx.located_same e)
  | ok value =>
    obtain ⟨a, c'⟩ := value
    have run := next a c' result
    unfold Refines Runs at run ⊢
    exact run

theorem allocate_refines {message : String} (known : message ∈ allocationMessages) (first last : Nat) :
    (∃ e, ctx.allocate setup message first last = .error e ∧ Exhausted setup e) ∨
      ∃ ctx', ctx.allocate setup message first last = .ok ctx' ∧ ctx' = { ctx with requests := ctx.requests + 1 } := by
  by_cases granted : setup.resources.grants ctx.requests = true
  · right
    exact ⟨_, if_pos granted, rfl⟩
  left
  refine ⟨_, if_neg granted, ⟨ctx.requests, .inl (by simpa using granted)⟩, ?_⟩
  split
  · exact .inr ⟨rfl, known⟩
  · exact .inl rfl

section

variable {raw : Slice} {refused : String}

/-- A text has been decoded: the reference shows it and nothing else has changed. -/
structure Decoded (setup : Setup) (level : Nat) (ctx : ParseContext) (c' : Cursor) (t' : Cost)
    (p : TextRef × ParseContext) (text : Bytes) : Prop where
  matches' : Matches setup level p.2 c' t'
  extends' : ctx.Extends p.2
  reads : p.2.Reads p.1 text
  nodes : p.2.nodes = ctx.nodes
  elements : p.2.elements = ctx.elements
  attributes : p.2.attributes = ctx.attributes

theorem checkDecoded_iff (here : Matches setup level ctx c t) (size : Nat) :
    (documentBudget setup.limits).fits t { decoded := size } ↔
      ¬ (setup.limits.maxDecodedStringBytes < ctx.decodedBytes ∨
        setup.limits.maxDecodedStringBytes - ctx.decodedBytes < size) := by
  have counted := here.decodedBytes
  have within := here.within
  show (t + { decoded := size }).Stored setup.limits ↔ _
  simp only [stored_iff, admitted_iff, add_nodes, add_elements, add_attributes,
    add_children, add_deepest, add_decoded] at within ⊢
  omega

theorem Matches.decoding {size : Nat} (here : Matches setup level ctx c t) (follows : ctx'.Follows c')
    (fits : (documentBudget setup.limits).fits t { decoded := size })
    (counters : ctx' = { ctx with memory := ctx'.memory, offset := ctx'.offset, requests := ctx'.requests,
                                  decodedBytes := ctx.decodedBytes + size }) :
    Matches setup level ctx' c' ((documentBudget setup.limits).spend t { decoded := size }) := by
  constructor
  · exact follows
  · rw [counters]
    exact here.depth
  · exact fits
  · rw [counters]
    show ctx.decodedBytes + size = t.decoded + size
    rw [here.decodedBytes]
  · rw [counters]
    exact here.nodes
  · rw [counters]
    exact here.elements
  · rw [counters]
    exact here.attributes
  · rw [counters]
    exact here.children

section

variable (here : Matches setup level ctx c t) (over' : c.Over c' n) (passes : c.Passes raw c')

include here over' passes

theorem decodeInSitu_refines (needed : ¬ needsDecode raw.bytes = false) :
    Refines setup t (Decoded setup level ctx c') (({ ctx with offset := c'.offset } : ParseContext).decodeInSitu setup raw)
      (decode setup.toProfile raw) := by
  unfold decode
  rw [if_neg needed]
  have moved := here.past over'
  have run := decodeInSitu_eq setup { ctx with offset := c'.offset } (here.toFollows.slice passes)
    (passes.last.trans (show c'.offset ≤ ctx.memory.source.length from moved.inside))
  cases result : decodeXmlText raw.bytes with
  | error e =>
    rw [result] at run
    obtain ⟨source, failed⟩ := run
    rw [failed]
    exact .fail (errorAt_same _ _ _ _ _)
  | ok text =>
    rw [result] at run
    dsimp only at run ⊢
    rw [run]
    have short := decodeXmlText_length result
    apply charge
    · intro fits
      have limit := (checkDecoded_iff moved text.length).mp fits
      rw [checkDecoded, if_neg limit]
      apply Runs.pure
      constructor
      · exact moved.decoding (here.toFollows.overwritten over' passes short rfl rfl rfl) fits rfl
      · exact here.toFollows.overwritten_extends over' passes short rfl rfl rfl
      · exact here.toFollows.overwritten_reads over' passes short rfl rfl rfl
      · rfl
      · rfl
      · rfl
    · intro exceeds
      have limit := not_not.mp ((checkDecoded_iff moved text.length).not.mp exceeds)
      rw [checkDecoded, if_pos limit]
      exact ⟨_, rfl, errorAt_same _ _ _ _ _⟩

theorem decodeCopy_refines (needed : ¬ needsDecode raw.bytes = false) (known : refused ∈ allocationMessages) :
    Refines setup t (Decoded setup level ctx c')
      (({ ctx with offset := c'.offset } : ParseContext).decodeCopy setup refused raw)
      (decode setup.toProfile raw) := by
  have moved := here.past over'
  unfold decode decodeCopy
  rw [if_neg needed]
  by_cases granted : setup.resources.grants ctx.requests = false
  · rw [if_pos granted]
    exact .giveUp ⟨⟨_, .inl granted⟩, .inl rfl⟩
  rw [if_neg granted]
  cases result : decodeXmlText raw.bytes with
  | error e => exact .fail (errorAt_same _ _ _ _ _)
  | ok text =>
    dsimp only
    have requested : Matches setup level { ctx with offset := c'.offset, requests := ctx.requests + 1 } c' t :=
      moved.moved (moved.toFollows.of_same rfl rfl) rfl
    apply charge
    · intro fits
      have limit := (checkDecoded_iff requested text.length).mp fits
      rw [checkDecoded, if_neg limit]
      by_cases empty : text = []
      · subst empty
        apply Runs.pure
        constructor
        · exact requested.decoding (requested.toFollows.of_same rfl rfl) fits rfl
        · exact (here.past_extends over').trans (.of_same rfl rfl)
        · exact ⟨.inl rfl, rfl⟩
        · rfl
        · rfl
        · rfl
      · rw [if_neg empty]
        apply bind_left (allocate_refines known _ _)
        intro ctx₁ allocated
        subst allocated
        have few : ctx.memory.decoded.length < decodedBit := by
          have decoded := here.decoded
          have small := here.small
          have inside := here.inside
          exact Nat.lt_of_le_of_lt (decoded.trans inside) small
        rw [if_neg (Nat.not_le.mpr few)]
        apply bind_left (allocate_refines known _ _)
        intro ctx₂ allocated
        subst allocated
        have short := decodeXmlText_length result
        have present := needsDecode_pos needed
        apply Runs.pure
        constructor
        · exact requested.decoding (here.toFollows.stored over' passes present rfl rfl) fits rfl
        · exact here.toFollows.stored_extends over' rfl rfl
        · exact here.toFollows.stored_reads over' passes present short rfl rfl
        · rfl
        · rfl
        · rfl
    · intro exceeds
      have limit := not_not.mp ((checkDecoded_iff requested text.length).not.mp exceeds)
      rw [checkDecoded, if_pos limit]
      exact ⟨_, rfl, errorAt_same _ _ _ _ _⟩

theorem decodeText_refines (known : refused ∈ allocationMessages) : Refines setup t (Decoded setup level ctx c')
      (({ ctx with offset := c'.offset } : ParseContext).decodeText setup refused raw)
      (decode setup.toProfile raw) := by
  have moved := here.past over'
  unfold decodeText
  by_cases needed : needsDecode raw.bytes = false
  · unfold decode
    rw [if_pos needed, if_pos needed]
    apply Runs.pure
    constructor
    · exact moved
    · exact here.past_extends over'
    · exact moved.toFollows.reads passes.last (here.toFollows.slice passes)
    · rfl
    · rfl
    · rfl
  · rw [if_neg needed]
    split
    · exact decodeInSitu_refines here over' passes needed
    · exact decodeCopy_refines here over' passes needed known

end

end

/-- The rows and counters of the tables after a step that left memory and cursor alone. -/
structure Grown (setup : Setup) (level : Nat) (ctx : ParseContext) (c : Cursor) (t' : Cost) (ctx' : ParseContext) :
    Prop where
  matches' : Matches setup level ctx' c t'
  memory : ctx'.memory = ctx.memory
  offset : ctx'.offset = ctx.offset

theorem Grown.extends' {t' : Cost} (grown : Grown setup level ctx c t' ctx') : ctx.Extends ctx' :=
  .of_same grown.memory grown.offset

theorem addNode_refines {node : NodeRecord} {tree : Tree Bytes} (here : Matches setup level ctx c t)
    (span : node.span = tree.span) : Refines setup t
      (fun t' p q => q = tree ∧ p.1 = ctx.nodes.length ∧ Grown setup level ctx c t' p.2 ∧
        p.2.nodes = ctx.nodes ++ [node] ∧ p.2.elements = ctx.elements ∧ p.2.attributes = ctx.attributes)
      (ctx.addNode setup node) (Syntax.addNode setup.toProfile tree) := by
  have counted := here.nodes
  have within := here.within
  have limit : (documentBudget setup.limits).fits t { nodes := 1 } ↔
      ¬ (setup.limits.maxNodes ≤ ctx.nodes.length ∨ 2 ^ 32 - 1 ≤ ctx.nodes.length) := by
    show (t + { nodes := 1 }).Stored setup.limits ↔ _
    simp only [stored_iff, admitted_iff, add_nodes, add_elements, add_attributes,
      add_children, add_deepest, add_decoded, sentinel] at within ⊢
    omega
  unfold addNode Syntax.addNode
  apply charge
  · intro fits
    rw [if_neg (limit.mp fits)]
    apply bind_left (allocate_refines (mem_cons_self) _ _)
    intro ctx₁ allocated
    subst allocated
    apply Runs.pure
    refine ⟨rfl, rfl, ⟨⟨here.toFollows.of_same rfl rfl, here.depth, fits, here.decodedBytes, ?_, here.elements,
      here.attributes, here.children⟩, rfl, rfl⟩, rfl, rfl, rfl⟩
    rw [length_append, counted]
    rfl
  · intro exceeds
    rw [if_pos (not_not.mp (limit.not.mp exceeds)), ← span]
    exact ⟨_, rfl, errorAt_same _ _ _ _ _⟩

section

variable {base ctx₀ : ParseContext} {record : ElementRecord} {refs : List (Tree TextRef)} {ref : Tree TextRef}
  (filling : Filling base record refs ctx₀) (lays : ctx₀.Lays ctx ref)

include filling

theorem Filling.child (ref : Tree TextRef) :
    ctx₀.nodes.length + ref.descendants = base.nodes.length + weighAll 1 (fun _ => 1) (refs ++ [ref]) - 1 := by
  have place := congrArg Place.nodes filling.place
  have count : weigh 1 (fun _ => 1) ref = ref.descendants + 1 := ref.nodeCount_eq
  simp only [ParseContext.place, content, Place.after] at place
  simp only [weighAll_append, weighAll]
  omega

include lays

theorem Filling.rows : ctx.nodes = base.nodes ++ (forestRows base.content sentinel refs ++
    ref.nodeRows (base.content.after refs) sentinel) := by
  rw [lays.nodes, filling.nodes, filling.place, append_assoc]

theorem Filling.link (few : ctx.nodes.length ≤ sentinel) :
    (if (openRecord base record refs).children.count = 0 then some (ctx.nodes, ctx₀.nodes.length + ref.descendants) else
        (nodeAt ctx.nodes (openRecord base record refs).span.last).map fun _ =>
          (ctx.nodes.modify (openRecord base record refs).span.last
            (fun node => { node with nextSibling := ctx₀.nodes.length + ref.descendants }),
            (openRecord base record refs).children.first)) =
      some (base.nodes ++ forestRows base.content sentinel (refs ++ [ref]),
        forestHead base.nodes.length sentinel (refs ++ [ref])) := by
  have rows := filling.rows lays
  have place := congrArg Place.nodes filling.place
  rcases eq_nil_or_concat' refs with rfl | ⟨init, last, rfl⟩
  · have same : ctx₀.nodes.length = base.nodes.length := place
    have whole : base.nodes ++ forestRows base.content sentinel [ref] = ctx.nodes := by
      rw [rows]
      simp [forestRows, forestHead]
    rw [nil_append, whole, same]
    rfl
  · have count : weigh 1 (fun _ => 1) last = last.descendants + 1 := last.nodeCount_eq
    have position : (openRecord base record (init ++ [last])).span.last =
        base.nodes.length + (weighAll 1 (fun _ => 1) init + last.descendants) := by
      simp only [openRecord, append_eq_nil_iff, cons_ne_self, and_false, if_false, weighAll_append,
        weighAll, count]
      omega
    have next : ctx₀.nodes.length + ref.descendants =
        forestHead (base.content.after (init ++ [last])).nodes sentinel [ref] := by
      rw [← place]
      rfl
    have inside : base.nodes.length + (weighAll 1 (fun _ => 1) init + last.descendants) < ctx.nodes.length := by
      rw [rows]
      simp only [length_append, forestRows_length, weighAll_append, weighAll]
      omega
    have present := nodeAt_of_some few (getElem?_eq_getElem inside)
    have several : ¬ (openRecord base record (init ++ [last])).children.count = 0 := by
      simp [openRecord]
    rw [if_neg several, position, present, Option.map_some, rows, modify_right, forestRows_relink, next]
    congr 2
    · rw [forestRows_append _ _ (init ++ [last]) [ref]]
      simp [forestRows, forestHead]
    · cases init with
      | nil => rfl
      | cons => rfl

theorem Filling.elements_snoc : ctx.elements.set base.elements.length { openRecord base record refs with
          children := ⟨forestHead base.nodes.length sentinel (refs ++ [ref]), refs.length + 1⟩
          span := ⟨record.span.first, ctx₀.nodes.length + ref.descendants⟩ } =
      base.elements ++ openRecord base record (refs ++ [ref]) ::
        (forestPlaced base.content (refs ++ [ref])).map Placed.record := by
  have opened : openRecord base record (refs ++ [ref]) =
      { openRecord base record refs with
        children := ⟨forestHead base.nodes.length sentinel (refs ++ [ref]), refs.length + 1⟩
        span := ⟨record.span.first, ctx₀.nodes.length + ref.descendants⟩ } := by
    simp [openRecord, filling.child]
  rw [opened, lays.elements, filling.elements, filling.place, append_assoc,
    set_append_right _ _ (Nat.le_refl _), Nat.sub_self, cons_append, set_cons_zero,
    ← map_append, forestPlaced_append]
  simp [forestPlaced]

end

theorem addChild_refines {base ctx₀ : ParseContext} {record : ElementRecord} {refs : List (Tree TextRef)}
    {ref : Tree TextRef} {tree : Tree Bytes} (here : Matches setup level ctx c t)
    (filling : Filling base record refs ctx₀) (lays : ctx₀.Lays ctx ref) : Refines setup t
      (fun t' ctx' q => q = ([tree], c) ∧ Grown setup level ctx c t' ctx' ∧ Filling base record (refs ++ [ref]) ctx')
      (ctx.addChild setup base.elements.length (ctx₀.nodes.length + ref.descendants))
      (Syntax.addChild setup.toProfile c tree) := by
  have counted := here.children
  have within := here.within
  have limit : (documentBudget setup.limits).fits t { children := 1 } ↔
      ¬ (setup.limits.maxMembers ≤ ctx.childCount ∨ 2 ^ 32 - 1 ≤ ctx.childCount) := by
    show (t + { children := 1 }).Stored setup.limits ↔ _
    simp only [stored_iff, admitted_iff, add_nodes, add_elements, add_attributes,
      add_children, add_deepest, add_decoded, sentinel] at within ⊢
    omega
  have opened : ctx.elements[base.elements.length]? = some (openRecord base record refs) := by
    rw [lays.elements, filling.elements, append_assoc, getElem?_append_right (Nat.le_refl _), Nat.sub_self]
    rfl
  unfold addChild Syntax.addChild
  rw [opened]
  dsimp only
  apply charge
  · intro fits
    rw [if_neg (limit.mp fits), filling.link lays (here.nodes ▸ within.nodeIds)]
    apply Runs.pure
    refine ⟨rfl, ⟨⟨here.toFollows.of_same rfl rfl, here.depth, fits, here.decodedBytes, ?_, ?_,
      here.attributes, ?_⟩, rfl, rfl⟩, ⟨rfl, filling.elements_snoc lays, ?_⟩⟩
    · show _ = t.nodes
      rw [← here.nodes, filling.rows lays]
      simp only [length_append, forestRows_length, nodeRows_length, weighAll_append, weighAll,
        Nat.add_zero]
    · rw [length_set]
      exact here.elements
    · rw [counted]
      rfl
    · rw [lays.attributes, filling.attributes, forestAttributes_append]
      simp [forestAttributes]
  · intro exceeds
    rw [if_pos (not_not.mp (limit.not.mp exceeds)), ← here.offset]
    exact ⟨_, rfl, errorAt_same _ _ _ _ _⟩

def Filled (setup : Setup) (level : Nat) (base : ParseContext) (record : ElementRecord) (refs : List (Tree TextRef))
    (ctx : ParseContext) (t' : Cost) (ctx' : ParseContext) (q : List (Tree Bytes) × Cursor) : Prop :=
  ∃ more, Matches setup level ctx' q.2 t' ∧ ctx.Extends ctx' ∧ Filling base record (refs ++ more) ctx' ∧
    ctx'.ShowsAll more q.1

theorem Filled.after {base ctx₀ : ParseContext} {record : ElementRecord} {refs : List (Tree TextRef)} {t' : Cost}
    {q : List (Tree Bytes) × Cursor} (earlier : ctx₀.Extends ctx)
    (filled : Filled setup level base record refs ctx t' ctx' q) : Filled setup level base record refs ctx₀ t' ctx' q := by
  obtain ⟨more, matched, extended, filling, shown⟩ := filled
  exact ⟨more, matched, earlier.trans extended, filling, shown⟩

theorem addLeaf_refines (kind : LeafKind) {base : ParseContext} {record : ElementRecord}
    {refs : List (Tree TextRef)} {name text : TextRef} {nameText textText : Bytes} {span : CompactSpan} (here : Matches setup level ctx c t)
    (filling : Filling base record refs ctx) (named : ctx.Reads name nameText) (read : ctx.Reads text textText) :
    Refines setup t (Filled setup level base record refs ctx)
      (ctx.addLeaf setup base.elements.length { kind := kind.node, name, text, span })
      (do
        let node ← Syntax.addNode setup.toProfile (.leaf kind nameText textText span)
        Syntax.addChild setup.toProfile c node) := by
  apply Runs.bind (addNode_refines here rfl)
  intro t₁ p tree ⟨same, id, grown, nodes, elements, attributes⟩
  obtain ⟨id', ctx₁⟩ := p
  subst same
  dsimp only at id grown nodes elements attributes ⊢
  have lays : ctx.Lays ctx₁ (.leaf kind name text span) := by
    constructor
    · exact nodes
    · rw [elements]
      exact (List.append_nil _).symm
    · rw [attributes]
      exact (List.append_nil _).symm
  rw [id]
  apply Runs.mono (addChild_refines grown.matches' filling lays)
  intro t₂ ctx₂ q ⟨same, grown₂, filling₂⟩
  subst same
  have later := grown.extends'.trans grown₂.extends'
  refine ⟨[_], grown₂.matches', later, filling₂, Shows.all ?_⟩
  intro ctx₃ further
  have named' := (named.mono later).mono further
  have read' := (read.mono later).mono further
  rw [Tree.map, named'.text, read'.text]

end ParseContext

end NginBase.Xml
