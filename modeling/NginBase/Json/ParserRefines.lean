import NginBase.Json.Decoding
import NginBase.Json.Parser
import NginBase.Json.Totality

namespace NginBase.Json

open Library List Simulates Document Cursor Reference ParseContext Failure

namespace ParseContext

/-- Everything the tables and the live strings say is still said later. -/
structure Extends (ctx ctx' : ParseContext) : Prop where
  reader : ctx.reader.Extends ctx'.reader
  nodes : ctx.nodes <+: ctx'.nodes
  elements : ctx.elements <+: ctx'.elements
  members : ctx.members <+: ctx'.members

theorem Extends.refl (ctx : ParseContext) : ctx.Extends ctx :=
  ⟨.refl _, prefix_refl _, prefix_refl _, prefix_refl _⟩

theorem Extends.trans {a b c : ParseContext} (first : a.Extends b) (second : b.Extends c) : a.Extends c :=
  ⟨first.reader.trans second.reader, first.nodes.trans second.nodes, first.elements.trans second.elements,
    first.members.trans second.members⟩

/-- The presented value of `x`, by whatever function reads it from a document, is `y` now and in
    every later state. -/
def Shows {α β : Type} (read : Document → Nat → α → β) (ctx : ParseContext) (x : α) (y : β) : Prop :=
  ∀ ctx', ctx.Extends ctx' → ∀ root fuel, ctx.nodes.length ≤ fuel → read (ctx'.document root) fuel x = y

theorem Shows.mono {α β : Type} {read : Document → Nat → α → β} {ctx ctx' : ParseContext} {x : α} {y : β}
    (shows' : Shows read ctx x y) (later : ctx.Extends ctx') : Shows read ctx' x y :=
  fun ctx'' further root fuel enough =>
    shows' ctx'' (later.trans further) root fuel (later.nodes.length_le.trans enough)

theorem Shows.snoc {α β : Type} {read : Document → Nat → α → β} {ctx : ParseContext} {xs : List α} {ys : List β}
    {x : α} {y : β} (all : Shows (fun doc fuel => map (read doc fuel)) ctx xs ys) (one : Shows read ctx x y) :
    Shows (fun doc fuel => map (read doc fuel)) ctx (xs ++ [x]) (ys ++ [y]) := by
  intro ctx' later root fuel enough
  have first := all ctx' later root fuel enough
  have second := one ctx' later root fuel enough
  simp only [map_append, map_singleton, first, second]

def readMember (doc : Document) (fuel : Nat) (member : MemberRecord) : Member :=
  (doc.memory.view member.key, member.span, doc.treeAt fuel member.value)

abbrev ShowsTree := Shows treeAt

abbrev ShowsTrees := Shows fun doc fuel => map (doc.treeAt fuel)

abbrev ShowsMembers := Shows fun doc fuel => map (readMember doc fuel)

variable (setup : Setup)

/-- The context and the state of the reference parser have read and counted the same. -/
structure Matches (depth : Nat) (ctx : ParseContext) (s : State) : Prop where
  follows : ctx.reader.Follows setup s.cursor s.tally.decoded
  depth : ctx.depth = depth
  nodes : ctx.nodes.length = s.tally.nodes
  elements : ctx.elements.length = s.tally.elements
  members : ctx.members.length = s.tally.members

/-- A step from `ctx` that produced `p` while the reference parser produced `q`. -/
structure Produces {α β : Type} (depth : Nat) (ctx : ParseContext) (value : ParseContext → α → β → Prop)
    (p : α × ParseContext) (q : β × State) : Prop where
  matches' : Matches setup depth p.2 q.2
  extends' : ctx.Extends p.2
  value : value p.2 p.1 q.1

abbrev Refines {α β : Type} (depth : Nat) (ctx : ParseContext) (value : ParseContext → α → β → Prop) :=
  Simulates (Exhausted setup) Same (Produces setup depth ctx value)

variable {setup} {depth : Nat} {ctx : ParseContext} {s : State}

section

variable (here : Matches setup depth ctx s)

include here

theorem lex_refines {α : Type} {read : Cursor → Except Failure (α × Cursor)}
    (moves : ∀ a c', read s.cursor = .ok (a, c') → ∃ n, s.cursor.Over c' n) :
    Refines setup depth ctx (fun _ a b => a = b) (ctx.lex read) (Reference.lex s read) := by
  refine (Reader.lex_spec here.follows moves).bind ?_
  rintro ⟨a, reader⟩ ⟨b, cursor⟩ ⟨same, follows, further⟩
  exact .ok ⟨⟨follows, here.depth, here.nodes, here.elements, here.members⟩,
    ⟨further, prefix_refl _, prefix_refl _, prefix_refl _⟩, same⟩

theorem skipTrivia_refines : Refines setup depth ctx (fun _ a b => a = b) (ctx.lex (Cursor.skipTrivia setup.toProfile))
      (Reference.lex s (Cursor.skipTrivia setup.toProfile)) :=
  lex_refines here fun _ _ h => let ⟨n, past, _⟩ := skipTrivia_over h; ⟨n, past⟩

theorem separator_refines (close : UInt8) (expected trailing : String) :
    Refines setup depth ctx (fun _ a b => a = b) (ctx.lex (separator setup.toProfile close expected trailing))
      (Reference.lex s (separator setup.toProfile close expected trailing)) :=
  lex_refines here fun _ _ h => let ⟨n, past, _⟩ := separator_over h; ⟨n, past⟩

theorem parseString_refines : Refines setup depth ctx
      (fun ctx' p q => ctx'.reader.Live p.value ∧ ctx'.reader.memory.view p.value = q.1 ∧ p.span = q.2)
      (ctx.parseString setup) (Reference.parseString setup.toProfile s) := by
  have run := Reader.parseString_spec "JSON string allocation failed" here.follows
  rw [← bind_pure (Reference.parseString setup.toProfile s)]
  refine run.bind ?_
  rintro ⟨string, reader⟩ ⟨text, s'⟩ parsed
  have tally := parsed.tally
  refine .ok ⟨⟨parsed.follows, here.depth, ?_, ?_, ?_⟩,
    ⟨parsed.extends', prefix_refl _, prefix_refl _, prefix_refl _⟩, parsed.live, parsed.view, parsed.span⟩
  · rw [tally]; exact here.nodes
  · rw [tally]; exact here.elements
  · rw [tally]; exact here.members

end

theorem grow_refines {error : Failure} (memory : MemoryFailure error) (here : Matches setup depth ctx s) :
    (∃ e, ctx.grow setup error = .error e ∧ Exhausted setup e) ∨
      ∃ ctx', ctx.grow setup error = .ok ctx' ∧ Matches setup depth ctx' s ∧ ctx.Extends ctx' ∧
        ctx'.nodes = ctx.nodes ∧ ctx'.elements = ctx.elements ∧ ctx'.members = ctx.members := by
  unfold grow Reader.request
  by_cases granted : setup.resources.grants ctx.reader.requests = true
  · refine .inr ⟨{ ctx with reader := { ctx.reader with requests := ctx.reader.requests + 1 } }, by simp [granted],
      ⟨⟨here.follows.offset, here.follows.rest, here.follows.inside, here.follows.decoded, here.follows.room⟩,
        here.depth, here.nodes, here.elements, here.members⟩, ?_, rfl, rfl, rfl⟩
    exact ⟨⟨le_refl _, fun _ live => live, fun _ _ => rfl⟩, prefix_refl _, prefix_refl _, prefix_refl _⟩
  · exact .inl ⟨error, by simp [granted], ⟨⟨_, .inl (by simpa using granted)⟩, memory⟩⟩

theorem getElem?_of_first {α : Type} {l l' : List α} (first : l <+: l') {i : Nat} (inside : i < l.length) :
    l'[i]? = l[i]? := by
  obtain ⟨tail, rfl⟩ := first
  exact getElem?_append_left inside

theorem addNode_refines {node : NodeRecord} {tree : SpannedValue} (here : Matches setup depth ctx s)
    (span : node.span = tree.span) (shows' : Shows (fun doc fuel => doc.present (doc.treeAt fuel)) ctx node tree) :
    Refines setup depth ctx ShowsTree (ctx.addNode setup node) (Reference.addNode setup.toProfile s tree) := by
  refine .ite (by rw [here.nodes]) (fun _ _ => .error ?_) (fun _ _ => ?_)
  · simp only [span]
    exact makeErrorAt_same _ _ _ _ _ _
  · refine bind_left (grow_refines (.inl rfl) here) ?_
    rintro ctx' ⟨there, further, nodes, elements, members⟩
    split
    · rename_i past
      exact .giveUp ⟨⟨_, .inr past⟩, .inr ⟨rfl, .inl rfl⟩⟩
    have grown : ctx'.Extends { ctx' with nodes := ctx'.nodes ++ [node] } :=
      ⟨.refl _, prefix_append _ _, prefix_refl _, prefix_refl _⟩
    refine .ok ⟨⟨there.follows, there.depth, ?_, there.elements, there.members⟩, further.trans grown, ?_⟩
    · simp [there.nodes]
    · intro ctx'' later root fuel enough
      simp only [length_append, length_singleton, nodes] at enough
      obtain ⟨fuel, rfl⟩ : ∃ k, fuel = k + 1 := ⟨fuel - 1, by omega⟩
      have present : ctx''.nodes[ctx'.nodes.length]? = some node := by
        rw [getElem?_of_first later.nodes (by simp)]
        simp
      simp only [treeAt, document, present]
      exact shows' ctx'' (further.trans (grown.trans later)) root fuel (by omega)

section

variable {parse : ParseContext → Except Failure (NodeId × ParseContext)}
  {parse' : State → Except Failure (SpannedValue × State)}
  (same : ∀ ctx s, Matches setup depth ctx s → Refines setup depth ctx ShowsTree (parse ctx) (parse' s))

include same

theorem arrayLoop_refines (fuel : Nat) {values : List NodeId} {trees : List SpannedValue}
    (here : Matches setup depth ctx s) (shown : ShowsTrees ctx values trees) :
    Refines setup depth ctx ShowsTrees (arrayLoop setup parse fuel ctx values)
      (Reference.arrayLoop setup.toProfile parse' fuel s trees) := by
  induction fuel generalizing ctx s values trees with
  | zero => exact .error trivial
  | succ fuel ih =>
    refine (same ctx s here).bind ?_
    rintro ⟨value, ctx₁⟩ ⟨tree, s₁⟩ first
    refine bind_left (grow_refines (.inl rfl) first.matches') ?_
    rintro ctx₂ ⟨there, further, -⟩
    refine (separator_refines there _ _ _).bind ?_
    rintro ⟨closed, ctx₃⟩ ⟨closed', s₃⟩ ⟨after, last, rfl⟩
    have whole : ctx.Extends ctx₃ := (first.extends'.trans further).trans last
    have shown' : ShowsTrees ctx₃ (values ++ [value]) (trees ++ [tree]) :=
      (shown.mono whole).snoc (first.value.mono (further.trans last))
    cases closed with
    | true => exact .ok ⟨after, whole, shown'⟩
    | false =>
      refine (ih after shown').mono ?_
      rintro p q ⟨matched, extended, value⟩
      exact ⟨matched, whole.trans extended, value⟩

omit same in
theorem placeMember_refines {members : List MemberRecord} {shown : List Member} {member : MemberRecord}
    {shown' : Member} (keySpan : SourceSpan) (here : Matches setup depth ctx s)
    (all : ShowsMembers ctx members shown) (one : Shows readMember ctx member shown') : Simulates (Exhausted setup) Same
      (fun p q => Matches setup depth p.2 s ∧ ctx.Extends p.2 ∧ ShowsMembers p.2 p.1 q)
      (placeMember setup ctx members member keySpan) (Reference.placeMember setup.toProfile shown shown' keySpan) := by
  have append : Simulates (Exhausted setup) Same
      (fun p q => Matches setup depth p.2 s ∧ ctx.Extends p.2 ∧ ShowsMembers p.2 p.1 q)
      (do
        let ctx ← ctx.grow setup (ctx.reader.errorHere setup .outOfMemory "JSON object allocation failed")
        return (members ++ [member], ctx))
      (.ok (shown ++ [shown'])) := by
    refine bind_left (grow_refines (.inl rfl) here) ?_
    rintro ctx' ⟨there, further, -⟩
    exact .ok ⟨there, further, (all.mono further).snoc (one.mono further)⟩
  have now := all ctx (.refl ctx) 0 _ (le_refl _)
  have new := one ctx (.refl ctx) 0 _ (le_refl _)
  have keys : (members.findIdx? fun earlier =>
        ctx.reader.memory.view earlier.key = ctx.reader.memory.view member.key) =
      shown.findIdx? fun earlier => earlier.1 = shown'.1 := by
    rw [← now, ← new, findIdx?_map]
    rfl
  unfold placeMember Reference.placeMember
  rw [keys]
  cases found : shown.findIdx? (fun earlier => earlier.1 = shown'.1) with
  | none => exact append
  | some duplicate =>
    cases setup.options.duplicateKeys with
    | reject =>
      refine .error ⟨rfl, rfl, ?_, rfl⟩
      simp only [← now, getElem?_map, Option.map_map]
      rfl
    | preserve => exact append
    | keepFirst => exact .ok ⟨here, .refl ctx, all⟩
    | keepLast =>
      refine .ok ⟨here, .refl ctx, ?_⟩
      intro ctx' later root fuel enough
      have first := all ctx' later root fuel enough
      have second := one ctx' later root fuel enough
      simp only [map_set, first, second]

omit same in
theorem nodeSpan_of_shows {id : NodeId} {tree : SpannedValue} (shown : ShowsTree ctx id tree) :
    ctx.nodeSpan id = tree.span := by
  have now := shown ctx (.refl ctx) 0 _ (le_refl _)
  rw [← now]
  cases size : ctx.nodes.length with
  | zero =>
    have missing : ctx.nodes[id]? = none := getElem?_eq_none (by omega)
    simp [nodeSpan, missing, treeAt, SpannedValue.span]
  | succ fuel =>
    simp only [treeAt, document, nodeSpan]
    cases ctx.nodes[id]? with
    | none => rfl
    | some node =>
      simp only [present]
      cases node.payload <;> rfl

theorem objectLoop_refines (fuel : Nat) {members : List MemberRecord} {shown : List Reference.Member}
    (here : Matches setup depth ctx s) (all : ShowsMembers ctx members shown) :
    Refines setup depth ctx ShowsMembers (objectLoop setup parse fuel ctx members)
      (Reference.objectLoop setup.toProfile parse' fuel s shown) := by
  induction fuel generalizing ctx s members shown with
  | zero => exact .error trivial
  | succ fuel ih =>
    refine (parseString_refines here).bind ?_
    rintro ⟨key, ctx₁⟩ ⟨⟨text, keySpan⟩, s₁⟩ ⟨there₁, further₁, live, view, rfl⟩
    refine (lex_refines there₁ fun _ _ h => let ⟨n, past, _⟩ := Cursor.colon_over h; ⟨n, past⟩).bind ?_
    rintro ⟨_, ctx₂⟩ ⟨_, s₂⟩ ⟨there₂, further₂, -⟩
    refine (skipTrivia_refines there₂).bind ?_
    rintro ⟨_, ctx₃⟩ ⟨_, s₃⟩ ⟨there₃, further₃, -⟩
    refine (same ctx₃ s₃ there₃).bind ?_
    rintro ⟨value, ctx₄⟩ ⟨tree, s₄⟩ ⟨there₄, further₄, shows'⟩
    have beyond : ctx₁.Extends ctx₄ := (further₂.trans further₃).trans further₄
    have span : (ctx₄.nodeSpan value) = tree.span := nodeSpan_of_shows shows'
    have member : Shows readMember ctx₄
        ⟨key.value, value, ⟨setup.source, key.span.first, (ctx₄.nodeSpan value).last⟩⟩
        (text, ⟨setup.source, key.span.first, tree.span.last⟩, tree) := by
      intro ctx' later root fuel enough
      have kept := (beyond.trans later).reader.view key.value live
      have child := shows' ctx' later root fuel enough
      simp only [readMember, child, span]
      rw [show (ctx'.document root).memory.view key.value = text from kept.trans view]
    refine (placeMember_refines key.span there₄ (all.mono (further₁.trans beyond)) member).bind ?_
    rintro ⟨members', ctx₅⟩ shown' ⟨there₅, further₅, all'⟩
    refine (separator_refines there₅ _ _ _).bind ?_
    rintro ⟨closed, ctx₆⟩ ⟨closed', s₆⟩ ⟨there₆, further₆, rfl⟩
    have whole : ctx.Extends ctx₆ := ((further₁.trans beyond).trans further₅).trans further₆
    cases closed with
    | true => exact .ok ⟨there₆, whole, all'.mono further₆⟩
    | false =>
      refine (ih there₆ (all'.mono further₆)).mono ?_
      rintro p q ⟨matched, extended, value⟩
      exact ⟨matched, whole.trans extended, value⟩

end

theorem Matches.pass (here : Matches setup depth ctx s) (depth' : Nat) (present : 0 < s.cursor.rest.length) :
    Matches setup depth' (ctx.pass depth') s.pass ∧ ctx.Extends (ctx.pass depth') := by
  have past : s.cursor.Over (s.cursor.advance 1) 1 := ⟨present, rfl⟩
  obtain ⟨follows, further⟩ := here.follows.past past
  simp only [advance_offset, ← here.follows.offset] at follows further
  exact ⟨⟨follows, rfl, here.nodes, here.elements, here.members⟩,
    ⟨further, prefix_refl _, prefix_refl _, prefix_refl _⟩⟩

theorem slice_append {α : Type} {l l' : List α} {new : List α} (first : l ++ new <+: l') :
    (l'.drop l.length).take new.length = new := by
  obtain ⟨tail, rfl⟩ := first
  simp

theorem storeArray_refines {start : Nat} {values : List NodeId} {trees : List SpannedValue}
    (here : Matches setup depth ctx s) (shown : ShowsTrees ctx values trees) :
    Refines setup depth ctx ShowsTree (storeArray setup ctx start values) (Reference.storeArray setup.toProfile s start trees) := by
  have count : values.length = trees.length := by
    rw [← shown ctx (.refl ctx) 0 _ (le_refl _), length_map]
  unfold storeArray Reference.storeArray
  simp only [here.elements, here.follows.offset, ← count]
  refine .ite Iff.rfl (fun _ _ => .error (makeErrorAt_same _ _ _ _ _ _)) (fun _ _ => ?_)
  refine bind_left (grow_refines (.inl rfl) here) ?_
  rintro ctx' ⟨there, further, nodes, elements, members⟩
  have grown : ctx'.Extends { ctx' with elements := ctx'.elements ++ values } :=
    ⟨.refl _, prefix_refl _, prefix_append _ _, prefix_refl _⟩
  refine mono (addNode_refines ⟨there.follows, there.depth, there.nodes, ?_, there.members⟩ rfl ?_) ?_
  · simp [there.elements]
  · intro ctx'' later root fuel enough
    have slice : (ctx''.elements.drop s.tally.elements).take values.length = values := by
      rw [← there.elements]
      exact slice_append later.elements
    have children := shown ctx'' ((further.trans grown).trans later) root fuel (nodes ▸ enough)
    simp only [present, document, slice]
    exact congrArg _ children
  · rintro p q ⟨matched, extended, value⟩
    exact ⟨matched, (further.trans grown).trans extended, value⟩

theorem storeObject_refines {start : Nat} {members : List MemberRecord} {shown : List Member}
    (here : Matches setup depth ctx s) (all : ShowsMembers ctx members shown) :
    Refines setup depth ctx ShowsTree (storeObject setup ctx start members)
      (Reference.storeObject setup.toProfile s start shown) := by
  have count : members.length = shown.length := by
    rw [← all ctx (.refl ctx) 0 _ (le_refl _), length_map]
  unfold storeObject Reference.storeObject
  simp only [here.members, here.follows.offset, ← count]
  refine .ite Iff.rfl (fun _ _ => .error (makeErrorAt_same _ _ _ _ _ _)) (fun _ _ => ?_)
  refine bind_left (grow_refines (.inl rfl) here) ?_
  rintro ctx' ⟨there, further, nodes, elements, kept⟩
  have grown : ctx'.Extends { ctx' with members := ctx'.members ++ members } :=
    ⟨.refl _, prefix_refl _, prefix_refl _, prefix_append _ _⟩
  refine mono (addNode_refines ⟨there.follows, there.depth, there.nodes, there.elements, ?_⟩ rfl ?_) ?_
  · simp [there.members]
  · intro ctx'' later root fuel enough
    have slice : (ctx''.members.drop s.tally.members).take members.length = members := by
      rw [← there.members]
      exact slice_append later.members
    have children := all ctx'' ((further.trans grown).trans later) root fuel (nodes ▸ enough)
    simp only [present, document, slice]
    exact congrArg _ children
  · rintro p q ⟨matched, extended, value⟩
    exact ⟨matched, (further.trans grown).trans extended, value⟩

section

variable {parse : ParseContext → Except Failure (NodeId × ParseContext)}
  {parse' : State → Except Failure (SpannedValue × State)}
  (same : ∀ ctx s, Matches setup (depth + 1) ctx s → Refines setup (depth + 1) ctx ShowsTree (parse ctx) (parse' s))

include same

section

variable (here : Matches setup depth ctx s) (bracket : 0 < s.cursor.rest.length)

include here bracket

theorem parseArray_refines :
    Refines setup depth ctx ShowsTree (parseArray setup parse ctx) (Reference.parseArray setup.toProfile parse' depth s) := by
  refine .ite (by rw [here.depth]) (fun _ _ => .error (here.follows.errorHere_same _ _)) (fun _ _ => ?_)
  · obtain ⟨entered, further⟩ := here.pass (depth + 1) bracket
    rw [here.depth, here.follows.offset]
    refine (skipTrivia_refines entered).bind ?_
    rintro ⟨_, ctx₁⟩ ⟨_, s₁⟩ ⟨there₁, further₁, -⟩
    have inside : Refines setup (depth + 1) ctx₁ ShowsTrees (arrayValues setup parse ctx₁)
        (Reference.arrayValues setup.toProfile parse' s₁) := by
      unfold arrayValues Reference.arrayValues
      rw [there₁.follows.cursor]
      refine .ite Iff.rfl (fun _ _ => .ok ⟨there₁, .refl _, fun _ _ _ _ _ => rfl⟩) (fun _ _ => ?_)
      exact arrayLoop_refines same _ there₁ fun _ _ _ _ _ => rfl
    refine inside.keep.bind ?_
    rintro ⟨values, ctx₂⟩ ⟨trees, s₂⟩ ⟨⟨there₂, further₂, shown⟩, result⟩
    have close := Reference.arrayValues_closes result
    obtain ⟨left, further₃⟩ := there₂.pass depth (peekByte_some close (by decide))
    have depth' : ctx₂.depth - 1 = depth := by
      rw [show ctx₂.depth = depth + 1 from there₂.depth, Nat.add_sub_cancel]
    simp only [depth']
    refine (storeArray_refines left (shown.mono further₃)).mono ?_
    rintro p q ⟨matched, extended, value⟩
    exact ⟨matched, (((further.trans further₁).trans further₂).trans further₃).trans extended, value⟩

theorem parseObject_refines :
    Refines setup depth ctx ShowsTree (parseObject setup parse ctx) (Reference.parseObject setup.toProfile parse' depth s) := by
  refine .ite (by rw [here.depth]) (fun _ _ => .error (here.follows.errorHere_same _ _)) (fun _ _ => ?_)
  · obtain ⟨entered, further⟩ := here.pass (depth + 1) bracket
    rw [here.depth, here.follows.offset]
    refine (skipTrivia_refines entered).bind ?_
    rintro ⟨_, ctx₁⟩ ⟨_, s₁⟩ ⟨there₁, further₁, -⟩
    have inside : Refines setup (depth + 1) ctx₁ ShowsMembers (objectMembers setup parse ctx₁)
        (Reference.objectMembers setup.toProfile parse' s₁) := by
      unfold objectMembers Reference.objectMembers
      rw [there₁.follows.cursor]
      refine .ite Iff.rfl (fun _ _ => .ok ⟨there₁, .refl _, fun _ _ _ _ _ => rfl⟩) (fun _ _ => ?_)
      exact objectLoop_refines same _ there₁ fun _ _ _ _ _ => rfl
    refine inside.keep.bind ?_
    rintro ⟨members, ctx₂⟩ ⟨shown, s₂⟩ ⟨⟨there₂, further₂, all⟩, result⟩
    have close := Reference.objectMembers_closes result
    obtain ⟨left, further₃⟩ := there₂.pass depth (peekByte_some close (by decide))
    have depth' : ctx₂.depth - 1 = depth := by
      rw [show ctx₂.depth = depth + 1 from there₂.depth, Nat.add_sub_cancel]
    simp only [depth']
    refine (storeObject_refines left (all.mono further₃)).mono ?_
    rintro p q ⟨matched, extended, value⟩
    exact ⟨matched, (((further.trans further₁).trans further₂).trans further₃).trans extended, value⟩

end

end

theorem parseValue_refines (fuel : Nat) (here : Matches setup depth ctx s) :
    Refines setup depth ctx ShowsTree (ctx.parseValue setup fuel) (Reference.parseValue setup.toProfile fuel depth s) := by
  induction fuel generalizing depth ctx s with
  | zero => exact .error trivial
  | succ fuel ih =>
    refine (skipTrivia_refines here).bind ?_
    rintro ⟨_, ctx₁⟩ ⟨_, s₁⟩ ⟨there, further, -⟩
    have onward {p : NodeId × ParseContext} {q : SpannedValue × Reference.State}
        (produced : Produces setup depth ctx₁ ShowsTree p q) : Produces setup depth ctx ShowsTree p q :=
      ⟨produced.matches', further.trans produced.extends', produced.value⟩
    simp only [there.follows.cursor]
    refine .ite Iff.rfl (fun _ brace => ?_) (fun _ _ => .ite Iff.rfl (fun _ bracket => ?_) (fun _ _ => ?_))
    · exact (parseObject_refines (fun _ _ => ih) there (peekByte_some brace (by decide))).mono fun _ _ => onward
    · exact (parseArray_refines (fun _ _ => ih) there (peekByte_some bracket (by decide))).mono fun _ _ => onward
    · refine .ite Iff.rfl (fun _ _ => ?_) (fun _ _ => ?_)
      · refine (parseString_refines there).bind ?_
        rintro ⟨string, ctx₂⟩ ⟨⟨text, span⟩, s₂⟩ ⟨there₂, further₂, live, view, rfl⟩
        refine mono (addNode_refines there₂ rfl ?_) ?_
        · intro ctx' later root fuel _
          have kept : (ctx'.document root).memory.view string.value = text :=
            (later.reader.view string.value live).trans view
          simp only [present, kept]
        · rintro p q ⟨matched, extended, value⟩
          exact onward ⟨matched, further₂.trans extended, value⟩
      · refine (lex_refines there fun _ _ h => let ⟨n, past, _⟩ := Cursor.readScalar_over h; ⟨n, past⟩).bind ?_
        rintro ⟨⟨value, span⟩, ctx₂⟩ ⟨⟨value', span'⟩, s₂⟩ ⟨there₂, further₂, read⟩
        cases read
        refine mono (addNode_refines there₂ rfl fun _ _ _ _ _ => rfl) ?_
        rintro p q ⟨matched, extended, value⟩
        exact onward ⟨matched, further₂.trans extended, value⟩

end ParseContext

/-- Whatever the ownership, a parse ends as the reference parse of the same text ends, unless its
    resources run out. -/
theorem parseState_refines {setup : Setup} {refused : Failure} (memory : Memory) (requests : Nat)
    (out : MemoryFailure refused) (room : setup.ownership = .borrowed →
      memory.source.length ≤ memory.scratch.capacity ∧ memory.scratch.bytes = []) :
    Simulates (Exhausted setup) Same (fun doc tree => doc.tree = tree)
      (parseState setup refused memory requests) (parse setup.toProfile memory.source) := by
  refine .ite Iff.rfl (fun _ _ => .error (makeErrorAt_same _ _ _ _ _ _)) (fun _ _ => ?_)
  refine .ite Iff.rfl (fun _ _ => .error (makeErrorAt_same _ _ _ _ _ _)) (fun _ _ => ?_)
  have start : Matches setup 0 { reader := { memory, requests } } { cursor := { rest := memory.source } } := by
    refine ⟨⟨rfl, rfl, Nat.zero_le _, rfl, fun borrowed => ?_⟩, rfl, rfl, rfl, rfl⟩
    obtain ⟨enough, empty⟩ := room borrowed
    exact ⟨enough, by simp [empty]⟩
  refine (parseValue_refines _ start).bind ?_
  rintro ⟨root, ctx⟩ ⟨tree, s⟩ ⟨there, -, shown⟩
  refine (skipTrivia_refines there).bind ?_
  rintro ⟨_, ctx₁⟩ ⟨_, s₁⟩ ⟨there₁, further, -⟩
  refine .ite (by rw [there₁.follows.cursor]) (fun _ _ => .error (there₁.follows.errorHere_same _ _)) (fun _ _ => ?_)
  · refine bind_left (grow_refines out there₁) ?_
    rintro ctx₂ ⟨-, further₂, -⟩
    split
    · rename_i past
      exact .giveUp ⟨⟨_, .inr past⟩, .inr ⟨rfl, .inr rfl⟩⟩
    · have later : ctx.Extends ctx₂ := further.trans further₂
      exact .ok (shown ctx₂ later root _ later.nodes.length_le)

theorem parseWith_refines (setup : Setup) {message : String} (memory : Memory) (room : setup.ownership = .borrowed →
      memory.source.length ≤ memory.scratch.capacity ∧ memory.scratch.bytes = []) :
    Simulates (Exhausted setup) Same (fun doc tree => doc.tree = tree)
      (parseWith setup message memory) (parse setup.toProfile memory.source) := by
  unfold parseWith
  by_cases granted : setup.resources.grants 0 = true
  · simp only [granted]
    exact parseState_refines memory 1 (.inl rfl) room
  · simp only [granted]
    exact .giveUp ⟨⟨0, .inl (by simpa using granted)⟩, .inl rfl⟩

end NginBase.Json
