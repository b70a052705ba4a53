import NginBase.Xml.Bounds
import NginBase.Xml.Syntax

namespace NginBase.Xml

open Library Cost Cursor Nat Charged

section

variable {τ : Type}

mutual

def Tree.Nested : Tree τ → Prop
  | .leaf _ _ _ span => span.first < span.last
  | .element _ _ children span => span.first < span.last ∧ Ordered span.last span.first children

/-- Trees one after the other between `first` and `last`. -/
def Ordered (last : Nat) : Nat → List (Tree τ) → Prop
  | first, [] => first ≤ last
  | first, tree :: rest => first ≤ tree.span.first ∧ tree.Nested ∧ Ordered last tree.span.last rest

end

theorem Tree.Nested.positive {tree : Tree τ} (nested : tree.Nested) : tree.span.first < tree.span.last := by
  cases tree with
  | leaf kind name text span =>
    exact nested
  | element name attributes children span =>
    exact nested.1

theorem Ordered.le {first last : Nat} {trees : List (Tree τ)} (ordered : Ordered last first trees) : first ≤ last := by
  induction trees generalizing first with
  | nil => exact ordered
  | cons tree rest ih =>
    have after := ih ordered.2.2
    have positive := ordered.2.1.positive
    have before := ordered.1
    omega

theorem Ordered.append {first middle last : Nat} {trees more : List (Tree τ)} (before : Ordered middle first trees)
    (after : Ordered last middle more) : Ordered last first (trees ++ more) := by
  induction trees generalizing first with
  | nil =>
    have le : first ≤ middle := before
    cases more with
    | nil => exact le.trans after
    | cons tree rest => exact ⟨le.trans after.1, after.2⟩
  | cons tree rest ih => exact ⟨before.1, before.2.1, ih before.2.2⟩

theorem Ordered.singleton {tree : Tree τ} {first last : Nat} (nested : tree.Nested) (before : first ≤ tree.span.first)
    (after : tree.span.last ≤ last) : Ordered last first [tree] := ⟨before, nested, after⟩

end

structure Cost.Covered (cost : Cost) (bytes : Nat) : Prop where
  nodes : cost.nodes ≤ bytes
  elements : cost.elements ≤ bytes
  attributes : cost.attributes ≤ bytes
  children : cost.children ≤ bytes

theorem Cost.covered_zero : (0 : Cost).Covered 0 := ⟨le_refl _, le_refl _, le_refl _, le_refl _⟩

theorem Cost.Covered.add {a b : Cost} {m n : Nat} (first : a.Covered m) (second : b.Covered n) :
    (a + b).Covered (m + n) where
  nodes := Nat.add_le_add first.nodes second.nodes
  elements := Nat.add_le_add first.elements second.elements
  attributes := Nat.add_le_add first.attributes second.attributes
  children := Nat.add_le_add first.children second.children

theorem Cost.Covered.mono {a : Cost} {m n : Nat} (covered : a.Covered m) (more : m ≤ n) : a.Covered n where
  nodes := covered.nodes.trans more
  elements := covered.elements.trans more
  attributes := covered.attributes.trans more
  children := covered.children.trans more

namespace Cursor

variable {profile : Profile} {c : Cursor}

theorem parseName_fueled (h : c.parseName profile = .error .fuel) : False := by
  unfold parseName at h
  split at h <;> cases h

theorem scanComment_fueled (h : c.scanComment profile = .error .fuel) : False := by
  unfold scanComment at h
  dsimp only at h
  split at h
  · cases h
  · split at h <;> cases h

theorem scanInstruction_fueled {declaration : Bool} (h : c.scanInstruction profile declaration = .error .fuel) : False := by
  unfold scanInstruction at h
  split at h
  · rename_i e named
    cases h
    exact parseName_fueled named
  · split at h
    · cases h
    · split at h
      · cases h
      · dsimp only at h
        split at h <;> cases h

theorem scanDoctype_fueled (h : c.scanDoctype profile = .error .fuel) : False := by
  unfold scanDoctype at h
  split at h
  · cases h
  split at h
  · cases h
  dsimp only at h
  split at h <;> cases h

theorem scanCData_fueled (h : c.scanCData profile = .error .fuel) : False := by
  unfold scanCData at h
  dsimp only at h
  split at h <;> cases h

theorem scanText_fueled (h : c.scanText profile = .error .fuel) : False := by
  unfold scanText characterData at h
  dsimp only at h
  split at h <;> cases h

theorem scanValue_fueled {quote : UInt8} (h : c.scanValue profile quote = .error .fuel) : False := by
  unfold scanValue at h
  split at h
  · cases h
  · cases h
  · cases h
  · split at h <;> cases h

theorem scanQuote_fueled (h : c.scanQuote profile = .error .fuel) : False := by
  unfold scanQuote at h
  dsimp only at h
  split at h
  · cases h
  · split at h <;> cases h

theorem scanEndTag_fueled (h : c.scanEndTag profile = .error .fuel) : False := by
  unfold scanEndTag at h
  split at h
  · rename_i e named
    cases h
    exact parseName_fueled named
  · dsimp only at h
    split at h <;> cases h

end Cursor

namespace Syntax

variable {profile : Profile} {c : Cursor}

/-- The run does not run out of fuel, and `post` holds of its value and its cost. -/
abbrev Ends {α : Type} (post : α → Cost → Prop) (x : Run α) : Prop := x.Ensures (· ≠ .fuel) post

/-- From the cursor `c` the run has moved over some bytes, at no more than their cost. -/
def Moved (c : Cursor) {α : Type} (least : Nat) (value : α → Cursor → Prop) (p : α × Cursor) (k : Cost) : Prop :=
  ∃ n, least ≤ n ∧ c.Over p.2 n ∧ k.Covered n ∧ value p.1 p.2

theorem lex_ends {α β : Type} {read : Cursor → Except Failure (α × Cursor)} {f : α × Cursor → Run β}
    {post : β → Cost → Prop} (fueled : read c = .error .fuel → False)
    (next : ∀ a c', read c = .ok (a, c') → Ends post (f (a, c'))) : Ends post (lex c read >>= f) := by
  have first : Ends (fun p k => read c = .ok p ∧ k = 0) (lex c read) := by
    apply Ensures.lift
    · intro e failed same
      exact fueled (same ▸ failed)
    · intro p ok
      exact ⟨ok, rfl⟩
  apply first.bind
  intro p k ⟨ok, free⟩
  obtain ⟨a, c'⟩ := p
  simpa [free] using next a c' ok

theorem charge_ends (k : Cost) (code : ParseErrorCode) (message : String) (first last : Nat) :
    Ends (fun _ k' => k' = k) (charge k (errorAt profile code message first last)) := .charge nofun rfl

theorem addNode_ends (tree : TextTree) : Ends (fun node k => node = tree ∧ k = { nodes := 1 }) (addNode profile tree) := by
  apply (charge_ends _ _ _ _ _).bind
  intro _ k rfl
  exact .pure ⟨rfl, rfl⟩

theorem addChild_ends (tree : TextTree) :
    Ends (fun p k => p = ([tree], c) ∧ k = { children := 1 }) (addChild profile c tree) := by
  apply (charge_ends _ _ _ _ _).bind
  intro _ k rfl
  exact .pure ⟨rfl, rfl⟩

theorem decode_ends (raw : Slice) : Ends (fun _ k => k.Covered 0) (decode profile raw) := by
  unfold decode
  split
  · exact .pure covered_zero
  split
  · exact .fail nofun
  · apply (charge_ends _ _ _ _ _).bind
    intro _ k rfl
    exact .pure ⟨le_refl _, le_refl _, le_refl _, le_refl _⟩

abbrev Item (c : Cursor) : List TextTree × Cursor → Cost → Prop :=
  Moved c 1 fun trees c' => Ordered c'.offset c.offset trees

section

variable {c' : Cursor} {n : Nat} (positive : 0 < n) (over' : c.Over c' n)

include positive over'

theorem leaf_ends (kind : LeafKind) (name text : Bytes) {k₀ : Cost} (paid : k₀.Covered 0) :
    Ends (fun p k => Item c p (k₀ + k)) (do
      let node ← addNode profile (.leaf kind name text ⟨c.offset, c'.offset⟩)
      addChild profile c' node) := by
  apply (addNode_ends _).bind
  intro node k₁ ⟨same, cost⟩
  subst same cost
  apply (addChild_ends _).mono
  intro p k₂ ⟨same, cost⟩
  subst same cost
  have offset := over'.offset
  have one : (({ nodes := 1 } : Cost) + { children := 1 }).Covered 1 :=
    ⟨le_refl _, zero_le _, zero_le _, le_refl _⟩
  refine ⟨n, positive, over', (paid.add one).mono (by omega), ?_⟩
  · apply Ordered.singleton
    · unfold Tree.Nested
      dsimp only
      omega
    · exact le_refl _
    · exact le_refl _

theorem nothing_ends {k : Cost} (free : k.Covered 0) : Item c ([], c') k := by
  have offset := over'.offset
  refine ⟨n, positive, over', free.mono (zero_le _), ?_⟩
  show c.offset ≤ c'.offset
  omega

end

theorem parseComment_ends : Ends (Item c) (parseComment profile c) := by
  apply lex_ends scanComment_fueled
  intro text c' result
  obtain ⟨n, positive, over', _⟩ := scanComment_over result
  dsimp only
  split
  · simpa using leaf_ends positive over' .comment [] text.bytes covered_zero
  · exact .pure (nothing_ends positive over' covered_zero)

theorem parseInstruction_ends : Ends (Item c) (parseInstruction profile c) := by
  apply lex_ends scanInstruction_fueled
  intro both c' result
  obtain ⟨target, body⟩ := both
  obtain ⟨n, positive, over', _⟩ := scanInstruction_over result
  dsimp only
  split
  · simpa using leaf_ends positive over' .processingInstruction target.bytes body.bytes covered_zero
  · exact .pure (nothing_ends positive over' covered_zero)

theorem parseCData_ends : Ends (Item c) (parseCData profile c) := by
  apply lex_ends scanCData_fueled
  intro text c' result
  obtain ⟨n, positive, over', _⟩ := scanCData_over result
  simpa using leaf_ends positive over' .cdata [] text.bytes covered_zero

theorem parseText_ends (present : c.rest ≠ []) (data : c.peek ≠ 0x3C) : Ends (Item c) (parseText profile c) := by
  apply lex_ends scanText_fueled
  intro raw c' result
  obtain ⟨n, positive, over', _⟩ := scanText_over present data result
  dsimp only
  split
  · exact .pure (nothing_ends positive over' covered_zero)
  · apply (decode_ends raw).bind
    intro text k free
    exact leaf_ends positive over' .text [] text free

theorem parseAttribute_ends (attributes : List TextAttribute) :
    Ends (Moved c 1 fun _ _ => True) (parseAttribute profile attributes c) := by
  apply lex_ends parseName_fueled
  intro name named result
  obtain ⟨n, positive, over', _⟩ := parseName_over result
  dsimp only
  split
  · exact .fail nofun
  apply lex_ends scanQuote_fueled
  intro quote quoted result
  obtain ⟨m, _, quoting⟩ := scanQuote_over result
  apply lex_ends scanValue_fueled
  intro raw closed result
  obtain ⟨l, closing, _⟩ := scanValue_over result
  apply (decode_ends raw).bind
  intro value k free
  apply (charge_ends _ _ _ _ _).bind
  intro _ k' same
  subst same
  apply Ensures.pure
  have one : ({ attributes := 1 } : Cost).Covered 1 :=
    ⟨zero_le _, zero_le _, le_refl _, zero_le _⟩
  have whole := over'.trans (quoting.trans (closing.trans (closed.advance_over 1)))
  have cost := free.add (one.add covered_zero)
  exact ⟨_, by omega, whole, cost.mono (by omega), trivial⟩

theorem attributeLoop_ends (start fuel : Nat) (attributes : List TextAttribute) (enough : c.rest.length < fuel) :
    Ends (Moved c 0 fun _ _ => True) (attributeLoop profile start fuel attributes c) := by
  induction fuel generalizing c attributes with
  | zero => omega
  | succ fuel ih =>
    obtain ⟨blank, skipped⟩ := c.skipWhitespace_over
    unfold attributeLoop
    dsimp only
    split
    · exact .pure ⟨_, zero_le _, skipped.trans (c.skipWhitespace.advance_over 2), covered_zero.mono (zero_le _),
        trivial⟩
    split
    · exact .pure ⟨_, zero_le _, skipped.trans (c.skipWhitespace.advance_over 1),
        covered_zero.mono (zero_le _), trivial⟩
    split
    · exact .fail nofun
    split
    · exact .fail nofun
    apply (parseAttribute_ends attributes).bind
    intro p k ⟨n, positive, over', cost, _⟩
    obtain ⟨entry, after⟩ := p
    have moved := skipped.trans over'
    have shorter : after.rest.length < fuel := by
      have inside := moved.inside
      rw [moved.rest, List.length_drop]
      omega
    apply (ih (attributes ++ [entry]) shorter).mono
    intro q k' ⟨m, _, over'', cost', _⟩
    exact ⟨_, zero_le _, moved.trans over'', (cost.add cost').mono (by omega), trivial⟩

def ElementEnd (c : Cursor) (p : TextTree × Cursor) (k : Cost) : Prop :=
  ∃ n, 0 < n ∧ c.Over p.2 n ∧ k.Covered n ∧ k.children < n ∧ p.1.span = ⟨c.offset, p.2.offset⟩ ∧ p.1.Nested

section

variable {parse : Cursor → Run (TextTree × Cursor)} {bound : Nat}
  (ends : ∀ c : Cursor, c.rest.length ≤ bound → Ends (ElementEnd c) (parse c))

include ends

theorem parseItem_ends (present : c.rest ≠ []) (small : c.rest.length ≤ bound) :
    Ends (Item c) (parseItem profile parse c) := by
  unfold parseItem
  split
  · exact parseComment_ends
  split
  · exact parseCData_ends
  split
  · exact parseInstruction_ends
  split
  · exact .fail nofun
  split
  · apply (ends c small).bind
    intro p k ⟨n, positive, over', cost, fewer, span, nested⟩
    obtain ⟨child, after⟩ := p
    apply (addChild_ends child).mono
    intro q k' ⟨same, charged⟩
    subst same charged
    refine ⟨n, positive, over', ⟨?_, ?_, ?_, ?_⟩, ?_⟩
    · exact cost.nodes
    · exact cost.elements
    · exact cost.attributes
    · exact fewer
    · apply Ordered.singleton nested
      · rw [span]
      · rw [span]
  · rename_i data
    exact parseText_ends present data

theorem contentLoop_ends (start fuel first : Nat) (name : Bytes) {trees : List TextTree} (enough : c.rest.length < fuel)
    (small : c.rest.length ≤ bound) (ordered : Ordered c.offset first trees) :
    Ends (Moved c 0 fun trees c' => Ordered c'.offset first trees)
      (contentLoop profile parse start name fuel trees c) := by
  induction fuel generalizing c trees with
  | zero => omega
  | succ fuel ih =>
    unfold contentLoop
    split
    · exact .fail nofun
    rename_i present
    split
    · apply lex_ends scanEndTag_fueled
      intro closeName after result
      obtain ⟨n, _, over', _⟩ := scanEndTag_over result
      dsimp only
      split
      · exact .fail nofun
      apply Ensures.pure
      refine ⟨n, zero_le _, over', covered_zero.mono (zero_le _), ?_⟩
      have last : Ordered after.offset c.offset ([] : List TextTree) := by
        rw [over'.offset]
        exact le_add_right _ _
      simpa using ordered.append last
    · apply (parseItem_ends ends present small).bind
      intro p k ⟨n, positive, over', cost, more⟩
      obtain ⟨added, after⟩ := p
      have shorter : after.rest.length < c.rest.length := by
        have inside := over'.inside
        rw [over'.rest, List.length_drop]
        omega
      apply (ih (by dsimp only; omega) (by dsimp only; omega) (ordered.append more)).mono
      intro q k' ⟨m, _, over'', cost', all⟩
      exact ⟨_, zero_le _, over'.trans over'', cost.add cost', all⟩

theorem parseContent_ends (start first : Nat) (name : Bytes) (selfClosing : Bool) (small : c.rest.length ≤ bound)
    (before : first ≤ c.offset) :
    Ends (Moved c 0 fun trees c' => Ordered c'.offset first trees)
      (parseContent profile parse start name selfClosing c) := by
  unfold parseContent
  split
  · exact .pure ⟨0, le_refl _, .refl c, covered_zero, before⟩
  · exact contentLoop_ends ends start _ first name (lt_succ_self _) small before

end

theorem parseElement_ends (fuel depth : Nat) (enough : c.rest.length < fuel) :
    Ends (ElementEnd c) (parseElement profile fuel depth c) := by
  induction fuel generalizing c depth with
  | zero => omega
  | succ fuel ih =>
    have opening := c.advance_over 1
    apply (charge_ends _ _ _ _ _).bind
    intro _ k₀ same
    subst same
    apply lex_ends parseName_fueled
    intro name named result
    obtain ⟨n, positive, over', _⟩ := parseName_over result
    have shorter : named.rest.length < c.rest.length := by
      have inside := (opening.trans over').inside
      rw [(opening.trans over').rest, List.length_drop]
      omega
    apply (attributeLoop_ends c.offset _ [] (lt_succ_self _)).bind
    intro p k₁ ⟨m, _, tagging, cost₁, _⟩
    obtain ⟨⟨attributes, selfClosing⟩, tagged⟩ := p
    apply (charge_ends _ _ _ _ _).bind
    intro _ k₂ same
    subst same
    have whole := opening.trans (over'.trans tagging)
    have small : tagged.rest.length ≤ named.rest.length := by
      rw [tagging.rest, List.length_drop]
      omega
    have before : c.offset ≤ tagged.offset := by
      rw [whole.offset]
      exact le_add_right _ _
    apply (parseContent_ends (fun c small => ih (depth + 1) (by omega)) c.offset c.offset name.bytes selfClosing small
      before).bind
    intro p k₃ ⟨l, _, content, cost₃, ordered⟩
    obtain ⟨children, after⟩ := p
    dsimp only at content ordered ⊢
    apply (addNode_ends _).bind
    intro node k₄ ⟨same, charged⟩
    subst same charged
    apply Ensures.pure
    have total := whole.trans content
    have offset := total.offset
    obtain ⟨nodes₁, elements₁, attributes₁, children₁⟩ := cost₁
    obtain ⟨nodes₃, elements₃, attributes₃, children₃⟩ := cost₃
    refine ⟨_, ?_, total, ⟨?_, ?_, ?_, ?_⟩, ?_, rfl, ?_⟩
    · omega
    · simp only [add_nodes, zero_nodes]
      omega
    · simp only [add_elements, zero_elements]
      omega
    · simp only [add_attributes, zero_attributes]
      omega
    · simp only [add_children, zero_children]
      omega
    · simp only [add_children, zero_children]
      omega
    · exact ⟨show c.offset < after.offset by omega, ordered⟩

def Outside (c : Cursor) (p : Unit × Cursor) (k : Cost) : Prop := k = 0 ∧ ∃ n, c.Over p.2 n

theorem miscLoop_ends (prolog : Bool) (fuel : Nat) (sawDoctype : Bool) (enough : c.rest.length < fuel) :
    Ends (Outside c) (miscLoop profile prolog fuel sawDoctype c) := by
  induction fuel generalizing c sawDoctype with
  | zero => omega
  | succ fuel ih =>
    obtain ⟨blank, skipped⟩ := c.skipWhitespace_over
    have onward {c' : Cursor} {n : Nat} (positive : 0 < n) (over' : c.skipWhitespace.Over c' n) (saw : Bool) :
        Ends (Outside c) (miscLoop profile prolog fuel saw c') := by
      have moved := skipped.trans over'
      have inside := moved.inside
      apply (ih saw (by rw [moved.rest, List.length_drop]; omega)).mono
      intro p k ⟨free, m, further⟩
      exact ⟨free, _, moved.trans further⟩
    unfold miscLoop
    dsimp only
    split
    · apply lex_ends scanComment_fueled
      intro text c' result
      obtain ⟨n, positive, over', _⟩ := scanComment_over result
      exact onward positive over' sawDoctype
    · split
      · apply lex_ends scanInstruction_fueled
        intro both c' result
        obtain ⟨n, positive, over', _⟩ := scanInstruction_over result
        exact onward positive over' sawDoctype
      · split
        · split
          · exact .fail nofun
          · apply lex_ends scanDoctype_fueled
            intro _ c' result
            obtain ⟨n, positive, over'⟩ := scanDoctype_over result
            exact onward positive over' true
        · exact .pure ⟨rfl, blank, skipped⟩

theorem parseDeclaration_ends : Ends (Outside c) (parseDeclaration profile c) := by
  have marked : ∃ n, c.Over (if c.startsWith [0xEF, 0xBB, 0xBF] = true then c.advance 3 else c) n := by
    split
    · exact ⟨_, c.advance_over 3⟩
    · exact ⟨0, .refl c⟩
  obtain ⟨n, moved⟩ := marked
  unfold parseDeclaration
  dsimp only
  generalize (if c.startsWith [0xEF, 0xBB, 0xBF] = true then c.advance 3 else c) = c₁ at moved ⊢
  split
  · apply lex_ends scanInstruction_fueled
    intro both c' result
    obtain ⟨m, _, over', _⟩ := scanInstruction_over result
    exact .pure ⟨rfl, _, moved.trans over'⟩
  · exact .pure ⟨rfl, _, moved⟩

theorem parseDocument_ends :
    Ends (fun p k => k.Covered c.rest.length ∧ p.1.Nested) (parseDocument profile c) := by
  apply parseDeclaration_ends.bind
  intro p k ⟨free, n, declared⟩
  subst free
  apply (miscLoop_ends true _ false (lt_succ_self _)).bind
  intro p k ⟨free, m, prolog⟩
  subst free
  dsimp only at prolog ⊢
  split
  · exact .fail nofun
  apply (parseElement_ends _ 0 (lt_succ_self _)).bind
  intro p k ⟨l, _, element, cost, _, _, nested⟩
  obtain ⟨root, c₃⟩ := p
  apply (miscLoop_ends false _ false (lt_succ_self _)).bind
  intro p k' ⟨free, _, _⟩
  subst free
  split
  · exact .fail nofun
  apply Ensures.pure
  have inside := (declared.trans (prolog.trans element)).inside
  simp only [zero_add, add_zero]
  exact ⟨cost.mono (by omega), nested⟩

theorem parse_ends (input : Bytes) :
    Ends (fun tree k => k.Covered input.length ∧ tree.Nested ∧ input.length < decodedBit) (parse profile input) := by
  unfold parse
  split
  · exact .fail nofun
  split
  · exact .fail nofun
  rename_i short
  split
  · exact .fail nofun
  apply parseDocument_ends.bind
  intro p k ⟨cost, nested⟩
  apply Ensures.pure
  rw [add_zero]
  exact ⟨cost, nested, not_le.mp short⟩

end Syntax

end NginBase.Xml
