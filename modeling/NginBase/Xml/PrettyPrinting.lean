import NginBase.Xml.WrittenTexts

namespace NginBase.Xml

open List Parser Writer Content Grammar

mutual

/-- Nothing that is escaped holds a carriage return, no text is blank and no text follows another. -/
def Content.Stable : Content → Prop
  | .leaf .text _ value => 0x0D ∉ value ∧ isWhitespaceOnly value = false
  | .leaf _ _ _ => True
  | .element _ attributes children =>
    (∀ entry ∈ attributes, 0x0D ∉ entry.2) ∧ children.IsChain (fun first second => ¬ (first.isText = true ∧ second.isText = true)) ∧
      AllStable children

def Content.AllStable : List Content → Prop
  | [] => True
  | child :: rest => child.Stable ∧ AllStable rest

end

theorem Content.stable_of {children : List Content} {child : Content} (all : AllStable children) (mem : child ∈ children) :
    child.Stable := by
  induction children with
  | nil => cases mem
  | cons first rest ih =>
    rcases mem_cons.mp mem with rfl | mem
    · exact all.1
    · exact ih all.2 mem

theorem Content.proper_of {trivia : TriviaPolicy} {children : List Content} {child : Content} (all : AllProper trivia children)
    (mem : child ∈ children) : child.Proper trivia := by
  induction children with
  | nil => cases mem
  | cons first rest ih =>
    rcases mem_cons.mp mem with rfl | mem
    · exact all.1
    · exact ih all.2 mem

section

variable (options : WriteOptions)

theorem indentation_blank (mixed : Bool) (depth : Nat) : indentation options mixed depth = [] ∨
    Text (indentation options mixed depth) ∧ isWhitespaceOnly (indentation options mixed depth) = true := by
  unfold indentation
  split
  · right
    have mem {b : UInt8} (inside : b ∈ 0x0A :: replicate (depth * options.indentWidth) 0x20) : b = 0x0A ∨ b = 0x20 := by
      rcases mem_cons.mp inside with rfl | inside
      · exact .inl rfl
      · exact .inr (eq_of_mem_replicate inside)
    refine ⟨⟨cons_ne_nil _ _, ?_, ?_⟩, ?_⟩
    · intro inside
      rcases mem inside with same | same <;> cases same
    · intro inside
      have bracket : (0x5D : UInt8) ∈ 0x0A :: replicate (depth * options.indentWidth) 0x20 := inside.subset mem_cons_self
      rcases mem bracket with same | same <;> cases same
    · unfold isWhitespaceOnly
      rw [all_eq_true]
      intro b inside
      rcases mem inside with rfl | rfl <;> decide
  · exact .inl rfl

theorem contents_break {mixed : Bool} {depth : Nat} {contents : List Content} {rest : Bytes} (stops : Stops rest)
    (others : Contents .discard contents rest) : Contents .discard contents (indentation options mixed depth ++ rest) := by
  rcases indentation_blank options mixed depth with none | ⟨text, blank⟩
  · rwa [none]
  · exact others.blank text rfl blank stops

theorem xmlText_indentation (mixed : Bool) (depth : Nat) : XmlText (indentation options mixed depth) := by
  unfold indentation
  split
  · apply xmlText_ascii
    intro b inside
    rcases mem_cons.mp inside with rfl | inside
    · decide
    · rw [eq_of_mem_replicate inside]
      decide
  · exact xmlText_nil

theorem xmlText_render {content : Content} (proper : content.Proper .discard) (depth : Nat) : XmlText (render options depth content) := by
  induction content using induct generalizing depth with
  | leaf kind name text =>
    obtain ⟨⟨_, valid⟩, _, _, kept⟩ := proper
    rcases kept with keep | rfl | rfl
    · cases keep
    · exact valid.escaped
    · exact xmlText_cdata valid
  | element name attributes children ih =>
    obtain ⟨⟨_, named⟩, _, listed, all⟩ := proper
    have inside (mixed : Bool) (depth : Nat) : XmlText (renderChildren options depth mixed children) := by
      induction children with
      | nil => exact xmlText_nil
      | cons child rest ih' =>
        have here := ih child mem_cons_self all.1 depth
        have others := ih' (fun child mem => ih child (mem_cons_of_mem _ mem)) all.2
        exact (xmlText_indentation options mixed depth).append (here.append others)
    have tag : XmlText (attributes.map attributeText).flatten :=
      xmlText_attributes fun entry mem => ⟨(listed entry mem).1.2, (listed entry mem).2⟩
    refine (xmlText_ascii (by decide +kernel)).append (named.append (tag.append ?_))
    split
    · exact xmlText_ascii (by decide +kernel)
    · exact (xmlText_ascii (by decide +kernel)).append ((inside _ _).append ((xmlText_indentation options _ _).append
        ((xmlText_ascii (by decide +kernel)).append (named.append (xmlText_ascii (by decide +kernel))))))

theorem render_head {content : Content} (proper : content.Proper .discard) (other : content.isText = false) (depth : Nat) :
    (render options depth content).head? = some 0x3C := by
  cases content with
  | leaf kind name text =>
    rcases proper.2.2.2 with keep | rfl | rfl
    · cases keep
    · cases other
    · rfl
  | element name attributes children =>
    rfl

theorem renderChildren_contents {children : List Content} {mixed : Bool} (depth depth' : Nat)
    (texts : ∀ child ∈ children, (child.isText || child.isCData) = true → mixed = true)
    (chain : children.IsChain fun first second => ¬ (first.isText = true ∧ second.isText = true))
    (proper : AllProper .discard children) (stable : AllStable children)
    (elements : ∀ name attributes inside, .element name attributes inside ∈ children →
      Element .discard (.element name attributes inside) (render options depth (.element name attributes inside))) :
    Contents .discard children (renderChildren options depth mixed children ++ indentation options mixed depth') := by
  induction children with
  | nil =>
    have line : Contents .discard [] (indentation options mixed depth' ++ []) := contents_break options (.inl rfl) .nil
    rwa [append_nil] at line
  | cons child rest ih =>
    have others := ih (fun child mem => texts child (mem_cons_of_mem _ mem)) chain.tail proper.2 stable.2
      fun name attributes inside mem => elements name attributes inside (mem_cons_of_mem _ mem)
    have whole : renderChildren options depth mixed (child :: rest) ++ indentation options mixed depth' =
        indentation options mixed depth ++ (render options depth child ++
          (renderChildren options depth mixed rest ++ indentation options mixed depth')) := by
      rw [renderChildren, append_assoc, append_assoc]
    rw [whole]
    have noBreak (yes : mixed = true) (depth : Nat) : indentation options mixed depth = [] := by
      rw [yes, indentation, if_neg fun both => absurd both.2 (by decide)]
    cases child with
    | element name attributes inside =>
      have element := elements name attributes inside mem_cons_self
      apply contents_break options _ (Contents.cons element others)
      have head := render_head options proper.1 rfl depth
      right
      rfl
    | leaf kind name value =>
      have properHere := proper.1
      obtain ⟨⟨_, valid⟩, closed, unnamed, kept⟩ := properHere
      rcases kept with keep | rfl | rfl
      · cases keep
      · have stableHere := stable.1
        obtain ⟨plain, solid⟩ := stableHere
        have nonempty : value ≠ [] := by
          intro none
          rw [none] at solid
          cases solid
        have yes := texts _ mem_cons_self rfl
        cases unnamed (by simp)
        have stops : Stops (renderChildren options depth mixed rest ++ indentation options mixed depth') := by
          rw [noBreak yes, append_nil]
          cases rest with
          | nil => exact .inl rfl
          | cons next rest =>
            have other : next.isText = false := by
              rw [← Bool.not_eq_true]
              exact fun text => (isChain_cons_cons.mp chain).1 ⟨rfl, text⟩
            have head := render_head options proper.2.1 other depth
            right
            rw [renderChildren, noBreak yes, nil_append, head?_append, head]
            rfl
        rw [noBreak yes, nil_append]
        exact others.text (written_text nonempty) (.inr (written_solid solid)) (written_decoded plain) stops
      · have yes := texts _ mem_cons_self rfl
        cases unnamed (by simp)
        rw [noBreak yes, nil_append, render, cdataText_plain (closed rfl)]
        exact others.cdata (section_cdata (closed rfl))

theorem render_element (content : Content) (proper : content.Proper .discard) (stable : content.Stable) :
    ∀ name attributes children, content = .element name attributes children → ∀ depth,
      Element .discard content (render options depth content) := by
  induction content using induct with
  | leaf kind name text => exact nofun
  | element name attributes children ih =>
    intro _ _ _ _ depth
    obtain ⟨⟨named, _⟩, distinct, listed, all⟩ := proper
    obtain ⟨plain, chain, steady⟩ := stable
    have opening (selfClosing : Bool) := written_opening named (fun entry mem => (listed entry mem).1.1) distinct plain selfClosing
    unfold render elementText
    cases children with
    | nil => exact .empty (opening true)
    | cons child rest =>
      have inside := renderChildren_contents options (depth + 1) depth
        (fun child mem text => any_eq_true.mpr ⟨child, mem, text⟩) chain all steady
        fun name attributes inside mem => ih _ mem (proper_of all mem) (stable_of steady mem) name attributes inside rfl
          (depth + 1)
      have element := Element.closed (opening false) inside (written_endTag named)
      simpa [hasTextChildren] using element

end

mutual

def Content.Within (limit depth : Nat) : Content → Prop
  | .leaf _ _ _ => True
  | .element _ _ children => depth ≤ limit ∧ AllWithin limit (depth + 1) children

def Content.AllWithin (limit depth : Nat) : List Content → Prop
  | [] => True
  | child :: rest => child.Within limit depth ∧ AllWithin limit depth rest

end

theorem writable_iff {content : Content} (proper : content.Proper .discard) (limit depth : Nat) :
    content.Writable limit depth ↔ content.Within limit depth := by
  induction content using induct generalizing depth with
  | leaf kind name text =>
    obtain ⟨⟨_, valid⟩, _, _, kept⟩ := proper
    rcases kept with keep | rfl | rfl
    · cases keep
    · exact iff_true_intro valid.valid
    · exact Iff.rfl
  | element name attributes children ih =>
    obtain ⟨_, _, listed, all⟩ := proper
    have values : ∀ entry ∈ attributes, Unicode.isValidUtf8 entry.2 = true := fun entry mem => (listed entry mem).2.valid
    have inside (depth : Nat) : AllWritable limit depth children ↔ AllWithin limit depth children := by
      induction children with
      | nil => exact Iff.rfl
      | cons child rest ih' =>
        exact and_congr (ih child mem_cons_self all.1 depth) (ih' (fun child mem => ih child (mem_cons_of_mem _ mem)) all.2)
    unfold Writable Within
    rw [inside]
    exact and_congr_right fun _ => and_iff_right values

/-- A document without trivia is written whenever it is within the limits of the writer, and is read back as it was, whatever
the options of the writer: written again it is the same text. -/
theorem pretty_round_trip {setup : Setup} (discard : setup.options.trivia = .discard) {input : Bytes} {doc : Document}
    (parsed : parse setup input = .ok doc) (stable : doc.tree.content.Stable) (options : WriteOptions) :
    let root := doc.tree.content
    (root.Within options.maxDepth 0 → (prolog options ++ render options 0 root).length ≤ options.maxOutputBytes →
      write options root = .ok (prolog options ++ render options 0 root)) ∧
    ∀ text, write options root = .ok text → ∀ setup' : Setup, setup'.options.trivia = .discard →
      (∃ doc', parse setup' text = .ok doc' ∧ doc'.tree.content = root ∧ write options doc'.tree.content = .ok text) ∨
        (∃ e, parse setup' text = .error e ∧ MemoryFailure e ∧ setup'.Scarce) ∨
        ∃ e, parse setup' text = .error e ∧ Exceeds setup'.toProfile text := by
  obtain ⟨valid, before, s, after, rfl, element⟩ := parse_element setup parsed
  rw [discard] at element
  have behind : XmlText (s ++ after) := by
    obtain ⟨first, tail, _, rfl⟩ := Syntax.element_head element
    exact (valid.cut (ascii_head (by decide) _)).2
  have proper := element.proper behind
  generalize doc.tree.content = root at element proper stable
  intro root'
  have rooted : ∃ name attributes children, root = .element name attributes children := by
    cases element with
    | empty _ => exact ⟨_, _, _, rfl⟩
    | closed _ _ _ => exact ⟨_, _, _, rfl⟩
  obtain ⟨name, attributes, children, rfl⟩ := rooted
  constructor
  · intro shallow small
    exact (write_iff options _).mpr ⟨(writable_iff proper _ _).mpr shallow, small, rfl⟩
  · intro text written setup' discard'
    obtain ⟨_, _, rfl⟩ := (write_iff options text).mp written
    have read := render_element options _ proper stable name attributes children rfl 0
    rw [← discard'] at read
    rcases parse_content setup' (prolog_declares options) read ((xmlText_prolog options).append (xmlText_render options proper 0)) with
      ⟨doc', ok, same⟩ | memory | limited
    · exact .inl ⟨doc', ok, same, by rw [same]; exact written⟩
    · exact .inr (.inl memory)
    · exact .inr (.inr limited)

abbrev nested : Content := .element [0x61] [([0x78], [0x31])] [.element [0x62] [] [.leaf .text [] [0x74, 0x3C]], .element [0x63] [] []]

theorem nested_proper : nested.Proper .discard := by
  have letter {b : UInt8} (start : isNameStart b = true) (low : b.toNat < 0x80 ∧ isXmlCharacter b.toNat = true) :
      Name [b] ∧ XmlText [b] :=
    ⟨.mk start nofun, xmlText_ascii fun c mem => mem_singleton.mp mem ▸ low⟩
  have text : XmlText [0x74, 0x3C] := xmlText_ascii (by decide +kernel)
  have digit : XmlText [0x31] := xmlText_ascii (by decide +kernel)
  simp [Proper, AllProper, letter, text, digit, xmlText_nil, isNameStart, isXmlCharacter]

theorem nested_stable : nested.Stable := by
  simp [Stable, AllStable, isText, isWhitespaceOnly, isWhitespace]

theorem pretty_round_trip_nested :
    ∃ doc text doc', parse {} (render {} 0 nested) = .ok doc ∧ write { pretty := true } doc.tree.content = .ok text ∧
      parse {} text = .ok doc' ∧ doc'.tree.content = nested ∧ write { pretty := true } doc'.tree.content = .ok text := by
  have accepted : (parse {} (render {} 0 nested)).isOk = true := by decide +kernel
  have accepted' : (parse {} (render { pretty := true } 0 nested)).isOk = true := by decide +kernel
  have written : write { pretty := true } nested = .ok (render { pretty := true } 0 nested) := by decide +kernel
  have element := render_element {} nested nested_proper nested_stable _ _ _ rfl 0
  rcases parse_content {} (.inl rfl) element (xmlText_render {} nested_proper 0) with ⟨doc, ok, same⟩ | ⟨e, failed, _⟩ | ⟨e, failed, _⟩
  · have stable : doc.tree.content.Stable := same ▸ nested_stable
    have again := (pretty_round_trip rfl ok stable { pretty := true }).2 _ (by rw [same]; exact written) {} rfl
    rcases again with ⟨doc', ok', same', rewritten⟩ | ⟨e, failed, _⟩ | ⟨e, failed, _⟩
    · exact ⟨doc, _, doc', ok, by rw [same]; exact written, ok', same'.trans same, rewritten⟩
    · rw [failed] at accepted'
      cases accepted'
    · rw [failed] at accepted'
      cases accepted'
  · rw [show render {} 0 nested = [] ++ render {} 0 nested from rfl, failed] at accepted
    cases accepted
  · rw [show render {} 0 nested = [] ++ render {} 0 nested from rfl, failed] at accepted
    cases accepted

end NginBase.Xml
