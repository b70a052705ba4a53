import NginBase.Xml.Characters
import NginBase.Xml.GrammarLexing

namespace NginBase.Xml

open Library Charged Cursor List Grammar Tree TriviaPolicy

namespace Syntax

variable (profile : Profile) {c c' : Cursor} {s after : Bytes}

def tagEnd (selfClosing : Bool) : Bytes := if selfClosing then [0x2F, 0x3E] else [0x3E]

def nameValue (entry : TextAttribute) : Bytes × Bytes := (entry.name, entry.value)

section

theorem decode_reads {raw : Slice} {text : Bytes} (decoded : Decoded raw.bytes text) : (decode profile raw).result = .ok text := by
  unfold Decoded at decoded
  unfold decode
  by_cases plain : needsDecode raw.bytes = false
  · rw [if_pos plain] at decoded ⊢
    rw [Except.ok.inj decoded]
    rfl
  · rw [if_neg plain] at decoded ⊢
    rw [decoded]
    rfl

theorem parseAttribute_reads {attributes : List TextAttribute} {name w w' raw value : Bytes} {quote : UInt8}
    (named : Name name) (fresh : name ∉ attributes.map Tree.Attribute.name) (ws : Ws w) (ws' : Ws w')
    (quotes : quote = 0x27 ∨ quote = 0x22) (unquoted : quote ∉ raw) (noTag : 0x3C ∉ raw) (decoded : Decoded raw value)
    (split : c.rest = (name ++ (w ++ 0x3D :: (w' ++ quote :: (raw ++ [quote])))) ++ after) :
    ∃ entry c', (parseAttribute profile attributes c).result = .ok (entry, c') ∧ nameValue entry = (name, value) ∧
      c.Past (name ++ (w ++ 0x3D :: (w' ++ quote :: (raw ++ [quote])))) c' := by
  have split : c.rest = name ++ (w ++ 0x3D :: (w' ++ quote :: (raw ++ quote :: after))) := by
    rw [split]
    simp
  have apart : Apart isNameContinue (w ++ 0x3D :: (w' ++ quote :: (raw ++ quote :: after))) :=
    apart_ws (fun d => whitespace_not_name) ws (apart_cons (by decide))
  obtain ⟨c₁, readName, past₁⟩ := parseName_reads profile named apart split
  have split₁ := past₁.rest_eq split
  obtain ⟨c₂, readQuote, past₂⟩ := scanQuote_reads profile ws ws' quotes split₁
  have split₂ : c₂.rest = raw ++ quote :: after := past₂.rest_eq (by rw [split₁]; simp)
  obtain ⟨c₃, readValue, past₃⟩ := scanValue_reads profile unquoted noTag split₂
  have split₃ : c₃.rest = [quote] ++ after := past₃.rest_eq split₂
  have closed := past_advance split₃
  have absent : attributes.find? (fun earlier => earlier.name = name) = none := by
    rw [find?_eq_none]
    intro earlier mem same
    exact fresh (mem_map.mpr ⟨earlier, mem, of_decide_eq_true same⟩)
  have past := past₁.trans (past₂.trans (past₃.trans closed.1))
  refine ⟨⟨name, value, ⟨c.offset, (c₃.advance 1).offset⟩, ⟨c₂.offset, c₂.offset + raw.length⟩⟩, c₃.advance 1, ?_, rfl, ?_⟩
  · unfold parseAttribute lex
    rw [result_lift readName]
    dsimp only
    rw [absent]
    rw [result_lift readQuote]
    rw [result_lift readValue]
    rw [result_bind (decode_reads profile decoded)]
    rfl
  · simpa using past

variable {attributes : List (Bytes × Bytes)}

theorem attributeLoop_reads {raw : List (Bytes × Bytes)} {inside : Bytes} (written : Attributes raw inside)
    (values : List.Forall₂ (fun written entry => written.1 = entry.1 ∧ Decoded written.2 entry.2) raw attributes)
    (selfClosing : Bool) (start : Nat) (earlier : List TextAttribute) {fuel : Nat}
    (distinct : (earlier.map Tree.Attribute.name ++ raw.map Prod.fst).Nodup) (enough : c.rest.length < fuel)
    (split : c.rest = (inside ++ tagEnd selfClosing) ++ after) :
    ∃ more c', (attributeLoop profile start fuel earlier c).result = .ok ((earlier ++ more, selfClosing), c') ∧
      more.map nameValue = attributes ∧ c.Past (inside ++ tagEnd selfClosing) c' := by
  induction written generalizing c attributes earlier fuel with
  | @none w ws =>
    cases values
    obtain ⟨fuel, rfl⟩ : ∃ n, fuel = n + 1 := ⟨fuel - 1, by omega⟩
    rw [append_assoc] at split
    have solid : Apart isWhitespace (tagEnd selfClosing ++ after) := by
      cases selfClosing
      · exact apart_cons (by decide)
      · exact apart_cons (by decide)
    have skipped := skipWhitespace_reads ws solid split
    have split' := skipped.rest_eq split
    have closed := (past_advance split').1
    refine ⟨[], _, ?_, rfl, skipped.trans closed⟩
    rw [append_nil]
    unfold attributeLoop
    cases selfClosing with
    | true =>
      rw [if_pos (starts_here (s := [0x2F, 0x3E]) split')]
      rfl
    | false =>
      rw [if_neg (starts_other split' (by decide)), if_pos (peek_here split')]
      rfl
  | @more w name w₁ w₂ value rest quote raw ws separated named ws₁ ws₂ quotes unquoted noTag others ih =>
    cases values with
    | @cons _ entry _ attributes read values =>
      obtain ⟨same, decoded⟩ := read
      obtain ⟨fuel, rfl⟩ : ∃ n, fuel = n + 1 := ⟨fuel - 1, by omega⟩
      have solid : Apart isWhitespace (name ++ (w₁ ++ 0x3D :: (w₂ ++ quote :: (value ++ quote :: rest))) ++ (tagEnd selfClosing ++ after)) := by
        cases named with
        | mk first _ => exact apart_cons (nameStart_solid first)
      rw [append_assoc, append_assoc] at split
      have skipped := skipWhitespace_reads ws (by simpa using solid) split
      have split' := skipped.rest_eq split
      have fresh : name ∉ earlier.map Tree.Attribute.name := by
        intro mem
        exact (nodup_append.mp distinct).2.2 name mem name mem_cons_self rfl
      have here : c.skipWhitespace.rest =
          (name ++ (w₁ ++ 0x3D :: (w₂ ++ quote :: (value ++ [quote])))) ++ (rest ++ tagEnd selfClosing ++ after) := by
        rw [split']
        simp
      obtain ⟨added, c₁, parsed, stands, past⟩ :=
        parseAttribute_reads profile named fresh ws₁ ws₂ quotes unquoted noTag decoded here
      have split₁ := past.rest_eq here
      have nonempty : 0 < w.length := length_pos_iff.mpr separated
      have shorter : c₁.rest.length < c.rest.length := by
        rw [split₁, split]
        simp only [length_append, length_cons]
        omega
      have distinct' : ((earlier ++ [added]).map Tree.Attribute.name ++ raw.map Prod.fst).Nodup := by
        rw [map_append, map_singleton, show added.name = name from congrArg Prod.fst stands, append_assoc]
        exact distinct
      have enough' : c₁.rest.length < fuel := by omega
      obtain ⟨more, c₂, looped, others, past'⟩ := ih values _ distinct' enough' split₁
      refine ⟨added :: more, c₂, ?_, ?_, ?_⟩
      · obtain ⟨first, tail, starts, head⟩ : ∃ first tail, isNameStart first = true ∧ c.skipWhitespace.rest = first :: tail := by
          cases named with
          | mk start _ => exact ⟨_, _, start, here⟩
        have other {b : UInt8} (no : isNameStart b = false) : b ≠ first := by
          intro same
          rw [same, starts] at no
          cases no
        have moved : c.skipWhitespace.offset ≠ c.offset := by
          rw [skipped.offset]
          omega
        unfold attributeLoop
        rw [if_neg (starts_other head (other (by decide))), peek_here head, if_neg (other (by decide)).symm,
          if_neg moved, if_neg (by rw [head]; exact cons_ne_nil _ _), result_bind parsed]
        rw [looped, append_assoc, singleton_append]
      · rw [map_cons, stands, others]
        cases same
        rfl
      · simpa using skipped.trans (past.trans past')

theorem parseElement_reads {name tag : Bytes} {selfClosing : Bool}
    (opening : Opening name attributes selfClosing tag) (split : c.rest = tag ++ after) :
    ∃ entries c₁, c.Past tag c₁ ∧ entries.map nameValue = attributes ∧
      ∀ limit depth children c₂,
        (parseContent profile (parseElement profile limit (depth + 1)) c.offset name selfClosing c₁).result = .ok (children, c₂) →
        (parseElement profile (limit + 1) depth c).result = .ok (.element name entries children ⟨c.offset, c₂.offset⟩, c₂) := by
  obtain ⟨raw, ⟨inside, named, written, rfl⟩, distinct, values⟩ := opening
  have split' : c.rest = [0x3C] ++ (name ++ (inside ++ tagEnd selfClosing ++ after)) := by
    rw [split]
    simp [tagEnd]
  have opened := past_advance split'
  have apart : Apart isNameContinue (inside ++ tagEnd selfClosing ++ after) := by
    have ends : Apart isNameContinue (tagEnd selfClosing ++ after) := by
      cases selfClosing
      · exact apart_cons (by decide)
      · exact apart_cons (by decide)
    rw [append_assoc]
    cases written with
    | none ws => exact apart_ws (fun d => whitespace_not_name) ws ends
    | @more w _ _ _ _ _ _ _ ws separated =>
      cases w with
      | nil => exact absurd rfl separated
      | cons d w => exact apart_cons (whitespace_not_name (ws d mem_cons_self))
  obtain ⟨c₁, readName, past⟩ := parseName_reads profile named apart opened.2
  obtain ⟨entries, c₂, looped, stand, past'⟩ :=
    attributeLoop_reads profile written values selfClosing c.offset [] (by simpa using distinct)
      (Nat.lt_succ_self _) (past.rest_eq opened.2)
  refine ⟨entries, c₂, ?_, stand, ?_⟩
  · have whole := opened.1.trans (past.trans past')
    simpa [tagEnd] using whole
  · intro limit depth children c₃ parsed
    unfold parseElement
    rw [result_charge]
    unfold lex
    rw [result_lift (show (c.advance 1).parseName profile = _ from readName)]
    rw [result_bind looped]
    rw [result_charge, result_bind parsed]
    rfl

/-- A run from the cursor `c` reads `s` as trees that say `contents`. -/
def Reads (c : Cursor) (s : Bytes) (contents : List Content) (run : Run (List TextTree × Cursor)) : Prop :=
  ∃ trees c', run.result = .ok (trees, c') ∧ Tree.contents trees = contents ∧ c.Past s c'

theorem leaf_reads (past : c.Past s c') (tree : TextTree) : Reads c s [tree.content] (do
    let node ← addNode profile tree
    addChild profile c' node) := ⟨[tree], c', rfl, rfl, past⟩

theorem opening_head {name tag : Bytes} {selfClosing : Bool}
    (opening : Opening name attributes selfClosing tag) :
    ∃ first tail, isNameStart first = true ∧ tag = 0x3C :: first :: tail := by
  obtain ⟨_, ⟨_, named, _, rfl⟩, _⟩ := opening
  cases named with
  | mk start _ => exact ⟨_, _, start, rfl⟩

theorem content_element {name : Bytes} {entries : List TextAttribute} {children : List TextTree}
    {contents : List Content} (stand : entries.map nameValue = attributes)
    (inside : Tree.contents children = contents) (span : CompactSpan) :
    content (.element name entries children span) = .element name attributes contents := by
  rw [content, inside, ← stand]
  rfl

section

variable (parse : Cursor → Run (TextTree × Cursor))

theorem parseItem_comment {value : Bytes} (comment : Comment value s) (split : c.rest = s ++ after) :
    Reads c s (profile.options.trivia.keeps (.leaf .comment [] value)) (parseItem profile parse c) := by
  obtain ⟨slice, c', scanned, rfl, past⟩ := scanComment_reads profile comment split
  obtain ⟨_, _, rfl⟩ := comment
  rw [append_assoc] at split
  unfold parseItem parseComment lex
  rw [if_pos (starts_here split), scanned]
  by_cases keep : profile.options.trivia = .preserve
  · rw [keeps]
    simp only [if_pos keep]
    exact leaf_reads profile past _
  · rw [keeps]
    simp only [if_neg keep]
    exact ⟨[], c', rfl, rfl, past⟩

theorem parseItem_cdata {value : Bytes} (quoted : CData value s) (split : c.rest = s ++ after) :
    Reads c s [.leaf .cdata [] value] (parseItem profile parse c) := by
  obtain ⟨slice, c', scanned, rfl, past⟩ := scanCData_reads profile quoted split
  obtain ⟨_, rfl⟩ := quoted
  rw [append_assoc] at split
  have second : ¬ c.startsWith [0x3C, 0x21, 0x2D, 0x2D] = true := by
    rw [startsWith_iff, split]
    exact fun first => absurd first (by simp)
  unfold parseItem parseCData lex
  rw [if_neg second, if_pos (starts_here split), scanned]
  exact leaf_reads profile past _

theorem parseItem_instruction {target body : Bytes} (instruction : Instruction target body s)
    (ends : Apart isNameContinue (body ++ [0x3F, 0x3E])) (proper : reservedXml target = false) (split : c.rest = s ++ after) :
    Reads c s (profile.options.trivia.keeps (.leaf .processingInstruction target body)) (parseItem profile parse c) := by
  obtain ⟨name, slice, c', scanned, rfl, rfl, past⟩ :=
    scanInstruction_reads profile false instruction ends proper split
  obtain ⟨_, _, rfl⟩ := instruction
  rw [append_assoc] at split
  unfold parseItem parseInstruction lex
  rw [if_neg (starts_second split (by decide)), if_neg (starts_second split (by decide)),
    if_pos (starts_here split), scanned]
  by_cases keep : profile.options.trivia = .preserve
  · rw [keeps]
    simp only [if_pos keep]
    exact leaf_reads profile past _
  · rw [keeps]
    simp only [if_neg keep]
    exact ⟨[], c', rfl, rfl, past⟩

theorem parseItem_data {raw : Bytes} (text : Text raw) (split : c.rest = raw ++ after) :
    parseItem profile parse c = parseText profile c := by
  obtain ⟨nonempty, noTag, _⟩ := text
  cases raw with
  | nil => exact absurd rfl nonempty
  | cons b raw =>
    have other : (0x3C : UInt8) ≠ b := fun same => noTag (same ▸ mem_cons_self)
    unfold parseItem
    rw [if_neg (starts_other split other), if_neg (starts_other split other), if_neg (starts_other split other),
      if_neg (starts_other split other), peek_here split, if_neg other.symm]

theorem parseItem_text {raw value : Bytes} (text : Text raw)
    (kept : profile.options.trivia = .preserve ∨ isWhitespaceOnly raw = false) (decoded : Decoded raw value)
    (stops : Stops after) (split : c.rest = raw ++ after) :
    Reads c raw [.leaf .text [] value] (parseItem profile parse c) := by
  obtain ⟨c', scanned, past⟩ := scanText_reads profile text stops split
  have keeps : ¬ (profile.options.trivia = .discard ∧ isWhitespaceOnly raw = true) := by
    rintro ⟨discard, blank⟩
    rcases kept with preserve | solid
    · rw [preserve] at discard
      cases discard
    · rw [solid] at blank
      cases blank
  rw [parseItem_data profile parse text split]
  refine ⟨[.leaf .text [] value ⟨c.offset, c'.offset⟩], c', ?_, rfl, past⟩
  unfold parseText lex
  rw [result_lift scanned]
  dsimp only
  rw [if_neg keeps, result_bind (decode_reads profile decoded)]
  rfl

theorem parseItem_blank {raw : Bytes} (text : Text raw) (discards : profile.options.trivia = .discard)
    (blank : isWhitespaceOnly raw = true) (stops : Stops after) (split : c.rest = raw ++ after) :
    Reads c raw [] (parseItem profile parse c) := by
  obtain ⟨c', scanned, past⟩ := scanText_reads profile text stops split
  rw [parseItem_data profile parse text split]
  refine ⟨[], c', ?_, rfl, past⟩
  unfold parseText lex
  rw [result_lift scanned]
  dsimp only
  rw [if_pos ⟨discards, blank⟩]
  rfl

theorem parseItem_element {tag name : Bytes} {attributes : List (Bytes × Bytes)} {selfClosing : Bool} {tree : TextTree}
    (opening : Opening name attributes selfClosing tag) (split : c.rest = tag ++ after) (parsed : (parse c).result = .ok (tree, c'))
    (past : c.Past s c') : Reads c s [tree.content] (parseItem profile parse c) := by
  obtain ⟨first, tail, start, rfl⟩ := opening_head opening
  have other {b : UInt8} (no : isNameStart b = false) : b ≠ first := by
    intro same
    rw [same, start] at no
    cases no
  refine ⟨[tree], c', ?_, rfl, past⟩
  unfold parseItem
  rw [if_neg (starts_second split (other (by decide))), if_neg (starts_second split (other (by decide))),
    if_neg (starts_second split (other (by decide))), if_neg (starts_second split (other (by decide))),
    if_pos (peek_here split), result_bind parsed]
  rfl

end

section

variable {start limit depth fuel : Nat} {name item rest : Bytes} {trees : List TextTree} {here others : List Content}

theorem no_end {b : UInt8} (other : b ≠ 0x2F) (rest : Bytes) : ¬ [0x3C, 0x2F] <+: 0x3C :: b :: rest :=
  fun first => other (cons_prefix_cons.mp (cons_prefix_cons.mp first).2).1.symm

theorem opening_no_end {name tag : Bytes} {attributes : List (Bytes × Bytes)} {selfClosing : Bool}
    (opening : Opening name attributes selfClosing tag) (rest : Bytes) : tag ≠ [] ∧ ¬ [0x3C, 0x2F] <+: tag ++ rest := by
  obtain ⟨first, tail, start, rfl⟩ := opening_head opening
  constructor
  · exact cons_ne_nil _ _
  · apply no_end
    intro slash
    rw [slash] at start
    cases start

theorem text_no_end {raw : Bytes} (text : Text raw) (rest : Bytes) : ¬ [0x3C, 0x2F] <+: raw ++ rest := by
  obtain ⟨nonempty, noTag, _⟩ := text
  cases raw with
  | nil => exact absurd rfl nonempty
  | cons b raw =>
    intro first
    exact noTag ((cons_prefix_cons.mp first).1 ▸ mem_cons_self)

theorem contentLoop_item (read : Reads c item here (parseItem profile (parseElement profile limit depth) c))
    (split : c.rest = item ++ rest) (solid : item ≠ []) (goes : ¬ [0x3C, 0x2F] <+: item ++ rest) (enough : c.rest.length < fuel)
    (enough' : c.rest.length < limit)
    (next : ∀ c₁ earlier fuel', c₁.rest = rest → c₁.rest.length < fuel' → c₁.rest.length < limit →
      ∃ more c', (contentLoop profile (parseElement profile limit depth) start name fuel' earlier c₁).result = .ok (earlier ++ more, c') ∧
        contents more = others ∧ c₁.Past s c') :
    ∃ more c', (contentLoop profile (parseElement profile limit depth) start name fuel trees c).result = .ok (trees ++ more, c') ∧
      contents more = here ++ others ∧ c.Past (item ++ s) c' := by
  obtain ⟨fuel, rfl⟩ : ∃ n, fuel = n + 1 := ⟨fuel - 1, by omega⟩
  obtain ⟨first, c₁, parsed, meaning, past⟩ := read
  have split₁ := past.rest_eq split
  have shorter : c₁.rest.length < c.rest.length := by
    have positive := length_pos_iff.mpr solid
    rw [split₁, split, length_append]
    omega
  have few : c₁.rest.length < fuel := by omega
  obtain ⟨more, c₂, looped, meaning', past'⟩ := next c₁ (trees ++ first) fuel split₁ few (by omega)
  have present : c.rest ≠ [] := by
    rw [split]
    exact fun none => solid (append_eq_nil_iff.mp none).1
  have goes' : ¬ c.startsWith [0x3C, 0x2F] = true := by rwa [startsWith_iff, split]
  refine ⟨first ++ more, c₂, ?_, ?_, past.trans past'⟩
  · unfold contentLoop
    rw [if_neg present, if_neg goes', result_bind parsed]
    rw [looped, append_assoc]
  · rw [contents_append, meaning, meaning']

theorem contentLoop_end {close : Bytes} (closing : EndTag name close) (split : c.rest = close ++ after) :
    ∃ c', (contentLoop profile (parseElement profile limit depth) start name (fuel + 1) trees c).result = .ok (trees, c') ∧
      c.Past close c' := by
  obtain ⟨slice, c', scanned, same, past⟩ := scanEndTag_reads profile closing split
  obtain ⟨w, _, _, rfl⟩ := closing
  apply Exists.intro c'
  constructor
  · unfold contentLoop lex
    rw [if_neg (by rw [split]; exact cons_ne_nil _ _), if_pos (starts_here (s := [0x3C, 0x2F]) split),
      result_lift scanned]
    dsimp only
    rw [if_neg (not_not.mpr same)]
    rfl
  · exact past

end

theorem contentLoop_reads {contents : List Content} (written : Contents profile.options.trivia contents s) {name close : Bytes}
    (closing : EndTag name close) {start limit depth fuel : Nat} {trees : List TextTree} (split : c.rest = s ++ (close ++ after))
    (enough : c.rest.length < fuel) (enough' : c.rest.length < limit) :
    ∃ more c', (contentLoop profile (parseElement profile limit depth) start name fuel trees c).result = .ok (trees ++ more, c') ∧
      Tree.contents more = contents ∧ c.Past (s ++ close) c' := by
  have stopped {rest : Bytes} {name close : Bytes} (closing : EndTag name close) (after : Bytes) (stops : Stops rest) :
      Stops (rest ++ (close ++ after)) := by
    obtain ⟨w, _, _, rfl⟩ := closing
    rcases stops with rfl | next
    · exact .inr rfl
    · exact .inr (by rw [head?_append, next]; rfl)
  induction written generalizing c name close limit depth fuel start trees after with
  | nil =>
    obtain ⟨fuel, rfl⟩ : ∃ n, fuel = n + 1 := ⟨fuel - 1, by omega⟩
    have ended : ∃ c', (contentLoop profile (parseElement profile limit depth) start name (fuel + 1) trees c).result = .ok (trees, c') ∧
        c.Past close c' := contentLoop_end profile closing split
    obtain ⟨c', looped, past⟩ := ended
    exact ⟨[], c', by rw [append_nil]; exact looped, rfl, past⟩
  | blank text discards blank stops _ ih =>
    rw [append_assoc] at split ⊢
    exact contentLoop_item profile (parseItem_blank profile _ text discards blank (stopped closing after stops) split) split text.1 (text_no_end text _)
      enough enough' fun c₁ earlier fuel' => ih closing
  | text text kept decoded stops _ ih =>
    rw [append_assoc] at split ⊢
    exact contentLoop_item profile (parseItem_text profile _ text kept decoded (stopped closing after stops) split) split text.1 (text_no_end text _)
      enough enough' fun c₁ earlier fuel' => ih closing
  | cdata quoted _ ih =>
    rw [append_assoc] at split ⊢
    have read := parseItem_cdata profile (parseElement profile limit depth) quoted split
    obtain ⟨_, rfl⟩ := quoted
    exact contentLoop_item profile read split (cons_ne_nil _ _) (no_end (by decide) _) enough enough' fun c₁ earlier fuel' => ih closing
  | comment comment _ ih =>
    rw [append_assoc] at split ⊢
    have read := parseItem_comment profile (parseElement profile limit depth) comment split
    obtain ⟨_, _, rfl⟩ := comment
    exact contentLoop_item profile read split (cons_ne_nil _ _) (no_end (by decide) _) enough enough' fun c₁ earlier fuel' => ih closing
  | instruction instruction ends proper _ ih =>
    rw [append_assoc] at split ⊢
    have read := parseItem_instruction profile (parseElement profile limit depth) instruction ends proper split
    obtain ⟨_, _, rfl⟩ := instruction
    exact contentLoop_item profile read split (cons_ne_nil _ _) (no_end (by decide) _) enough enough' fun c₁ earlier fuel' => ih closing
  | @empty name' tag rest attributes contents opening _ ih =>
    rw [append_assoc] at split ⊢
    obtain ⟨limit, rfl⟩ : ∃ n, limit = n + 1 := ⟨limit - 1, by omega⟩
    obtain ⟨entries, c₁, past, stand, parsed⟩ := parseElement_reads profile opening split
    have read := parseItem_element profile (parseElement profile (limit + 1) depth) opening split (parsed limit depth [] c₁ rfl) past
    rw [content_element stand rfl] at read
    obtain ⟨solid, goes⟩ := opening_no_end opening (rest ++ (close ++ after))
    exact contentLoop_item profile read split solid goes enough enough' fun c₁ earlier fuel' => ih closing
  | @element name' tag inner close' rest attributes children contents opening _ closing' _ ihInside ih =>
    have whole : c.rest = (tag ++ (inner ++ close')) ++ (rest ++ (close ++ after)) := by
      rw [split]
      simp only [append_assoc]
    have split' : c.rest = tag ++ (inner ++ (close' ++ (rest ++ (close ++ after)))) := by
      rw [whole]
      simp only [append_assoc]
    obtain ⟨limit, rfl⟩ : ∃ n, limit = n + 1 := ⟨limit - 1, by omega⟩
    obtain ⟨entries, c₁, past, stand, parsed⟩ := parseElement_reads profile opening split'
    have split₁ := past.rest_eq split'
    obtain ⟨solid, goes⟩ := opening_no_end opening (inner ++ (close' ++ (rest ++ (close ++ after))))
    have shorter : c₁.rest.length < limit := by
      have positive := length_pos_iff.mpr solid
      have length := congrArg length past.rest
      rw [length_append] at length
      omega
    obtain ⟨more, c₂, looped, meaning, past'⟩ := ihInside closing' split₁ (Nat.lt_succ_self _) shorter
    have read := parseItem_element profile (parseElement profile (limit + 1) depth) opening split' (parsed limit depth more c₂ looped)
      (past.trans past')
    rw [content_element stand meaning] at read
    have goes' : ¬ [0x3C, 0x2F] <+: (tag ++ (inner ++ close')) ++ (rest ++ (close ++ after)) := by simpa only [append_assoc] using goes
    have solid' : tag ++ (inner ++ close') ≠ [] := fun none => solid (append_eq_nil_iff.mp none).1
    have same : tag ++ (inner ++ (close' ++ rest)) ++ close = (tag ++ (inner ++ close')) ++ (rest ++ close) := by
      simp only [append_assoc]
    rw [same]
    exact contentLoop_item profile read whole solid' goes' enough enough' fun c₁ earlier fuel' => ih closing

theorem element_reads {content : Content} (element : Element profile.options.trivia content s) {limit : Nat} (depth : Nat)
    (split : c.rest = s ++ after) (enough : c.rest.length < limit) :
    ∃ tree c', (parseElement profile limit depth c).result = .ok (tree, c') ∧ tree.content = content ∧ c.Past s c' := by
  obtain ⟨limit, rfl⟩ : ∃ n, limit = n + 1 := ⟨limit - 1, by omega⟩
  cases element with
  | empty opening =>
    obtain ⟨entries, c₁, past, stand, parsed⟩ := parseElement_reads profile opening split
    exact ⟨_, c₁, parsed limit depth [] c₁ rfl, content_element stand rfl _, past⟩
  | closed opening inside closing =>
    rw [append_assoc, append_assoc] at split
    obtain ⟨entries, c₁, past, stand, parsed⟩ := parseElement_reads profile opening split
    have shorter : c₁.rest.length < limit := by
      have positive := length_pos_iff.mpr (opening_no_end opening []).1
      have length := congrArg length past.rest
      rw [length_append] at length
      omega
    obtain ⟨children, c₂, looped, meaning, past'⟩ :=
      contentLoop_reads profile inside closing (past.rest_eq split) (Nat.lt_succ_self _) shorter
    exact ⟨_, c₂, parsed limit depth children c₂ looped, content_element stand meaning _, past.trans past'⟩

theorem element_head {trivia : TriviaPolicy} {content : Content} (element : Element trivia content s) :
    ∃ first tail, isNameStart first = true ∧ s = 0x3C :: first :: tail := by
  cases element with
  | empty opening => exact opening_head opening
  | closed opening _ _ =>
    obtain ⟨first, tail, start, rfl⟩ := opening_head opening
    exact ⟨first, _, start, rfl⟩

theorem miscLoop_stops (prolog sawDoctype : Bool) (fuel : Nat)
    (stops : c.rest = [] ∨ ∃ first tail, isNameStart first = true ∧ c.rest = 0x3C :: first :: tail) :
    (miscLoop profile prolog (fuel + 1) sawDoctype c).result = .ok ((), c) := by
  have solid : Apart isWhitespace c.rest := by
    rcases stops with none | ⟨first, tail, _, some_⟩
    · rw [none]
      exact nofun
    · rw [some_]
      exact apart_cons (by decide)
  have still : c.skipWhitespace = c := (skipWhitespace_reads ws_nil solid rfl).unique (.refl c)
  have other {b : UInt8} (no : isNameStart b = false) (value : Bytes) : ¬ c.startsWith (0x3C :: b :: value) = true := by
    rcases stops with none | ⟨first, tail, start, some_⟩
    · rw [startsWith_iff, none, prefix_nil]
      exact cons_ne_nil _ _
    apply starts_second some_
    intro same
    rw [same, start] at no
    cases no
  unfold miscLoop
  rw [still, if_neg (other (by decide) _), if_neg (other (by decide) _), if_neg fun both => other (by decide) _ both.2]
  rfl

theorem parseDeclaration_reads {declaration : Bytes} {first : UInt8} {tail : Bytes}
    (declares : declaration = [] ∨ Declaration declaration) (start : isNameStart first = true)
    (split : c.rest = declaration ++ 0x3C :: first :: tail) :
    ∃ c', (parseDeclaration profile c).result = .ok ((), c') ∧ c.Past declaration c' := by
  unfold parseDeclaration lex
  rcases declares with rfl | ⟨body, instruction, blank, version⟩
  · have question : (0x3F : UInt8) ≠ first := by
      rintro rfl
      cases start
    have none : ¬ c.isXmlDeclaration = true := by
      rw [isXmlDeclaration, Bool.and_eq_true, not_and]
      exact fun starts => absurd starts (starts_second split question)
    rw [if_neg (starts_other split (by decide)), if_neg none]
    exact ⟨c, rfl, .refl c⟩
  · have ends : Apart isNameContinue (body ++ [0x3F, 0x3E]) := by
      cases body with
      | nil => exact apart_cons (by decide)
      | cons b body => exact apart_cons (whitespace_not_name blank)
    obtain ⟨name, slice, c', scanned, _, _, past⟩ :=
      scanInstruction_reads profile true instruction ends ⟨rfl, blank, version⟩ split
    obtain ⟨_, _, rfl⟩ := instruction
    have here : c.isXmlDeclaration = true := by
      rw [isXmlDeclaration, Bool.and_eq_true]
      constructor
      · exact starts_here (s := [0x3C, 0x3F, 0x78, 0x6D, 0x6C]) split
      · rw [split]
        cases body with
        | nil => cases blank
        | cons b body => exact blank
    rw [if_neg (starts_other split (by decide)), if_pos here, result_lift scanned]
    exact ⟨c', rfl, past⟩

theorem parse_reads {content : Content} {declaration : Bytes} (declares : declaration = [] ∨ Declaration declaration)
    (element : Element profile.options.trivia content s) (text : XmlText (declaration ++ s))
    (room : (declaration ++ s).length ≤ profile.limits.maxInputBytes) (small : (declaration ++ s).length < decodedBit) :
    ∃ tree, (parse profile (declaration ++ s)).result = .ok tree ∧ tree.content = content := by
  obtain ⟨first, tail, start, head⟩ := element_head element
  have split : ({ rest := declaration ++ s } : Cursor).rest = declaration ++ 0x3C :: first :: tail := by rw [head]
  obtain ⟨c₁, declared, past⟩ := parseDeclaration_reads profile declares start split
  have here : c₁.rest = s ++ [] := by
    rw [append_nil]
    exact past.rest_eq rfl
  have opens : c₁.rest = 0x3C :: first :: tail := by rw [here, append_nil, head]
  obtain ⟨tree, c₂, parsed, meaning, past'⟩ := element_reads profile element 0 here (Nat.lt_succ_self _)
  have done : c₂.rest = [] := past'.rest_eq here
  have slash : (0x2F : UInt8) ≠ first := by
    rintro rfl
    cases start
  have rooted : ¬ (c₁.peek ≠ 0x3C ∨ c₁.startsWith [0x3C, 0x2F] = true) := by
    rw [not_or, not_not]
    exact ⟨peek_here opens, starts_second opens slash⟩
  have valid := (isValidXmlUtf8_iff _).mpr text
  apply Exists.intro tree
  constructor
  · unfold parse
    rw [if_neg (Nat.not_lt.mpr room), if_neg (Nat.not_le.mpr small), if_neg (by rw [valid]; decide)]
    have document : (parseDocument profile { rest := declaration ++ s }).result = .ok (tree, c₂) := by
      unfold parseDocument
      rw [result_bind declared]
      rw [result_bind (miscLoop_stops profile true false _ (.inr ⟨first, tail, start, opens⟩))]
      dsimp only
      rw [if_neg rooted, result_bind parsed]
      rw [result_bind (miscLoop_stops profile false false _ (.inl done))]
      rw [if_neg (not_not.mpr done)]
      rfl
    rw [result_bind document]
    rfl
  · exact meaning

end

end Syntax

end NginBase.Xml
