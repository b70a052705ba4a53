import NginBase.Xml.Meaning

namespace NginBase.Xml

open Library List Content Nat Unicode

theorem decodeEntity_text {entity out : Bytes} (h : decodeEntity entity = .ok out) : XmlText out := by
  have ascii {b : UInt8} (low : b.toNat < 0x80 ∧ isXmlCharacter b.toNat = true) : XmlText [b] :=
    xmlText_ascii fun c mem => mem_singleton.mp mem ▸ low
  unfold decodeEntity at h
  iterate 5
    split at h
    · cases h
      exact ascii (by decide)
  split at h
  · dsimp only at h
    generalize (if peekByte entity 1 = 0x78 ∨ peekByte entity 1 = 0x58 then 2 else 1) = marks at h
    split at h
    · cases h
    split at h
    · cases h
    rename_i codePoint consumed _
    split at h
    · cases h
    cases encoded : appendUtf8 codePoint with
    | none =>
      rw [encoded] at h
      cases h
    | some text =>
      rw [encoded] at h
      cases h
      unfold appendUtf8 at encoded
      split at encoded
      · cases encoded
      rename_i allowed
      rw [Bool.not_eq_false] at allowed
      cases encoded
      rw [← encodeUtf8_scalar (isXmlCharacter_scalar allowed)]
      exact xmlText_encode allowed
  · cases h

theorem translate_high {size fuel read : Nat} {bytes more text : Bytes} (high : ∀ b ∈ bytes, 0x80 ≤ b.toNat)
    (h : translate (decodeStep size) (bytes.length + fuel) read (bytes ++ more) = .ok text) :
    ∃ rest, translate (decodeStep size) fuel (read + bytes.length) more = .ok rest ∧ text = bytes ++ rest := by
  induction bytes generalizing read text with
  | nil =>
    rw [length_nil, zero_add] at h
    exact ⟨text, h, rfl⟩
  | cons b bytes ih =>
    have large := high b mem_cons_self
    have differs {c : UInt8} (low : Ascii c) : b ≠ c := by
      intro same
      subst same
      exact absurd low (not_lt.mpr large)
    rw [length_cons, add_right_comm] at h
    obtain ⟨out, n, rest, stepped, next, rfl⟩ := translate_ok (cons_ne_nil _ _) h
    rw [decodeStep, if_neg (differs (by decide)), if_pos (differs (by decide))] at stepped
    cases stepped
    obtain ⟨rest', later, rfl⟩ := ih (fun c mem => high c (mem_cons_of_mem _ mem)) next
    refine ⟨rest', ?_, rfl⟩
    rw [length_cons, add_comm bytes.length 1, ← add_assoc]
    exact later

theorem translate_text {size : Nat} (fuel read : Nat) {raw text : Bytes} (valid : XmlText raw) (enough : raw.length ≤ fuel)
    (h : translate (decodeStep size) fuel read raw = .ok text) : XmlText text := by
  induction fuel using Nat.strongRecOn generalizing read raw text with
  | ind fuel ih =>
    obtain ⟨characters, allowed, rfl⟩ := valid
    cases characters with
    | nil =>
      cases fuel with
      | zero =>
        cases h
        exact xmlText_nil
      | succ fuel =>
        cases h
        exact xmlText_nil
    | cons c rest =>
      have others : XmlText (rest.flatMap encodeUtf8) := ⟨rest, fun d mem => allowed d (mem_cons_of_mem _ mem), rfl⟩
      have here := allowed c mem_cons_self
      rw [flatMap_cons, length_append] at enough
      rw [flatMap_cons] at h
      generalize rest.flatMap encodeUtf8 = more at others enough h
      rcases encodeUtf8_cases here with ⟨b, low, same, encoded⟩ | high
      · rw [encoded, length_singleton] at enough
        rw [encoded, singleton_append] at h
        obtain ⟨fuel, rfl⟩ : ∃ n, fuel = n + 1 := ⟨fuel - 1, by omega⟩
        obtain ⟨out, n, tail, stepped, next, rfl⟩ := translate_ok (cons_ne_nil _ _) h
        simp only [decodeStep] at stepped
        split at stepped
        · cases stepped
          have feed : XmlText [0x0A] := xmlText_ascii (by decide +kernel)
          by_cases pair : more.head? = some 0x0A
          · obtain ⟨more, rfl⟩ : ∃ tail, more = 0x0A :: tail := ⟨more.tail, eq_cons_of_mem_head? pair⟩
            rw [length_cons] at enough
            exact feed.append (ih fuel (lt_succ_self _) _ (others.tail (by decide)) (by omega) next)
          · rw [if_neg pair] at next
            exact feed.append (ih fuel (lt_succ_self _) _ others (by omega) next)
        · split at stepped
          · cases stepped
            have single := xmlText_encode here
            rw [encoded] at single
            exact single.append (ih fuel (lt_succ_self _) _ others (by omega) next)
          · split at stepped
            · cases stepped
            · rename_i semicolon found
              split at stepped
              · cases stepped
              rename_i decoded
              cases stepped
              have split := find_split found
              rw [split] at others
              have behind := (others.cut fun b head => by cases head; decide).2.tail (by decide)
              have shorter : (more.drop (semicolon + 1)).length ≤ fuel := by
                rw [length_drop]
                omega
              exact (decodeEntity_text decoded).append (ih fuel (lt_succ_self _) _ behind shorter next)
      · have positive := encodeUtf8_pos c
        obtain ⟨fuel', rfl⟩ : ∃ n, fuel = (encodeUtf8 c).length + n := ⟨fuel - (encodeUtf8 c).length, by omega⟩
        obtain ⟨tail, next, rfl⟩ := translate_high high h
        exact (xmlText_encode here).append (ih fuel' (by omega) _ others (by omega) next)

theorem decoded_text {raw text : Bytes} (valid : XmlText raw) (decoded : Grammar.Decoded raw text) : XmlText text := by
  unfold Grammar.Decoded at decoded
  split at decoded
  · cases decoded
    exact valid
  · exact translate_text _ 0 valid (le_refl _) decoded

mutual

/-- Names are names, values consist of characters that XML allows, no two attributes of an element have one name, no CDATA
section holds its own end, and no trivia is there that the policy discards. -/
def Content.Proper (trivia : TriviaPolicy) : Content → Prop
  | .leaf kind name text =>
    (XmlText name ∧ XmlText text) ∧ (kind = .cdata → ¬ [0x5D, 0x5D, 0x3E] <:+: text) ∧ (kind ≠ .processingInstruction → name = []) ∧
      (trivia = .preserve ∨ kind = .text ∨ kind = .cdata)
  | .element name attributes children =>
    (Grammar.Name name ∧ XmlText name) ∧ (attributes.map Prod.fst).Nodup ∧
      (∀ entry ∈ attributes, (Grammar.Name entry.1 ∧ XmlText entry.1) ∧ XmlText entry.2) ∧ AllProper trivia children

def Content.AllProper (trivia : TriviaPolicy) : List Content → Prop
  | [] => True
  | content :: rest => content.Proper trivia ∧ AllProper trivia rest

end

namespace Grammar

variable {trivia : TriviaPolicy} {s after : Bytes}

theorem ascii_ws {w : Bytes} (ws : Ws w) : ∀ b ∈ w, Ascii b := by
  intro b mem
  have blank := ws b mem
  simp only [isWhitespace, Bool.or_eq_true, decide_eq_true_eq] at blank
  rcases blank with ((rfl | rfl) | rfl) | rfl <;> decide

theorem ascii_head {b : UInt8} (low : Ascii b) (rest : Bytes) : ∀ d, (b :: rest).head? = some d → Ascii d := by
  intro d head
  cases head
  exact low

theorem ascii_head_ws {w rest : Bytes} (ws : Ws w) (low : ∀ d, rest.head? = some d → Ascii d) :
    ∀ d, (w ++ rest).head? = some d → Ascii d := by
  cases w with
  | nil => exact low
  | cons b w => exact ascii_head (ascii_ws ws b mem_cons_self) _

theorem Attributes.texts {raw : List (Bytes × Bytes)} {inside : Bytes} (written : Attributes raw inside)
    (text : XmlText (inside ++ after)) :
    (∀ entry ∈ raw, (Name entry.1 ∧ XmlText entry.1) ∧ XmlText entry.2) ∧ XmlText after := by
  induction written with
  | none ws =>
    constructor
    · exact fun entry mem => nomatch mem
    · exact text.behind (ascii_ws ws)
  | @more w name w₁ w₂ value rest quote raw ws separated named ws₁ ws₂ quotes unquoted noTag others ih =>
    have low : Ascii quote := by
      rcases quotes with rfl | rfl <;> decide
    simp only [append_assoc, cons_append] at text
    obtain ⟨first, text⟩ := (text.behind (ascii_ws ws)).cut (ascii_head_ws ws₁ (ascii_head (by decide) _))
    have text := ((text.behind (ascii_ws ws₁)).tail (by decide)).behind (ascii_ws ws₂)
    obtain ⟨second, text⟩ := (text.tail low).cut (ascii_head low _)
    obtain ⟨all, text⟩ := ih (text.tail low)
    constructor
    · intro entry mem
      rcases mem_cons.mp mem with rfl | mem
      · exact ⟨⟨named, first⟩, second⟩
      · exact all entry mem
    · exact text

theorem Opening.texts {name tag : Bytes} {attributes : List (Bytes × Bytes)} {selfClosing : Bool}
    (opening : Opening name attributes selfClosing tag) (text : XmlText (tag ++ after)) :
    ((Name name ∧ XmlText name) ∧ (attributes.map Prod.fst).Nodup ∧
      ∀ entry ∈ attributes, (Name entry.1 ∧ XmlText entry.1) ∧ XmlText entry.2) ∧ XmlText after := by
  obtain ⟨raw, ⟨inside, named, written, rfl⟩, distinct, values⟩ := opening
  have closes : (∀ d, ((if selfClosing then [0x2F, 0x3E] else [0x3E]) ++ after : Bytes).head? = some d → Ascii d) ∧
      ∀ b ∈ (if selfClosing then [0x2F, 0x3E] else [0x3E] : Bytes), Ascii b := by
    cases selfClosing
    · exact ⟨ascii_head (by decide) _, by decide +kernel⟩
    · exact ⟨ascii_head (by decide) _, by decide +kernel⟩
  have low : ∀ d, (inside ++ ((if selfClosing then [0x2F, 0x3E] else [0x3E]) ++ after)).head? = some d → Ascii d := by
    cases written with
    | none ws => exact ascii_head_ws ws closes.1
    | @more w _ _ _ _ _ _ _ ws separated =>
      cases w with
      | nil => exact absurd rfl separated
      | cons b w => exact ascii_head (ascii_ws ws b mem_cons_self) _
  rw [cons_append] at text
  have text := text.tail (by decide)
  rw [append_assoc, append_assoc] at text
  obtain ⟨first, text⟩ := text.cut low
  obtain ⟨all, text⟩ := written.texts text
  refine ⟨⟨⟨named, first⟩, names_written values ▸ distinct, ?_⟩, text.behind closes.2⟩
  clear distinct written
  induction values with
  | nil => exact fun entry mem => nomatch mem
  | @cons written entry raw attributes here _ ih =>
    intro other mem
    rcases mem_cons.mp mem with rfl | mem
    · obtain ⟨name, value⟩ := all written mem_cons_self
      rw [here.1] at name
      exact ⟨name, decoded_text value here.2⟩
    · exact ih (fun other mem => all other (mem_cons_of_mem _ mem)) other mem

theorem EndTag.texts {name close : Bytes} (closing : EndTag name close) (text : XmlText (close ++ after)) : XmlText after := by
  obtain ⟨w, _, ws, rfl⟩ := closing
  rw [cons_append, cons_append] at text
  have text := (text.tail (by decide)).tail (by decide)
  rw [append_assoc, append_assoc] at text
  have text := (text.cut (ascii_head_ws ws (ascii_head (by decide) _))).2
  exact (text.behind (ascii_ws ws)).tail (by decide)

theorem allProper_keeps {content : Content} {contents : List Content} (proper : trivia = .preserve → content.Proper trivia)
    (others : AllProper trivia contents) : AllProper trivia (trivia.keeps content ++ contents) := by
  unfold TriviaPolicy.keeps
  split
  · rename_i keep
    exact ⟨proper keep, others⟩
  · exact others

theorem until_plain {close body : Bytes} (ends : Until close body) (solid : close ≠ []) : ¬ close <:+: body := by
  intro inside
  cases found : find close body with
  | none => exact find_none_iff.mp found inside
  | some i =>
    have bound := find_bound found
    have earlier := find_extend found close
    have positive := length_pos_iff.mpr solid
    rw [Until, earlier] at ends
    cases ends
    omega

theorem ascii_apart {rest : Bytes} (apart : Apart isNameContinue rest) : ∀ d, rest.head? = some d → Ascii d := by
  intro d head
  have other := apart d head
  by_contra high
  have large : 0x80 ≤ d := UInt8.le_iff_toNat_le.mpr (not_lt.mp high)
  simp [isNameContinue, isNameStart, large] at other

theorem texts_between {before text close : Bytes} (low : ∀ b ∈ before, Ascii b) (low' : ∀ b ∈ close, Ascii b) (solid : close ≠ [])
    (valid : XmlText ((before ++ (text ++ close)) ++ after)) : XmlText text ∧ XmlText after := by
  rw [append_assoc, append_assoc] at valid
  have starts : ∀ d, (close ++ after).head? = some d → Ascii d := by
    cases close with
    | nil => exact absurd rfl solid
    | cons b close => exact ascii_head (low' b mem_cons_self) _
  obtain ⟨here, behind⟩ := (valid.behind low).cut starts
  exact ⟨here, behind.behind low'⟩

theorem Contents.proper {contents : List Content} (written : Contents trivia contents s)
    (low : ∀ d, after.head? = some d → Ascii d) (text : XmlText (s ++ after)) : AllProper trivia contents ∧ XmlText after := by
  have stopped {rest after : Bytes} (low : ∀ d, after.head? = some d → Ascii d) (stops : Stops rest) :
      ∀ d, (rest ++ after).head? = some d → Ascii d := by
    rcases stops with rfl | next
    · exact low
    intro d head
    rw [head?_append, next] at head
    cases head
    decide
  induction written generalizing after with
  | nil => exact ⟨trivial, text⟩
  | @blank raw rest contents data _ _ stops _ ih =>
    rw [append_assoc] at text
    exact ih low (text.cut (stopped low stops)).2
  | @text raw value rest contents data _ decoded stops _ ih =>
    rw [append_assoc] at text
    obtain ⟨here, text⟩ := text.cut (stopped low stops)
    obtain ⟨others, text⟩ := ih low text
    exact ⟨⟨⟨⟨xmlText_nil, decoded_text here decoded⟩, nofun, fun _ => rfl, .inr (.inl rfl)⟩, others⟩, text⟩
  | @cdata value s rest contents quoted _ ih =>
    obtain ⟨ends, rfl⟩ := quoted
    rw [append_assoc] at text
    obtain ⟨here, text⟩ := texts_between (by decide +kernel) (by decide +kernel) (cons_ne_nil _ _) text
    obtain ⟨others, text⟩ := ih low text
    exact ⟨⟨⟨⟨xmlText_nil, here⟩, fun _ => until_plain ends (cons_ne_nil _ _), fun _ => rfl, .inr (.inr rfl)⟩, others⟩, text⟩
  | @comment value s rest contents comment _ ih =>
    obtain ⟨_, _, rfl⟩ := comment
    rw [append_assoc] at text
    obtain ⟨here, text⟩ := texts_between (by decide +kernel) (by decide +kernel) (cons_ne_nil _ _) text
    obtain ⟨others, text⟩ := ih low text
    exact ⟨allProper_keeps (fun keep => ⟨⟨xmlText_nil, here⟩, nofun, fun _ => rfl, .inl keep⟩) others, text⟩
  | @instruction target body s rest contents instruction ends proper _ ih =>
    obtain ⟨_, _, rfl⟩ := instruction
    have starts : ∀ d, ((body ++ [0x3F, 0x3E]) ++ (rest ++ after)).head? = some d → Ascii d := by
      intro d head
      rw [head?_append_of_ne_nil _ (by simp)] at head
      exact ascii_apart ends d head
    simp only [append_assoc] at text starts
    obtain ⟨first, text⟩ := (text.behind (by decide +kernel)).cut starts
    have text : XmlText (([] ++ (body ++ [0x3F, 0x3E])) ++ (rest ++ after)) := by simpa using text
    obtain ⟨here, text⟩ := texts_between (by decide +kernel) (by decide +kernel) (cons_ne_nil _ _) text
    obtain ⟨others, text⟩ := ih low text
    exact ⟨allProper_keeps (fun keep => ⟨⟨first, here⟩, nofun, fun other => absurd rfl other, .inl keep⟩) others, text⟩
  | @empty name tag rest attributes contents opening _ ih =>
    rw [append_assoc] at text
    obtain ⟨⟨named, distinct, all⟩, text⟩ := opening.texts text
    obtain ⟨others, text⟩ := ih low text
    exact ⟨⟨⟨named, distinct, all, trivial⟩, others⟩, text⟩
  | @element name tag inner close rest attributes children contents opening _ closing _ ihInside ih =>
    simp only [append_assoc] at text
    obtain ⟨⟨named, distinct, all⟩, text⟩ := opening.texts text
    have closes : ∀ d, (close ++ (rest ++ after)).head? = some d → Ascii d := by
      obtain ⟨w, _, _, rfl⟩ := closing
      exact ascii_head (by decide) _
    obtain ⟨inside, text⟩ := ihInside closes text
    obtain ⟨others, text⟩ := ih low (closing.texts text)
    exact ⟨⟨⟨named, distinct, all, inside⟩, others⟩, text⟩

theorem Element.proper {content : Content} (written : Element trivia content s) (text : XmlText (s ++ after)) : content.Proper trivia := by
  cases written with
  | empty opening =>
    obtain ⟨⟨named, distinct, all⟩, _⟩ := opening.texts text
    exact ⟨named, distinct, all, trivial⟩
  | @closed name tag inner close attributes children opening inside closing =>
    simp only [append_assoc] at text
    obtain ⟨⟨named, distinct, all⟩, text⟩ := opening.texts text
    have closes : ∀ d, (close ++ after).head? = some d → Ascii d := by
      obtain ⟨w, _, _, rfl⟩ := closing
      exact ascii_head (by decide) _
    exact ⟨named, distinct, all, (inside.proper closes text).1⟩

/-- Whatever is accepted is an element of the grammar among other markup, and is read as the grammar says. Such an element is accepted,
unless memory or a limit stops the parse. -/
theorem parser_reads_elements (setup : Setup) :
    (∀ input doc, Parser.parse setup input = .ok doc → XmlText input ∧ doc.tree.content.Proper setup.options.trivia ∧
      ∃ before s after, input = before ++ (s ++ after) ∧ Element setup.options.trivia doc.tree.content s) ∧
    ∀ declaration s content, (declaration = [] ∨ Declaration declaration) → Element setup.options.trivia content s →
      XmlText (declaration ++ s) → (∃ doc, Parser.parse setup (declaration ++ s) = .ok doc ∧ doc.tree.content = content) ∨
        ∃ e, Parser.parse setup (declaration ++ s) = .error e ∧
          (MemoryFailure e ∧ setup.Scarce ∨ Exceeds setup.toProfile (declaration ++ s)) := by
  constructor
  · intro input doc parsed
    obtain ⟨valid, before, s, after, rfl, element⟩ := Parser.parse_element setup parsed
    obtain ⟨first, tail, _, rfl⟩ := Syntax.element_head element
    have behind := (valid.cut (ascii_head (by decide) _)).2
    exact ⟨valid, element.proper behind, before, _, after, rfl, element⟩
  · intro declaration s content declares element text
    rcases Parser.parse_content setup declares element text with read | ⟨e, failed, memory⟩ | ⟨e, failed, limited⟩
    · exact .inl read
    · exact .inr ⟨e, failed, .inl memory⟩
    · exact .inr ⟨e, failed, .inr limited⟩

end Grammar

end NginBase.Xml
