import NginBase.Xml.DecodedTexts
import NginBase.Xml.Rendering

namespace NginBase.Xml

open Library List Grammar

section

variable {inAttribute : Bool} {value : Bytes}

theorem written_decoded (plain : 0x0D ∉ value) : Decoded (escaped inAttribute value) value := by
  have decoded := decodeXmlText_escaped inAttribute value
  rw [(normalizeLines_eq_iff value).mpr plain] at decoded
  unfold Decoded
  split
  · rename_i needless
    simp only [needsDecode, Bool.or_eq_false_iff] at needless
    have clean : 0x26 ∉ escaped inAttribute value := by
      intro mem
      rw [contains_iff_mem.mpr mem] at needless
      cases needless.1
    rw [escaped_plain clean]
  · exact decoded

theorem written_text (solid : value ≠ []) : Text (escaped false value) := by
  refine ⟨?_, fun mem => (escaped_mem mem).1 rfl, ?_⟩
  · obtain ⟨b, rest, rfl⟩ := exists_cons_of_ne_nil solid
    cases found : escapeByte false b with
    | some replacement =>
      obtain ⟨name, rfl, _⟩ := escapeByte_some found
      rw [escaped_cons_some found]
      exact cons_ne_nil _ _
    | none =>
      rw [escaped_cons_none found]
      exact cons_ne_nil _ _
  · intro inside
    have mem : (0x3E : UInt8) ∈ escaped false value := inside.subset (by decide)
    exact (escaped_mem mem).2.1 rfl

theorem written_solid (solid : isWhitespaceOnly value = false) : isWhitespaceOnly (escaped inAttribute value) = false := by
  unfold isWhitespaceOnly at solid ⊢
  rw [all_eq_false] at solid ⊢
  obtain ⟨b, mem, other⟩ := solid
  cases found : escapeByte inAttribute b with
  | some replacement =>
    obtain ⟨name, rfl, _⟩ := escapeByte_some found
    refine ⟨0x26, mem_flatMap.mpr ⟨b, mem, ?_⟩, by decide⟩
    rw [found]
    exact mem_cons_self
  | none =>
    refine ⟨b, mem_flatMap.mpr ⟨b, mem, ?_⟩, other⟩
    rw [found]
    exact mem_singleton_self b

end

section

variable {name : Bytes} {attributes : List (Bytes × Bytes)}

theorem written_attributes (named : ∀ entry ∈ attributes, Name entry.1) :
    Attributes (attributes.map fun entry => (entry.1, escaped true entry.2)) (attributes.map attributeText).flatten := by
  induction attributes with
  | nil => exact .none ws_nil
  | cons entry rest ih =>
    have blank : Ws [0x20] := by
      unfold Ws
      decide +kernel
    have quote : (0x22 : UInt8) ∉ escaped true entry.2 := fun mem => (escaped_mem mem).2.2 rfl rfl
    have noTag : (0x3C : UInt8) ∉ escaped true entry.2 := fun mem => (escaped_mem mem).1 rfl
    have others := ih fun entry mem => named entry (mem_cons_of_mem _ mem)
    have all := Attributes.more blank (cons_ne_nil _ _) (named entry mem_cons_self) ws_nil ws_nil (.inr rfl) quote
      noTag others
    simpa [attributeText] using all

theorem written_opening (named : Name name) (names : ∀ entry ∈ attributes, Name entry.1)
    (distinct : (attributes.map Prod.fst).Nodup) (plain : ∀ entry ∈ attributes, 0x0D ∉ entry.2) (selfClosing : Bool) :
    Opening name attributes selfClosing
      ([0x3C] ++ (name ++ ((attributes.map attributeText).flatten ++ if selfClosing then [0x2F, 0x3E] else [0x3E]))) := by
  refine ⟨_, ⟨_, named, written_attributes names, rfl⟩, ?_, ?_⟩
  · rwa [map_map]
  · rw [forall₂_map_left_iff, forall₂_same]
    exact fun entry mem => ⟨rfl, written_decoded (plain entry mem)⟩

theorem written_endTag (named : Name name) : EndTag name ([0x3C, 0x2F] ++ (name ++ [0x3E])) :=
  ⟨[], named, ws_nil, rfl⟩

theorem xmlText_attributes (texts : ∀ entry ∈ attributes, XmlText entry.1 ∧ XmlText entry.2) :
    XmlText (attributes.map attributeText).flatten := by
  induction attributes with
  | nil => exact xmlText_nil
  | cons entry rest ih =>
    obtain ⟨first, second⟩ := texts entry mem_cons_self
    have here : XmlText (attributeText entry) :=
      (xmlText_ascii (by decide +kernel)).append (first.append ((xmlText_ascii (by decide +kernel)).append (second.escaped.append (xmlText_ascii (by decide +kernel)))))
    exact here.append (ih fun entry mem => texts entry (mem_cons_of_mem _ mem))

end

section

variable (options : WriteOptions)

theorem prolog_declares : Writer.prolog options = [] ∨ Declaration (Writer.prolog options) := by
  unfold Writer.prolog
  split
  · right
    refine ⟨declarationText.drop 5 |>.take 31, ⟨.mk (by decide) (by decide +kernel), by unfold Until; decide +kernel, by decide +kernel⟩, by decide +kernel, ?_⟩
    exact ⟨[0x20], declarationText.drop 13 |>.take 23, by decide +kernel⟩
  · exact .inl rfl

theorem xmlText_prolog : XmlText (Writer.prolog options) := by
  unfold Writer.prolog
  split
  · exact xmlText_ascii (by decide +kernel)
  · exact xmlText_nil

end

def sectionText (value : Bytes) : Bytes := [0x3C, 0x21, 0x5B, 0x43, 0x44, 0x41, 0x54, 0x41, 0x5B] ++ (value ++ [0x5D, 0x5D, 0x3E])

theorem until_closing {value : Bytes} (plain : ¬ [0x5D, 0x5D, 0x3E] <:+: value) : Until [0x5D, 0x5D, 0x3E] value :=
  have unique : (0x3E : UInt8) ∉ [0x5D, 0x5D] := by decide
  find_closing unique plain

theorem section_cdata {value : Bytes} (plain : ¬ [0x5D, 0x5D, 0x3E] <:+: value) : CData value (sectionText value) :=
  ⟨until_closing plain, rfl⟩

theorem cdataTexts_plain {value : Bytes} (plain : ¬ [0x5D, 0x5D, 0x3E] <:+: value) (fuel : Nat) : cdataTexts fuel value = [value] := by
  cases fuel with
  | zero => rfl
  | succ fuel => rw [cdataTexts, find_none_iff.mpr plain]

theorem cdataText_plain {value : Bytes} (plain : ¬ [0x5D, 0x5D, 0x3E] <:+: value) : cdataText value = sectionText value := by
  simp [cdataText, cdataChunks, cdataTexts_plain plain, sectionText]

theorem greater_plain {before value : Bytes} (start : before = [] ∨ before = [0x3E]) (plain : ¬ [0x5D, 0x5D, 0x3E] <:+: value) :
    ¬ [0x5D, 0x5D, 0x3E] <:+: before ++ value := by
  rcases start with rfl | rfl
  · exact plain
  · rw [singleton_append, infix_cons_iff, not_or]
    exact ⟨fun first => absurd (cons_prefix_cons.mp first).1 (by decide), plain⟩

/-- Texts that end the section they are in, and write further ones; `before` is what that section holds already. -/
def Divides (before value : Bytes) (texts : List Bytes) : Prop :=
  ∃ first rest, before ++ (texts.flatten ++ [0x5D, 0x5D, 0x3E]) = first ++ ([0x5D, 0x5D, 0x3E] ++ (rest.map sectionText).flatten) ∧
    first ++ rest.flatten = before ++ value ∧ ∀ part ∈ first :: rest, ¬ [0x5D, 0x5D, 0x3E] <:+: part

theorem cdataTexts_last {before value : Bytes} (start : before = [] ∨ before = [0x3E]) (plain : ¬ [0x5D, 0x5D, 0x3E] <:+: value)
    (fuel : Nat) : Divides before value (cdataTexts fuel value) := by
  refine ⟨before ++ value, [], by simp [cdataTexts_plain plain], by simp, ?_⟩
  intro part mem
  rw [mem_singleton.mp mem]
  exact greater_plain start plain

theorem cdataTexts_divides {fuel : Nat} {before value : Bytes} (enough : value.length ≤ fuel) (start : before = [] ∨ before = [0x3E]) :
    Divides before value (cdataTexts fuel value) := by
  induction fuel generalizing before value with
  | zero =>
    have empty : value = [] := length_eq_zero_iff.mp (Nat.le_zero.mp enough)
    apply cdataTexts_last start
    rw [empty, infix_nil]
    exact cons_ne_nil _ _
  | succ fuel ih =>
    cases found : find [0x5D, 0x5D, 0x3E] value with
    | none => exact cdataTexts_last start (find_none_iff.mp found) _
    | some close =>
      have bound := find_bound found
      have split := find_split found
      have shorter : (value.drop (close + 3)).length ≤ fuel := by
        rw [length_drop]
        omega
      obtain ⟨first, rest, text, content, parts⟩ := ih shorter (.inr rfl)
      have short : ¬ [0x5D, 0x5D, 0x3E] <:+: value.take close ++ [0x5D, 0x5D] := by
        intro inside
        cases earlier : find [0x5D, 0x5D, 0x3E] (value.take close ++ [0x5D, 0x5D]) with
        | none => exact find_none_iff.mp earlier inside
        | some i =>
          have same := find_extend earlier (0x3E :: value.drop (close + 3))
          have bound' := find_bound earlier
          rw [append_assoc] at same
          rw [split] at found
          cases found.symm.trans same
          simp only [length_append, length_take, length_cons] at bound'
          omega
      refine ⟨before ++ (value.take close ++ [0x5D, 0x5D]), first :: rest, ?_, ?_, ?_⟩
      · rw [cdataTexts, found]
        have text' := congrArg (fun tail => before ++ (value.take close ++ ([0x5D, 0x5D, 0x5D, 0x5D, 0x3E, 0x3C, 0x21, 0x5B, 0x43, 0x44,
          0x41, 0x54, 0x41, 0x5B] ++ tail))) text
        simpa [sectionText] using text'
      · conv_rhs => rw [split]
        have content' := congrArg (fun tail => before ++ (value.take close ++ ([0x5D, 0x5D] ++ tail))) content
        simpa using content'
      · intro part mem
        rcases mem_cons.mp mem with rfl | mem
        · exact greater_plain start short
        · exact parts part mem

theorem cdataText_sections (value : Bytes) :
    ∃ sections, sections ≠ [] ∧ sections.flatten = value ∧ (∀ part ∈ sections, ¬ [0x5D, 0x5D, 0x3E] <:+: part) ∧
      cdataText value = (sections.map sectionText).flatten := by
  obtain ⟨first, rest, text, content, parts⟩ := cdataTexts_divides (Nat.le_refl value.length) (.inl rfl)
  refine ⟨first :: rest, cons_ne_nil _ _, content, parts, ?_⟩
  have text' := congrArg ([0x3C, 0x21, 0x5B, 0x43, 0x44, 0x41, 0x54, 0x41, 0x5B] ++ ·) text
  simpa [cdataText, cdataChunks, sectionText] using text'

theorem contents_sections {trivia : TriviaPolicy} {others : List Content} {rest : Bytes} {sections : List Bytes}
    (parts : ∀ part ∈ sections, ¬ [0x5D, 0x5D, 0x3E] <:+: part) (written : Contents trivia others rest) :
    Contents trivia (sections.map (.leaf .cdata [] ·) ++ others) ((sections.map sectionText).flatten ++ rest) := by
  induction sections with
  | nil => exact written
  | cons part sections ih =>
    have later := ih fun part mem => parts part (mem_cons_of_mem _ mem)
    have all := later.cdata (section_cdata (parts part mem_cons_self))
    rwa [← append_assoc] at all

theorem xmlText_cdata {value : Bytes} (text : XmlText value) : XmlText (cdataText value) := by
  have loop (fuel : Nat) : ∀ value, XmlText value → XmlText (cdataTexts fuel value).flatten := by
    induction fuel with
    | zero =>
      intro value text
      simpa [cdataTexts] using text
    | succ fuel ih =>
      intro value text
      rw [cdataTexts]
      cases found : find [0x5D, 0x5D, 0x3E] value with
      | none => simpa using text
      | some close =>
        rw [find_split found] at text
        obtain ⟨before, behind⟩ := text.cut (ascii_head (by decide) _)
        exact before.append ((xmlText_ascii (by decide +kernel)).append (ih _ (behind.behind (by decide +kernel))))
  have whole := (xmlText_ascii (s := [0x3C, 0x21, 0x5B, 0x43, 0x44, 0x41, 0x54, 0x41, 0x5B]) (by decide +kernel)).append
    ((loop value.length value text).append (xmlText_ascii (s := [0x5D, 0x5D, 0x3E]) (by decide +kernel)))
  simpa [cdataText, cdataChunks] using whole

end NginBase.Xml
