import NginBase.Xml.EscapeLaws

namespace NginBase.Xml

open List Unicode

section

variable {s t : Bytes}

theorem xmlText_nil : XmlText [] := ⟨[], by simp, rfl⟩

theorem XmlText.append (first : XmlText s) (second : XmlText t) : XmlText (s ++ t) := by
  obtain ⟨cs, allowed, rfl⟩ := first
  obtain ⟨ds, allowed', rfl⟩ := second
  apply Exists.intro (cs ++ ds)
  constructor
  · intro c mem
    rcases mem_append.mp mem with mem | mem
    · exact allowed c mem
    · exact allowed' c mem
  · rw [flatMap_append]

theorem xmlText_encode {c : Nat} (allowed : isXmlCharacter c = true) : XmlText (encodeUtf8 c) :=
  ⟨[c], by simpa using allowed, by simp⟩

theorem xmlText_ascii (all : ∀ b ∈ s, b.toNat < 0x80 ∧ isXmlCharacter b.toNat = true) : XmlText s := by
  induction s with
  | nil => exact xmlText_nil
  | cons b s ih =>
    obtain ⟨low, allowed⟩ := all b mem_cons_self
    have first := xmlText_encode allowed
    rw [encodeUtf8_ascii low] at first
    exact first.append (ih fun c mem => all c (mem_cons_of_mem _ mem))

theorem encodeUtf8_cases {c : Nat} (allowed : isXmlCharacter c = true) :
    (∃ b : UInt8, b.toNat < 0x80 ∧ c = b.toNat ∧ encodeUtf8 c = [b]) ∨ ∀ b ∈ encodeUtf8 c, 0x80 ≤ b.toNat := by
  by_cases low : c < 0x80
  · left
    have value : (UInt8.ofNat c).toNat = c := toNat_ofNat_small (by omega)
    have ascii : (UInt8.ofNat c).toNat < 0x80 := by omega
    have encoded := encodeUtf8_ascii ascii
    rw [value] at encoded
    exact ⟨.ofNat c, ascii, value.symm, encoded⟩
  · exact .inr (encodeUtf8_high (isXmlCharacter_scalar allowed) (Nat.le_of_not_lt low))

theorem encodeUtf8_pos (c : Nat) : 0 < (encodeUtf8 c).length := (encodeUnits_length _).1

end

theorem isXmlText_iff (text : Bytes) : isXmlText text = true ↔ XmlText text := by
  constructor
  · have loop : ∀ fuel text, xmlTextLoop fuel text = true → XmlText text := by
      intro fuel
      induction fuel with
      | zero =>
        intro text accepted
        rw [xmlTextLoop, List.isEmpty_iff] at accepted
        subst accepted
        exact xmlText_nil
      | succ fuel ih =>
        intro text accepted
        rw [xmlTextLoop] at accepted
        split at accepted
        · rename_i empty
          subst empty
          exact xmlText_nil
        · dsimp only at accepted
          split at accepted
          · cases accepted
          rename_i fine
          rw [not_or, Bool.not_eq_false, not_not] at fine
          obtain ⟨c, rest, scalar, apart, decoded⟩ := decodeUtf8_ok fine.1
          rw [decoded] at fine accepted
          rw [apart] at accepted ⊢
          rw [drop_left] at accepted
          exact (xmlText_encode fine.2).append (ih rest accepted)
    exact loop _ text
  · exact XmlText.isXmlText

theorem isValidXmlUtf8_iff (text : Bytes) : isValidXmlUtf8 text = true ↔ XmlText text := by
  constructor
  · have loop : ∀ fuel text, validXmlLoop fuel text = true → XmlText text := by
      intro fuel
      induction fuel with
      | zero =>
        intro text accepted
        rw [validXmlLoop, List.isEmpty_iff] at accepted
        subst accepted
        exact xmlText_nil
      | succ fuel ih =>
        intro text accepted
        cases text with
        | nil => exact xmlText_nil
        | cons first rest =>
          rw [validXmlLoop] at accepted
          split at accepted
          · rename_i low
            split at accepted
            · cases accepted
            rename_i allowed
            rw [Bool.not_eq_false] at allowed
            have here := xmlText_encode allowed
            rw [encodeUtf8_ascii (UInt8.lt_iff_toNat_lt.mp low)] at here
            exact here.append (ih rest accepted)
          · dsimp only at accepted
            split at accepted
            · cases accepted
            rename_i fine
            rw [not_or, Bool.not_eq_false, not_not] at fine
            obtain ⟨c, after, scalar, apart, decoded⟩ := decodeUtf8_ok fine.1
            rw [decoded] at fine accepted
            rw [apart] at accepted ⊢
            rw [drop_left] at accepted
            exact (xmlText_encode fine.2).append (ih after accepted)
    exact loop _ text
  · intro ⟨characters, allowed, same⟩
    subst same
    have loop : ∀ fuel, (characters.flatMap encodeUtf8).length ≤ fuel →
        validXmlLoop fuel (characters.flatMap encodeUtf8) = true := by
      induction characters with
      | nil =>
        intro fuel _
        cases fuel <;> simp [validXmlLoop]
      | cons c rest ih =>
        intro fuel enough
        have positive := encodeUtf8_pos c
        rw [flatMap_cons, length_append] at enough
        obtain ⟨fuel, rfl⟩ : ∃ n, fuel = n + 1 := ⟨fuel - 1, by omega⟩
        have here := allowed c mem_cons_self
        have later := ih (fun d mem => allowed d (mem_cons_of_mem _ mem)) fuel (by omega)
        rw [flatMap_cons]
        rcases encodeUtf8_cases here with ⟨b, low, same, encoded⟩ | high
        · rw [encoded, singleton_append, validXmlLoop, if_pos (UInt8.lt_iff_toNat_lt.mpr low), ← same, if_neg (by simp [here])]
          exact later
        obtain ⟨lead, tail, shape⟩ := exists_cons_of_length_pos positive
        have leads : ¬ lead < 0x80 := by
          exact Nat.not_lt.mpr (high lead (by rw [shape]; exact mem_cons_self))
        have decoded := decodeUtf8_encodeUtf8 (isXmlCharacter_scalar here) (rest.flatMap encodeUtf8)
        rw [shape, cons_append] at decoded
        rw [shape, cons_append, validXmlLoop, if_neg leads, decoded]
        simp only [here]
        rw [← cons_append, drop_left]
        exact later
    exact loop _ (Nat.le_refl _)

section

variable {s t : Bytes}

def Ascii (b : UInt8) : Prop := b.toNat < 0x80

instance (b : UInt8) : Decidable (Ascii b) := inferInstanceAs (Decidable (_ < _))

theorem XmlText.cut (text : XmlText (s ++ t)) (boundary : ∀ b, t.head? = some b → Ascii b) : XmlText s ∧ XmlText t := by
  obtain ⟨characters, allowed, same⟩ := text
  induction characters generalizing s with
  | nil =>
    obtain ⟨rfl, rfl⟩ := append_eq_nil_iff.mp same
    exact ⟨xmlText_nil, xmlText_nil⟩
  | cons c rest ih =>
    have here := allowed c mem_cons_self
    have others := fun d mem => allowed d (mem_cons_of_mem c mem)
    rcases append_eq_append_iff.mp same with ⟨more, split, tail⟩ | ⟨more, split, tail⟩
    · -- the cut is inside or right behind the first character
      cases s with
      | nil =>
        subst split
        rw [tail]
        constructor
        · exact xmlText_nil
        · exact (xmlText_encode here).append ⟨rest, others, rfl⟩
      | cons first s =>
        cases more with
        | nil =>
          rw [append_nil] at split
          constructor
          · rw [← split]
            exact xmlText_encode here
          · exact ⟨rest, others, tail⟩
        | cons b more =>
          have low : Ascii b := boundary b (by rw [tail]; rfl)
          rcases encodeUtf8_cases here with ⟨only, _, _, encoded⟩ | high
          · rw [encoded] at split
            have lengths := congrArg length split
            simp only [length_append, length_cons, length_nil] at lengths
            omega
          · have mem : b ∈ encodeUtf8 c := by
              rw [split]
              simp
            exact absurd low (Nat.not_lt.mpr (high b mem))
    · -- the cut is behind the first character
      obtain ⟨before, after⟩ := ih others tail.symm
      constructor
      · rw [split]
        exact (xmlText_encode here).append before
      · exact after

theorem XmlText.tail {b : UInt8} (text : XmlText (b :: t)) (low : Ascii b) : XmlText t := by
  obtain ⟨characters, allowed, same⟩ := text
  cases characters with
  | nil => cases same
  | cons c rest =>
    rw [flatMap_cons] at same
    have others := fun d mem => allowed d (mem_cons_of_mem c mem)
    rcases encodeUtf8_cases (allowed c mem_cons_self) with ⟨only, _, _, encoded⟩ | high
    · rw [encoded] at same
      exact ⟨rest, others, (cons.inj same).2⟩
    obtain ⟨lead, tail, shape⟩ := exists_cons_of_length_pos (encodeUtf8_pos c)
    rw [shape] at same
    have mem : b ∈ encodeUtf8 c := by
      rw [shape, (cons.inj same).1]
      exact mem_cons_self
    exact absurd low (Nat.not_lt.mpr (high b mem))

theorem XmlText.behind (text : XmlText (s ++ t)) (low : ∀ b ∈ s, Ascii b) : XmlText t := by
  induction s with
  | nil => exact text
  | cons b s ih => exact ih (text.tail (low b mem_cons_self)) fun c mem => low c (mem_cons_of_mem _ mem)

end

section

variable {inAttribute : Bool} {s t value : Bytes}

theorem escaped_append (inAttribute : Bool) (s t : Bytes) : escaped inAttribute (s ++ t) = escaped inAttribute s ++ escaped inAttribute t :=
  flatMap_append

theorem escaped_high (high : ∀ b ∈ s, 0x80 ≤ b.toNat) : escaped inAttribute s = s := by
  induction s with
  | nil => rfl
  | cons b s ih =>
    have plain : escapeByte inAttribute b = none := by
      have large := high b mem_cons_self
      have differs {c : UInt8} (low : Ascii c) : b ≠ c := by
        intro same
        subst same
        exact absurd low (Nat.not_lt.mpr large)
      unfold escapeByte
      rw [if_neg (differs (by decide)), if_neg (differs (by decide)), if_neg (differs (by decide)),
        if_neg fun both => differs (by decide) both.1, if_neg fun both => differs (by decide) both.1]
    rw [escaped_cons_none plain, ih fun c mem => high c (mem_cons_of_mem _ mem)]

theorem escapeByte_text {b : UInt8} {replacement : Bytes} (found : escapeByte inAttribute b = some replacement) : XmlText replacement := by
  have all : ∀ replacement ∈ references, ∀ b ∈ replacement, b.toNat < 0x80 ∧ isXmlCharacter b.toNat = true := by decide +kernel
  exact xmlText_ascii (all replacement (escapeByte_references found))

theorem XmlText.escaped (text : XmlText value) : XmlText (escaped inAttribute value) := by
  obtain ⟨characters, allowed, rfl⟩ := text
  induction characters with
  | nil => exact xmlText_nil
  | cons c rest ih =>
    rw [flatMap_cons, escaped_append]
    have here := allowed c mem_cons_self
    refine XmlText.append ?_ (ih fun d mem => allowed d (mem_cons_of_mem _ mem))
    rcases encodeUtf8_cases here with ⟨b, _, same, encoded⟩ | high
    · rw [encoded]
      cases found : escapeByte inAttribute b with
      | some replacement =>
        rw [escaped_cons_some found]
        exact (escapeByte_text found).append xmlText_nil
      | none =>
        have single := xmlText_encode here
        rw [encoded] at single
        rw [escaped_cons_none found]
        exact single
    · rw [escaped_high high]
      exact xmlText_encode here

end

end NginBase.Xml
