import NginBase.Xml.Escape

namespace NginBase.Xml

open Library List Option Writer StreamWriter Unicode Nat

section

def normalizeLines : Bytes → Bytes
  | [] => []
  | b :: rest =>
    if b = 0x0D then if rest.head? = some 0x0A then normalizeLines rest else 0x0A :: normalizeLines rest
    else b :: normalizeLines rest

theorem normalizeLines_eq_iff (value : Bytes) : normalizeLines value = value ↔ 0x0D ∉ value := by
  constructor
  · have clean : 0x0D ∉ normalizeLines value := by
      induction value with
      | nil => exact not_mem_nil
      | cons b rest ih =>
        unfold normalizeLines
        split
        · split
          · exact ih
          · simpa using ih
        · rename_i other
          simpa [Ne.symm other] using ih
    intro same
    rwa [same] at clean
  · intro plain
    induction value with
    | nil => rfl
    | cons b rest ih =>
      rw [mem_cons, not_or] at plain
      rw [normalizeLines, if_neg (Ne.symm plain.1), ih plain.2]

variable (inAttribute : Bool)

def escaped (value : Bytes) : Bytes := value.flatMap fun b => (escapeByte inAttribute b).getD [b]

theorem escapedRuns_flatten (run value : Bytes) : (escapedRuns inAttribute run value).flatten = run ++ escaped inAttribute value := by
  induction value generalizing run with
  | nil => simp [escapedRuns, escaped]
  | cons b rest ih =>
    unfold escapedRuns
    cases found : escapeByte inAttribute b with
    | some replacement => simp [ih, escaped, found]
    | none => simp [ih, escaped, found]

variable {inAttribute} {b : UInt8} {value : Bytes}

theorem escapeByte_some {replacement : Bytes} (found : escapeByte inAttribute b = some replacement) :
    ∃ name, replacement = 0x26 :: (name ++ [0x3B]) ∧ 0x3B ∉ name ∧ decodeEntity name = .ok [b] := by
  unfold escapeByte at found
  split at found
  · rename_i same
    subst same
    exact ⟨[0x61, 0x6D, 0x70], (some.inj found).symm, by decide, by decide⟩
  · split at found
    · rename_i same
      subst same
      exact ⟨[0x6C, 0x74], (some.inj found).symm, by decide, by decide⟩
    · split at found
      · rename_i same
        subst same
        exact ⟨[0x67, 0x74], (some.inj found).symm, by decide, by decide⟩
      · split at found
        · rename_i same
          obtain ⟨rfl, _⟩ := same
          exact ⟨[0x71, 0x75, 0x6F, 0x74], (some.inj found).symm, by decide, by decide⟩
        · split at found
          · rename_i same
            obtain ⟨rfl, _⟩ := same
            exact ⟨[0x61, 0x70, 0x6F, 0x73], (some.inj found).symm, by decide, by decide⟩
          · contradiction

theorem escapeByte_none (plain : escapeByte inAttribute b = none) :
    b ≠ 0x26 ∧ b ≠ 0x3C ∧ b ≠ 0x3E ∧ (inAttribute = true → b ≠ 0x22) := by
  refine ⟨?_, ?_, ?_, ?_⟩
  · rintro rfl
    simp [escapeByte] at plain
  · rintro rfl
    simp [escapeByte] at plain
  · rintro rfl
    simp [escapeByte] at plain
  · rintro inside rfl
    simp [escapeByte, inside] at plain

theorem escaped_cons_some {replacement : Bytes} (found : escapeByte inAttribute b = some replacement) :
    escaped inAttribute (b :: value) = replacement ++ escaped inAttribute value := by
  rw [escaped, flatMap_cons, found]
  rfl

theorem escaped_cons_none (plain : escapeByte inAttribute b = none) :
    escaped inAttribute (b :: value) = b :: escaped inAttribute value := by
  rw [escaped, flatMap_cons, plain]
  rfl

theorem escaped_head : (escaped inAttribute value).head? = some 0x0A ↔ value.head? = some 0x0A := by
  cases value with
  | nil => exact Iff.rfl
  | cons b rest =>
    cases found : escapeByte inAttribute b with
    | none => rw [escaped_cons_none found, head?_cons, head?_cons]
    | some replacement =>
      obtain ⟨name, rfl, _, _⟩ := escapeByte_some found
      rw [escaped_cons_some found, cons_append, head?_cons]
      apply iff_of_false (by decide)
      intro same
      rw [some.inj same] at found
      simp [escapeByte] at found

theorem decodeStep_reference (size read : Nat) {replacement rest : Bytes} (found : escapeByte inAttribute b = some replacement) :
    decodeStep size read (replacement ++ rest) = .ok ([b], replacement.length) := by
  obtain ⟨name, rfl, absent, decoded⟩ := escapeByte_some found
  have semicolon : find [0x3B] (name ++ 0x3B :: rest) = some name.length := by
    rw [find_skip absent, show find [0x3B] (0x3B :: rest) = some 0 from if_pos (prefix_append [0x3B] rest)]
    simp
  have shape : 0x26 :: (name ++ [0x3B]) ++ rest = 0x26 :: (name ++ 0x3B :: rest) := by simp
  rw [shape, decodeStep, semicolon]
  simp only [take_left, decoded]
  simp

theorem decode_escaped (size : Nat) {fuel : Nat} (enough : (escaped inAttribute value).length ≤ fuel) (read : Nat) :
    translate (decodeStep size) fuel read (escaped inAttribute value) = .ok (normalizeLines value) := by
  induction fuel generalizing value read with
  | zero =>
    cases value with
    | nil => rfl
    | cons b rest =>
      cases found : escapeByte inAttribute b with
      | none =>
        rw [escaped_cons_none found] at enough
        contradiction
      | some replacement =>
        obtain ⟨name, rfl, _⟩ := escapeByte_some found
        rw [escaped_cons_some found] at enough
        contradiction
  | succ fuel ih =>
    cases value with
    | nil => rfl
    | cons b rest =>
      cases found : escapeByte inAttribute b with
      | some replacement =>
        have return_ : b ≠ 0x0D := by
          rintro rfl
          simp [escapeByte] at found
        have nonempty : 0 < replacement.length := by
          obtain ⟨name, rfl, _⟩ := escapeByte_some found
          exact succ_pos _
        rw [escaped_cons_some found, length_append] at enough
        rw [escaped_cons_some found, normalizeLines, if_neg return_]
        apply translate_step (succ_pos _) (by simp [ne_nil_of_length_pos nonempty]) (decodeStep_reference size read found)
        rw [drop_left]
        exact ih (by omega) _
      | none =>
        rw [escaped_cons_none found] at enough ⊢
        simp only [length_cons] at enough
        by_cases return_ : b = 0x0D
        · subst return_
          by_cases feed : rest.head? = some 0x0A
          · obtain ⟨rest, rfl⟩ : ∃ tail, rest = 0x0A :: tail := ⟨rest.tail, eq_cons_of_mem_head? feed⟩
            have plain : escapeByte inAttribute 0x0A = none := by simp [escapeByte]
            rw [escaped_cons_none plain] at enough ⊢
            simp only [length_cons] at enough
            have stepped : decodeStep size read (0x0D :: 0x0A :: escaped inAttribute rest) = .ok ([0x0A], 2) := by simp [decodeStep]
            exact translate_step (succ_pos _) (cons_ne_nil _ _) stepped (ih (by omega) _)
          · have stepped : decodeStep size read (0x0D :: escaped inAttribute rest) = .ok ([0x0A], 1) := by
              simp [decodeStep, escaped_head, feed]
            rw [normalizeLines, if_neg feed]
            exact translate_step (succ_pos _) (cons_ne_nil _ _) stepped (ih (by omega) _)
        · have stepped : decodeStep size read (b :: escaped inAttribute rest) = .ok ([b], 1) := by
            simp [decodeStep, return_, (escapeByte_none found).1]
          rw [normalizeLines, if_neg return_]
          exact translate_step (succ_pos _) (cons_ne_nil _ _) stepped (ih (by omega) _)

theorem decodeXmlText_escaped (inAttribute : Bool) (value : Bytes) :
    decodeXmlText (escaped inAttribute value) = .ok (normalizeLines value) :=
  decode_escaped _ (le_refl _) 0

end

section

variable {inAttribute : Bool} {value : Bytes}

def references : List Bytes := [[0x26, 0x61, 0x6D, 0x70, 0x3B], [0x26, 0x6C, 0x74, 0x3B], [0x26, 0x67, 0x74, 0x3B],
  [0x26, 0x71, 0x75, 0x6F, 0x74, 0x3B], [0x26, 0x61, 0x70, 0x6F, 0x73, 0x3B]]

theorem escapeByte_references {c : UInt8} {replacement : Bytes} (found : escapeByte inAttribute c = some replacement) :
    replacement ∈ references := by
  unfold escapeByte at found
  split at found
  · rw [← some.inj found]
    exact .head _
  split at found
  · rw [← some.inj found]
    exact .tail _ (.head _)
  split at found
  · rw [← some.inj found]
    exact .tail _ (.tail _ (.head _))
  split at found
  · rw [← some.inj found]
    exact .tail _ (.tail _ (.tail _ (.head _)))
  split at found
  · rw [← some.inj found]
    exact .tail _ (.tail _ (.tail _ (.tail _ (.head _))))
  · cases found

theorem escapeByte_mem {b c : UInt8} {replacement : Bytes} (found : escapeByte inAttribute c = some replacement)
    (mem : b ∈ replacement) : b ≠ 0x3C ∧ b ≠ 0x3E ∧ b ≠ 0x22 := by
  have all : ∀ replacement ∈ references, ∀ b ∈ replacement, b ≠ (0x3C : UInt8) ∧ b ≠ 0x3E ∧ b ≠ 0x22 := by decide +kernel
  exact all replacement (escapeByte_references found) b mem

theorem escaped_mem {b : UInt8} (mem : b ∈ escaped inAttribute value) :
    b ≠ 0x3C ∧ b ≠ 0x3E ∧ (inAttribute = true → b ≠ 0x22) := by
  obtain ⟨c, _, written⟩ := mem_flatMap.mp mem
  cases found : escapeByte inAttribute c with
  | some replacement =>
    rw [found] at written
    obtain ⟨open_, close, quote⟩ := escapeByte_mem found written
    exact ⟨open_, close, fun _ => quote⟩
  | none =>
    rw [found] at written
    obtain rfl := mem_singleton.mp written
    exact (escapeByte_none found).2

theorem escaped_plain (plain : 0x26 ∉ escaped inAttribute value) : escaped inAttribute value = value := by
  induction value with
  | nil => rfl
  | cons b rest ih =>
    cases found : escapeByte inAttribute b with
    | some replacement =>
      obtain ⟨name, rfl, _⟩ := escapeByte_some found
      rw [escaped_cons_some found] at plain
      exact absurd mem_cons_self plain
    | none =>
      rw [escaped_cons_none found] at plain ⊢
      rw [ih fun mem => plain (mem_cons_of_mem _ mem)]

theorem decoded_escaped :
    (if needsDecode (escaped inAttribute value) then (decodeXmlText (escaped inAttribute value)).toOption
      else some (escaped inAttribute value)) = some (normalizeLines value) := by
  split
  case isTrue => rw [decodeXmlText_escaped]; rfl
  case isFalse plain =>
    simp only [needsDecode, Bool.or_eq_true, contains_iff_mem, not_or] at plain
    have same := escaped_plain plain.1
    rw [same] at plain
    rw [same, (normalizeLines_eq_iff value).mpr plain.2]

theorem readBack_escaped (profile : Profile) (offset : Nat) (rest : Bytes) :
    readBack profile inAttribute offset (escaped inAttribute value) rest = some (normalizeLines value) := by
  have less : 0x3C ∉ escaped inAttribute value := fun mem => (escaped_mem mem).1 rfl
  have greater : 0x3E ∉ escaped inAttribute value := fun mem => (escaped_mem mem).2.1 rfl
  unfold readBack
  cases inAttribute with
  | true =>
    have quote : 0x22 ∉ escaped true value := fun mem => (escaped_mem mem).2.2 rfl rfl
    have length : find [0x22] (escaped true value ++ 0x22 :: rest) = some (escaped true value).length := by
      rw [find_skip quote, find_here]
      simp
    have later : find [0x3C] (escaped true value ++ 0x22 :: rest) = _ := find_skip less (0x22 :: rest)
    simp only [if_true, Cursor.scanValue, length, later]
    cases find [0x3C] (0x22 :: rest) with
    | none => simp only [map_none, take_left]; exact decoded_escaped
    | some lessThan =>
      simp only [map_some]
      rw [if_neg (by omega)]
      simp only [take_left]
      exact decoded_escaped
  | false =>
    have length : find [0x3C] (escaped false value ++ 0x3C :: rest) = some (escaped false value).length := by
      rw [find_skip less, find_here]
      simp
    have clean : find [0x5D, 0x5D, 0x3E] (escaped false value) = none := find_absent (by simp) greater
    simp only [Bool.false_eq_true, if_false, Cursor.scanText, Cursor.characterData, length, getD_some, take_left, clean,
      isSome_none]
    exact decoded_escaped

end

section

variable (inAttribute : Bool) (value : Bytes)

theorem Writer.escape_writes (options : WriteOptions) :
    Writes options.maxOutputBytes (escape options inAttribute value) (escaped inAttribute value)
      (isValidUtf8 value = true) := by
  have appends (text : Bytes) : Writes options.maxOutputBytes (fun output => append options output text) text True :=
    Writes.append options.maxOutputBytes _ text
  have runs := Writes.all appends (escapedRuns inAttribute [] value)
  rw [escapedRuns_flatten] at runs
  exact (runs.guard (isValidUtf8 value = false) _).mono (by simp)

theorem escapedRuns_ne_nil (run : Bytes) : escapedRuns inAttribute run value ≠ [] := by
  induction value generalizing run with
  | nil => exact cons_ne_nil _ _
  | cons b rest ih =>
    unfold escapedRuns
    cases escapeByte inAttribute b with
    | some replacement => exact cons_ne_nil _ _
    | none => exact ih _

theorem Writer.escape_ok {options : WriteOptions} {output output' : Bytes}
    (written : escape options inAttribute value output = .ok output') : output' = output ++ escaped inAttribute value := by
  by_cases room : output.length ≤ options.maxOutputBytes
  · exact ((escape_writes inAttribute value options).only output output' room written).2.1
  -- nothing can be appended to an output that is too long
  obtain ⟨run, runs, same⟩ := exists_cons_of_ne_nil (escapedRuns_ne_nil inAttribute value [])
  unfold escape at written
  split at written
  · contradiction
  rw [same, foldlM_cons, append, if_pos (.inl (Nat.lt_of_not_le room))] at written
  contradiction

variable {inAttribute value} {options : WriteOptions} {takes : Bytes → Bytes → Bool} {sink sink' : Sink}

theorem StreamWriter.append_ok {text : Bytes} (written : append options takes sink text = (.ok (), sink')) :
    sink'.output = sink.output ++ text := by
  unfold append at written
  split at written
  · cases written
  split at written
  · cases written
  split at written
  · cases written
  cases written
  rfl

theorem StreamWriter.appendAll_ok {texts : List Bytes} (written : appendAll options takes sink texts = (.ok (), sink')) :
    sink'.output = sink.output ++ texts.flatten := by
  induction texts generalizing sink with
  | nil =>
    cases written
    simp
  | cons text rest ih =>
    unfold appendAll at written
    split at written
    case h_1 middle first => rw [ih written, append_ok first, flatten_cons, append_assoc]
    case h_2 other => exact absurd written (other sink')

theorem StreamWriter.escape_ok (written : escape options takes inAttribute value sink = (.ok (), sink')) :
    sink'.output = sink.output ++ escaped inAttribute value := by
  unfold escape at written
  split at written
  · cases written
  · rw [appendAll_ok written, escapedRuns_flatten, nil_append]

theorem StreamWriter.appendAll_room {texts : List Bytes} (working : sink.failed = false)
    (room : sink.output.length + texts.flatten.length ≤ options.maxOutputBytes) (accepts : ∀ before text, takes before text = true) :
    appendAll options takes sink texts = (.ok (), { sink with output := sink.output ++ texts.flatten }) := by
  induction texts generalizing sink with
  | nil => simp [appendAll]
  | cons text rest ih =>
    rw [flatten_cons, length_append] at room
    have first : append options takes sink text = (.ok (), { sink with output := sink.output ++ text }) := by
      unfold append
      rw [working, if_neg (by decide), if_neg (by omega), if_neg (by simp [accepts])]
    have later : ({ sink with output := sink.output ++ text } : Sink).output.length + rest.flatten.length ≤ options.maxOutputBytes := by
      rw [length_append]
      omega
    have done : appendAll options takes { sink with output := sink.output ++ text } rest = _ := ih working later
    rw [appendAll, first]
    simp only [done, flatten_cons, append_assoc]

theorem isXmlCharacter_scalar {c : Nat} (allowed : isXmlCharacter c = true) : IsScalar c := by
  apply (isScalar_iff c).mpr
  simp only [isXmlCharacter, Bool.or_eq_true, Bool.and_eq_true, decide_eq_true_eq] at allowed
  omega

section

variable (text : XmlText value)

include text

theorem XmlText.valid : isValidUtf8 value = true := by
  obtain ⟨characters, allowed, rfl⟩ := text
  apply (isValidUtf8_iff _).mpr
  exact ⟨characters, fun c mem => isXmlCharacter_scalar (allowed c mem), rfl⟩

theorem XmlText.isXmlText : isXmlText value = true := by
  obtain ⟨characters, allowed, rfl⟩ := text
  have loop : ∀ fuel, (characters.flatMap encodeUtf8).length ≤ fuel →
      xmlTextLoop fuel (characters.flatMap encodeUtf8) = true := by
    induction characters with
    | nil =>
      intro fuel _
      cases fuel <;> simp [xmlTextLoop]
    | cons c rest ih =>
      intro fuel enough
      have positive : 0 < (encodeUtf8 c).length := (encodeUnits_length (sanitizeForEncoding c)).1
      rw [flatMap_cons, length_append] at enough
      obtain ⟨fuel, rfl⟩ : ∃ n, fuel = n + 1 := ⟨fuel - 1, by omega⟩
      have allowed' := allowed c mem_cons_self
      rw [flatMap_cons, xmlTextLoop, if_neg (by simp [ne_nil_of_length_pos positive]),
        decodeUtf8_encodeUtf8 (isXmlCharacter_scalar allowed')]
      simp only [allowed', drop_left]
      exact ih (fun d mem => allowed d (mem_cons_of_mem _ mem)) fuel (by omega)
  exact loop _ (le_refl _)

theorem Writer.roundTrips_iff : Writer.RoundTrips inAttribute value ↔ 0x0D ∉ value := by
  rw [← normalizeLines_eq_iff]
  constructor
  · intro good
    let options : WriteOptions := { maxOutputBytes := (escaped inAttribute value).length }
    have wrote : escape options inAttribute value [] = .ok (escaped inAttribute value) :=
      (escape_writes inAttribute value options).ok [] text.valid (le_of_eq (zero_add _))
    obtain ⟨written, same, reads⟩ := good options [] _ wrote
    obtain rfl : escaped inAttribute value = written := same
    exact some.inj ((readBack_escaped {} 0 []).symm.trans (reads {} 0 []))
  · intro same options output output' wrote
    refine ⟨_, escape_ok inAttribute value wrote, fun profile offset rest => ?_⟩
    rw [readBack_escaped, same]

theorem StreamWriter.roundTrips_iff : RoundTrips inAttribute value ↔ 0x0D ∉ value := by
  rw [← normalizeLines_eq_iff]
  constructor
  · intro good
    let options : WriteOptions := { maxOutputBytes := (escaped inAttribute value).length }
    have runs := escapedRuns_flatten inAttribute [] value
    have wrote : escape options (fun _ _ => true) inAttribute value {} = (.ok (), { output := escaped inAttribute value }) := by
      unfold escape hasInvalidXmlByte
      rw [text.isXmlText, appendAll_room rfl (by rw [runs]; exact le_of_eq (zero_add _)) fun _ _ => rfl, runs]
      rfl
    obtain ⟨written, same, reads⟩ := good options _ {} _ wrote
    obtain rfl : escaped inAttribute value = written := same
    exact some.inj ((readBack_escaped {} 0 []).symm.trans (reads {} 0 []))
  · intro same options takes sink sink' wrote
    refine ⟨_, escape_ok wrote, fun profile offset rest => ?_⟩
    rw [readBack_escaped, same]

end

/-- A value comes back from a text and from an attribute exactly when it holds no carriage return. -/
theorem escape_round_trips_iff (value : Bytes) (text : XmlText value) (inAttribute : Bool) :
    (Writer.RoundTrips inAttribute value ↔ 0x0D ∉ value) ∧ (StreamWriter.RoundTrips inAttribute value ↔ 0x0D ∉ value) :=
  ⟨roundTrips_iff text, roundTrips_iff text⟩

theorem escape_round_trips_less : Writer.RoundTrips false [0x61, 0x3C, 0x62] ∧ StreamWriter.RoundTrips true [0x61, 0x3C, 0x62] := by
  have text : XmlText [0x61, 0x3C, 0x62] := ⟨[0x61, 0x3C, 0x62], by decide, by decide⟩
  exact ⟨(escape_round_trips_iff _ text false).1.mpr (by decide), (escape_round_trips_iff _ text true).2.mpr (by decide)⟩

theorem carriage_return_lost : XmlText [0x0D] ∧ escape {} false [0x0D] [] = .ok [0x0D] ∧
    readBack {} false 0 [0x0D] [] = some [0x0A] ∧ escape {} true [0x0D] [] = .ok [0x0D] ∧
    readBack {} true 0 [0x0D] [] = some [0x0A] := by
  refine ⟨⟨[0x0D], by decide, by decide⟩, ?_, ?_, ?_, ?_⟩
  · decide +kernel
  · decide +kernel
  · decide +kernel
  · decide +kernel

end

end NginBase.Xml
