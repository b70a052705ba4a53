import NginBase.Json.LexerGrammar
import NginBase.Json.Rendering

namespace NginBase.Json

open Library Grammar List Nat UInt8 Unicode

theorem digit_byte {d : Nat} (small : d < 10) : Digit (.ofNat (0x30 + d)) ∧ (ofNat (0x30 + d)).toNat - 0x30 = d := by
  have value : (ofNat (0x30 + d)).toNat = 0x30 + d := toNat_ofNat_small (by omega)
  refine ⟨⟨?_, ?_⟩, by omega⟩
  · rw [le_iff_toNat_le, value]
    exact le_add_right _ _
  · rw [le_iff_toNat_le, value]
    show 0x30 + d ≤ 0x39
    omega

theorem decimal_append (digits : Bytes) (b : UInt8) : decimal (digits ++ [b]) = decimal digits * 10 + (b.toNat - 0x30) := by
  simp [decimal]

theorem decimal_digits (n : Nat) : decimal ((digits 10 n).reverse.map fun digit => .ofNat (0x30 + digit)) = n := by
  have general (digits : List Nat) (small : ∀ d ∈ digits, d < 10) :
      decimal (digits.reverse.map fun digit => .ofNat (0x30 + digit)) = ofDigits 10 digits := by
    induction digits with
    | nil => rfl
    | cons d rest ih =>
      rw [reverse_cons, map_append, map_singleton, decimal_append,
        ih fun d member => small d (mem_cons_of_mem _ member), (digit_byte (small d mem_cons_self)).2,
        ofDigits_cons, mul_comm, add_comm]
  rw [general _ fun d member => digits_lt_base (by decide) member, ofDigits_digits]

theorem unsignedText_integer (n : Nat) : Integer (unsignedText n) ∧ decimal (unsignedText n) = n := by
  unfold unsignedText
  split
  · rename_i zero
    subst zero
    exact ⟨⟨⟨by simp, by simp [Digit]⟩, fun _ => rfl⟩, rfl⟩
  · rename_i nonzero
    have digits : digits 10 n ≠ [] := digits_ne_nil_iff_ne_zero.mpr nonzero
    refine ⟨⟨⟨by simpa using digits, ?_⟩, ?_⟩, decimal_digits n⟩
    · intro b member
      rcases mem_map.mp member with ⟨d, inside, rfl⟩
      exact (digit_byte (digits_lt_base (by decide) (mem_reverse.mp inside))).1
    · intro zero
      -- the leading digit is not zero
      have last := getLast_digit_ne_zero 10 nonzero
      rw [head?_map, head?_reverse, getLast?_eq_some_getLast digits] at zero
      have small : (Nat.digits 10 n).getLast digits < 10 := Nat.digits_lt_base (by decide) (List.getLast_mem digits)
      have leading := (digit_byte small).2
      have same : UInt8.ofNat (0x30 + (Nat.digits 10 n).getLast digits) = 0x30 := Option.some.inj zero
      rw [same] at leading
      exact absurd leading.symm last

theorem unsignedText_number (fromChars : Bytes → FromCharsDouble) {n : Nat} (small : n < 2 ^ 64) :
    Number fromChars (unsignedText n) (if n ≤ 2 ^ 63 - 1 then .int64 (.ofNat n) else .uint64 (.ofNat n)) := by
  rcases unsignedText_integer n with ⟨integer, value⟩
  refine ⟨[], unsignedText n, [], [], by simp, .inl rfl, integer, .inl rfl, .inl rfl, ?_⟩
  simp only [if_true, signed, value, Int64.ofInt_eq_ofNat, Int.toNat_natCast]
  refine ⟨by omega, by omega, ?_⟩
  have range : (n : Int) ≤ 2 ^ 63 - 1 ↔ n ≤ 2 ^ 63 - 1 := by omega
  simp only [range]

theorem signedText_number (fromChars : Bytes → FromCharsDouble) (value : Int64) :
    Number fromChars (signedText value.toInt) (.int64 value) := by
  have low := value.le_toInt
  have high := value.toInt_lt
  unfold signedText
  split
  · rename_i negative
    rcases unsignedText_integer value.toInt.natAbs with ⟨integer, magnitude⟩
    have signed : signed [0x2D] (unsignedText value.toInt.natAbs) = value.toInt := by
      simp only [signed, cons_ne_nil, if_false]
      omega
    refine ⟨[0x2D], _, [], [], by simp, .inr rfl, integer, .inl rfl, .inl rfl, ?_⟩
    simp only [signed]
    refine ⟨by omega, by omega, ?_⟩
    rw [if_pos (by omega), Int64.ofInt_toInt]
  · rename_i positive
    have small : value.toInt.natAbs ≤ 2 ^ 63 - 1 := by omega
    have number := unsignedText_number fromChars (n := value.toInt.natAbs) (by omega)
    rw [if_pos small, ← Int64.ofInt_eq_ofNat, show (value.toInt.natAbs : Int) = value.toInt by omega,
      Int64.ofInt_toInt] at number
    exact number

def escaped (value : Bytes) : Bytes := value.flatMap fun b => (escapeByte b).getD [b]

theorem escapedRuns_flatten (run value : Bytes) : (escapedRuns run value).flatten = run ++ escaped value := by
  induction value generalizing run with
  | nil => simp [escapedRuns, escaped]
  | cons b rest ih =>
    unfold escapedRuns
    cases found : escapeByte b with
    | some escape => simp [ih, escaped, found]
    | none => simp [ih, escaped, found]

theorem quoted_eq (value : Bytes) : quoted value = 0x22 :: (escaped value ++ [0x22]) := by
  simp [quoted, escapedChunks, escapedRuns_flatten]

theorem escapeByte_none {b : UInt8} (plain : escapeByte b = none) : 0x20 ≤ b ∧ b ≠ 0x22 ∧ b ≠ 0x5C := by
  unfold escapeByte at plain
  split at plain
  · cases plain
  rename_i unnamed
  split at plain
  · cases plain
  rename_i visible
  refine ⟨UInt8.not_lt.mp visible, ?_, ?_⟩
  · rintro rfl
    cases unnamed
  · rintro rfl
    cases unnamed

theorem hexDigit_control {b : UInt8} (control : b < 0x20) :
    Hex4 [0x30, 0x30, hexDigit (b >>> 4), hexDigit (b &&& 0x0F)] b.toNat := by
  have both : ∀ n : Fin 32, HexDigit (hexDigit (UInt8.ofNat n.val >>> 4)) (n.val / 16) ∧
      HexDigit (hexDigit (UInt8.ofNat n.val &&& 0x0F)) (n.val % 16) := by
    unfold HexDigit
    decide
  have small : b.toNat < 32 := UInt8.lt_iff_toNat_lt.mp control
  have digits := both ⟨b.toNat, small⟩
  rw [UInt8.ofNat_toNat] at digits
  have zero : HexDigit 0x30 0 := .inl (by decide)
  exact ⟨_, _, _, _, 0, 0, b.toNat / 16, b.toNat % 16, rfl, zero, zero, digits.1, digits.2, by omega⟩

theorem escapeByte_chars {b : UInt8} {escape s text : Bytes} (found : escapeByte b = some escape)
    (rest : Chars s text) : Chars (escape ++ s) (b :: text) := by
  unfold escapeByte at found
  cases named : namedEscape b with
  | some escape' =>
    simp only [named, Option.some.injEq] at found
    unfold namedEscape at named
    repeat' split at named
    all_goals first | cases named | skip
    all_goals
      subst_vars
      exact .escape (by simp [escapes]) rest
  | none =>
    simp only [named] at found
    split at found
    · rename_i control
      cases found
      have small : b.toNat < 0x20 := lt_iff_toNat_lt.mp control
      have encoded : encodeUtf8 b.toNat = [b] := encodeUtf8_ascii (by omega)
      have unit := Chars.unit (hexDigit_control control) (by unfold HighSurrogate; omega)
        (by unfold LowSurrogate; omega) rest
      rwa [encoded] at unit
    · cases found

theorem escaped_chars (value : Bytes) : Chars (escaped value) value := by
  induction value with
  | nil => exact .nil
  | cons b rest ih =>
    unfold escaped
    rw [flatMap_cons]
    cases found : escapeByte b with
    | some escape => exact escapeByte_chars found ih
    | none =>
      rcases escapeByte_none found with ⟨visible, quote, backslash⟩
      exact .plain visible quote backslash ih

section

open Unicode

theorem hexDigit_ascii {b : UInt8} {n : Nat} (digit : HexDigit b n) : b.toNat < 0x80 := by
  have order (x y : UInt8) : x ≤ y ↔ x.toNat ≤ y.toNat := le_iff_toNat_le
  unfold HexDigit at digit
  simp only [order] at digit
  simp at digit
  omega

theorem hex4_ascii {digits : Bytes} {unit : Nat} (hex : Hex4 digits unit) : ∀ b ∈ digits, b.toNat < 0x80 := by
  rcases hex with ⟨a, b, c, d, k, l, m, n, rfl, first, second, third, fourth, _⟩
  intro x member
  simp only [mem_cons, not_mem_nil, or_false] at member
  rcases member with rfl | rfl | rfl | rfl
  · exact hexDigit_ascii first
  · exact hexDigit_ascii second
  · exact hexDigit_ascii third
  · exact hexDigit_ascii fourth

theorem escapeByte_ascii {b : UInt8} {escape : Bytes} (found : escapeByte b = some escape) :
    b.toNat < 0x80 ∧ ∀ e ∈ escape, e.toNat < 0x80 := by
  unfold escapeByte at found
  cases named : namedEscape b with
  | some escape' =>
    simp only [named, Option.some.injEq] at found
    unfold namedEscape at named
    repeat' split at named
    all_goals first | cases named | skip
    all_goals
      subst_vars
      simp
  | none =>
    simp only [named] at found
    split at found
    · rename_i control
      have small : b.toNat < 0x20 := lt_iff_toNat_lt.mp control
      cases found
      have digits := hex4_ascii (hexDigit_control control)
      refine ⟨by omega, fun e member => ?_⟩
      rcases mem_cons.mp member with rfl | member
      · decide
      · rcases mem_cons.mp member with rfl | member
        · decide
        · exact digits e member
    · cases found

theorem escaped_high {bytes : Bytes} (high : ∀ b ∈ bytes, 0x80 ≤ b.toNat) : escaped bytes = bytes := by
  induction bytes with
  | nil => rfl
  | cons b rest ih =>
    have plain : escapeByte b = none := by
      cases found : escapeByte b with
      | none => rfl
      | some escape =>
        have low := (escapeByte_ascii found).1
        have := high b mem_cons_self
        omega
    have tail := ih fun b member => high b (mem_cons_of_mem _ member)
    unfold escaped at tail ⊢
    rw [flatMap_cons, plain, tail]
    rfl

theorem escaped_append (first second : Bytes) : escaped (first ++ second) = escaped first ++ escaped second := by
  simp [escaped]

theorem escaped_valid {value : Bytes} (valid : ValidUtf8 value) : ValidUtf8 (escaped value) := by
  rcases valid with ⟨codePoints, scalars, rfl⟩
  induction codePoints with
  | nil => exact validUtf8_nil
  | cons c rest ih =>
    have scalar := scalars c mem_cons_self
    rw [flatMap_cons, escaped_append]
    refine ValidUtf8.append ?_ (ih fun c member => scalars c (mem_cons_of_mem _ member))
    by_cases ascii : c < 0x80
    · have byte : (ofNat c).toNat = c := toNat_ofNat_small (by omega)
      have unit : encodeUtf8 c = [ofNat c] := by
        have encoded := encodeUtf8_ascii (b := ofNat c) (by omega)
        rwa [byte] at encoded
      rw [unit]
      apply validUtf8_ascii
      intro e member
      simp only [escaped, flatMap_cons, flatMap_nil, append_nil] at member
      cases found : escapeByte (ofNat c) with
      | some escape =>
        rw [found] at member
        exact (escapeByte_ascii found).2 e member
      | none =>
        rw [found] at member
        cases mem_singleton.mp member
        omega
    · have high := encodeUtf8_high scalar (by omega)
      rw [escaped_high high]
      exact validUtf8_encode scalar

end

section

def Scalar.canonical : Scalar → Scalar
  | .uint64 value => if value.toNat ≤ 2 ^ 63 - 1 then .int64 (.ofNat value.toNat) else .uint64 value
  | scalar => scalar

mutual

def Value.canonical : Value → Value
  | .scalar value => .scalar value.canonical
  | .array elements => .array (canonicalElements elements)
  | .object members => .object (canonicalMembers members)

def canonicalElements : List Value → List Value
  | [] => []
  | element :: rest => element.canonical :: canonicalElements rest

def canonicalMembers : List (Bytes × Value) → List (Bytes × Value)
  | [] => []
  | (key, value) :: rest => (key, value.canonical) :: canonicalMembers rest

end

theorem canonicalElements_map (elements : List Value) : canonicalElements elements = elements.map Value.canonical := by
  induction elements with
  | nil => rfl
  | cons element rest ih => rw [canonicalElements, ih, map_cons]

theorem canonicalMembers_map (members : List (Bytes × Value)) :
    canonicalMembers members = members.map fun member => (member.1, member.2.canonical) := by
  induction members with
  | nil => rfl
  | cons member rest ih => rw [canonicalMembers, ih, map_cons]

def Scalar.NoDouble : Scalar → Prop
  | .double _ => False
  | _ => True

def Value.NoDouble (value : Value) : Prop := value.Holds Scalar.NoDouble fun _ => True

variable (options : WriteOptions) (toChars : F64 → Option Bytes) {fromChars : Bytes → FromCharsDouble}

variable (depth : Nat)

theorem indent_ws : Ws (indent options depth) := by
  unfold indent
  split
  · intro b member
    rcases mem_cons.mp member with rfl | inside
    · exact .inr (.inr (.inl rfl))
    · exact .inl (eq_of_mem_replicate inside)
  · simp [Ws]

theorem scalarText_denotes {value : Scalar} (plain : value.NoDouble) :
    Denotes fromChars (scalarText toChars value) (.scalar value.canonical) := by
  cases value with
  | null => exact .null
  | bool value =>
    cases value
    · exact .false
    · exact .true
  | int64 value => exact .number (signedText_number fromChars value)
  | uint64 value =>
    have number := unsignedText_number fromChars (UInt64.toNat_lt value)
    rw [UInt64.ofNat_toNat] at number
    exact .number number
  | double value => exact plain.elim
  | string text =>
    rw [scalarText, quoted_eq]
    exact .string (escaped_chars text)

theorem itemsText_elements {ι : Type} {text : ι → Bytes} {value : ι → Value} (index : Nat) {items : List ι}
    (nonempty : items ≠ []) (each : ∀ item ∈ items, Denotes fromChars (text item) (value item)) :
    ∃ s, Elements (Denotes fromChars) s (items.map value) ∧
      itemsText options depth index (items.map text) =
        (if index ≠ 0 then [0x2C] else []) ++ (indent options (depth + 1) ++ s) := by
  induction items generalizing index with
  | nil => exact absurd rfl nonempty
  | cons item rest ih =>
    have first := each item mem_cons_self
    cases rest with
    | nil => exact ⟨text item, .one first, by simp [itemsText]⟩
    | cons next rest =>
      rcases ih (index + 1) (by simp) fun item member => each item (mem_cons_of_mem _ member) with ⟨s, elements, rendered⟩
      refine ⟨text item ++ ((0x2C :: indent options (depth + 1)) ++ s), ?_, ?_⟩
      · exact .more first ⟨[], _, rfl, by simp [Ws], indent_ws options (depth + 1)⟩ elements
      · rw [map_cons, itemsText, rendered, if_pos (succ_ne_zero index)]
        simp

theorem itemsText_members {ι : Type} {text : ι → Bytes} {member : ι → Bytes × Value} (index : Nat) {items : List ι}
    (nonempty : items ≠ []) (each : ∀ item ∈ items, Member (Denotes fromChars) (text item) (member item)) :
    ∃ s, Members (Denotes fromChars) s (items.map member) ∧
      itemsText options depth index (items.map text) =
        (if index ≠ 0 then [0x2C] else []) ++ (indent options (depth + 1) ++ s) := by
  induction items generalizing index with
  | nil => exact absurd rfl nonempty
  | cons item rest ih =>
    have first := each item mem_cons_self
    cases rest with
    | nil => exact ⟨text item, .one first, by simp [itemsText]⟩
    | cons next rest =>
      rcases ih (index + 1) (by simp) fun item member => each item (mem_cons_of_mem _ member) with ⟨s, members, rendered⟩
      refine ⟨text item ++ ((0x2C :: indent options (depth + 1)) ++ s), ?_, ?_⟩
      · exact .more first ⟨[], _, rfl, by simp [Ws], indent_ws options (depth + 1)⟩ members
      · rw [map_cons, itemsText, rendered, if_pos (succ_ne_zero index)]
        simp

theorem memberText_member {key text : Bytes} {value : Value} (denotes : Denotes fromChars text value) :
    Member (Denotes fromChars) (memberText options key text) (key, value) := by
  have colon : Structural 0x3A (colonText options) := by
    unfold colonText
    split
    · exact ⟨[], [0x20], rfl, by simp [Ws], by simp [Ws, Blank]⟩
    · exact ⟨[], [], rfl, by simp [Ws], by simp [Ws]⟩
  have pair := Member.pair (escaped_chars key) colon denotes
  rw [memberText, quoted_eq]
  simpa using pair

theorem containerText_array {ι : Type} {text : ι → Bytes} {value : ι → Value} {items : List ι}
    (each : ∀ item ∈ items, Denotes fromChars (text item) (value item)) :
    Denotes fromChars (containerText options depth 0x5B 0x5D (items.map text)) (.array (items.map value)) := by
  cases items with
  | nil => exact .emptyArray (by simp [Ws])
  | cons item rest =>
    rcases itemsText_elements options depth 0 (by simp) each with ⟨s, elements, rendered⟩
    have denotes := Denotes.array (indent_ws options (depth + 1)) elements (indent_ws options depth)
    rw [containerText, rendered]
    simpa using denotes

theorem containerText_object {ι : Type} {text : ι → Bytes} {member : ι → Bytes × Value} {items : List ι}
    (each : ∀ item ∈ items, Member (Denotes fromChars) (text item) (member item)) :
    Denotes fromChars (containerText options depth 0x7B 0x7D (items.map text)) (.object (items.map member)) := by
  cases items with
  | nil => exact .emptyObject (by simp [Ws])
  | cons item rest =>
    rcases itemsText_members options depth 0 (by simp) each with ⟨s, members, rendered⟩
    have denotes := Denotes.object (indent_ws options (depth + 1)) members (indent_ws options depth)
    rw [containerText, rendered]
    simpa using denotes

theorem render_denotes {value : Value} (plain : value.NoDouble) :
    Denotes fromChars (render options toChars depth value) value.canonical := by
  induction value using Value.induct generalizing depth with
  | scalar value => exact scalarText_denotes toChars plain
  | array elements ih =>
    have inside := (Value.holds_array _ _ elements).mp plain
    rw [render, Value.canonical, Writer.renderElements_map, canonicalElements_map]
    exact containerText_array options depth fun element member => ih element member (depth + 1) (inside element member)
  | object members ih =>
    have inside := ((Value.holds_object _ _ members).mp plain).2
    rw [render, Value.canonical, Writer.renderMembers_map, canonicalMembers_map]
    exact containerText_object options depth fun member found =>
      memberText_member options (ih member found (depth + 1) (inside member found))

def Value.Encodable (value : Value) : Prop :=
  value.Holds (fun scalar => ∀ text, scalar = .string text → isValidUtf8 text = true)
    fun keys => ∀ key ∈ keys, isValidUtf8 key = true

section

open Unicode

theorem quoted_valid {text : Bytes} (valid : isValidUtf8 text = true) : ValidUtf8 (quoted text) := by
  have quote : ValidUtf8 [0x22] := validUtf8_ascii (by simp)
  have inner := (quote.append (escaped_valid ((isValidUtf8_iff text).mp valid))).append quote
  rw [quoted_eq]
  simpa using inner

variable (depth : Nat)

theorem indent_valid : ValidUtf8 (indent options depth) := by
  apply validUtf8_ascii
  intro b member
  rcases indent_ws options depth b member with rfl | rfl | rfl | rfl <;> decide

theorem itemsText_valid (index : Nat) {items : List Bytes} (each : ∀ item ∈ items, ValidUtf8 item) :
    ValidUtf8 (itemsText options depth index items) := by
  induction items generalizing index with
  | nil => exact validUtf8_nil
  | cons item rest ih =>
    have comma : ValidUtf8 (if index ≠ 0 then [0x2C] else []) := by
      split
      · exact validUtf8_ascii (by simp)
      · exact validUtf8_nil
    have tail := ih (index + 1) fun item member => each item (mem_cons_of_mem _ member)
    exact comma.append ((indent_valid options (depth + 1)).append ((each item mem_cons_self).append tail))

theorem containerText_valid {first last : UInt8} {items : List Bytes} (ascii : first.toNat < 0x80)
    (ascii' : last.toNat < 0x80) (each : ∀ item ∈ items, ValidUtf8 item) :
    ValidUtf8 (containerText options depth first last items) := by
  have closing : ValidUtf8 (if items.isEmpty then [] else indent options depth) := by
    split
    · exact validUtf8_nil
    · exact indent_valid options depth
  have before : ValidUtf8 [first] := validUtf8_ascii (by simpa using ascii)
  have behind : ValidUtf8 [last] := validUtf8_ascii (by simpa using ascii')
  exact before.append ((itemsText_valid options depth 0 each).append (closing.append behind))

theorem unsignedText_valid (n : Nat) : ValidUtf8 (unsignedText n) := by
  apply validUtf8_ascii
  intro b member
  have high : b.toNat ≤ 0x39 := le_iff_toNat_le.mp ((unsignedText_integer n).1.1.2 b member).2
  omega

theorem scalarText_valid {value : Scalar} (plain : value.NoDouble)
    (valid : ∀ text, value = .string text → isValidUtf8 text = true) : ValidUtf8 (scalarText toChars value) := by
  cases value with
  | null => exact validUtf8_ascii (by simp [scalarText, nullLiteral])
  | bool value => cases value <;> exact validUtf8_ascii (by simp [scalarText, boolLiteral])
  | int64 value =>
    rw [scalarText, signedText]
    split
    · have minus : ValidUtf8 [0x2D] := validUtf8_ascii (by simp)
      exact minus.append (unsignedText_valid _)
    · exact unsignedText_valid _
  | uint64 value => exact unsignedText_valid _
  | double value => exact plain.elim
  | string text => exact quoted_valid (valid text rfl)

theorem colonText_valid : ValidUtf8 (colonText options) := by
  unfold colonText
  split <;> exact validUtf8_ascii (by simp)

theorem render_valid {value : Value} (plain : value.NoDouble) (valid : value.Encodable) :
    ValidUtf8 (render options toChars depth value) := by
  induction value using Value.induct generalizing depth with
  | scalar value => exact scalarText_valid toChars plain valid
  | array elements ih =>
    have plain := (Value.holds_array _ _ elements).mp plain
    have valid := (Value.holds_array _ _ elements).mp valid
    rw [render, Writer.renderElements_map]
    apply containerText_valid options depth (by decide) (by decide)
    intro item member
    rcases mem_map.mp member with ⟨element, found, rfl⟩
    exact ih element found (depth + 1) (plain element found) (valid element found)
  | object members ih =>
    have plain := ((Value.holds_object _ _ members).mp plain).2
    rcases (Value.holds_object _ _ members).mp valid with ⟨keys, valid⟩
    rw [render, Writer.renderMembers_map]
    apply containerText_valid options depth (by decide) (by decide)
    intro item member
    rcases mem_map.mp member with ⟨pair, found, rfl⟩
    have key := quoted_valid (keys pair.1 (mem_map_of_mem found))
    exact key.append ((colonText_valid options).append
      (ih pair found (depth + 1) (plain pair found) (valid pair found)))

end

end

end NginBase.Json
