import NginBase.Text.Utf8

namespace NginBase.Unicode

section

open Nat

def isHighSurrogate (value : UInt16) : Bool := 0xD800 ≤ value && value ≤ 0xDBFF

def isLowSurrogate (value : UInt16) : Bool := 0xDC00 ≤ value && value ≤ 0xDFFF

def decodeUtf16 : List UInt16 → DecodeResult
  | [] => ⟨0, 0, .unexpectedEnd⟩
  | first :: rest =>
    if ¬ isHighSurrogate first then
      if isLowSurrogate first then ⟨0, 1, .unpairedSurrogate⟩ else ⟨first.toNat, 1, .none⟩
    else
      match rest with
      | [] => ⟨0, 1, .unexpectedEnd⟩
      | second :: _ =>
        if ¬ isLowSurrogate second then ⟨0, 1, .unpairedSurrogate⟩
        else
          let high := first.toNat - 0xD800
          let low := second.toNat - 0xDC00
          ⟨0x10000 + ((high <<< 10) ||| low), 2, .none⟩

def encodeUtf16 (codePoint : Nat) : List UInt16 :=
  let value := sanitizeForEncoding codePoint
  if value ≤ 0xFFFF then [.ofNat value]
  else
    let shifted := value - 0x10000
    [.ofNat (0xD800 + shifted >>> 10), .ofNat (0xDC00 + (shifted &&& 0x3FF))]

/-- The loop of `IsValidUtf16`; every round consumes at least one unit. -/
def validUtf16Loop : Nat → List UInt16 → Bool
  | 0, input => input.isEmpty
  | fuel + 1, input =>
    if input = [] then true
    else
      match (decodeUtf16 input).error with
      | .none => validUtf16Loop fuel (input.drop (decodeUtf16 input).unitsConsumed)
      | _ => false

def isValidUtf16 (input : List UInt16) : Bool := validUtf16Loop input.length input

def encodeUtf32 (codePoint : Nat) : List UInt32 := [.ofNat (sanitizeForEncoding codePoint)]

def isValidUtf32 (input : List UInt32) : Bool := input.all fun value => isValidCodePoint value.toNat

theorem isHighSurrogate_iff (unit : UInt16) : isHighSurrogate unit = true ↔ 0xD800 ≤ unit.toNat ∧ unit.toNat ≤ 0xDBFF := by
  simp [isHighSurrogate, UInt16.le_iff_toNat_le]

theorem isLowSurrogate_iff (unit : UInt16) : isLowSurrogate unit = true ↔ 0xDC00 ≤ unit.toNat ∧ unit.toNat ≤ 0xDFFF := by
  simp [isLowSurrogate, UInt16.le_iff_toNat_le]

theorem toNat_ofNat_unit {n : Nat} (small : n < 65536) : (UInt16.ofNat n).toNat = n := by
  simp [mod_eq_of_lt small]

theorem sanitize_scalar {c : Nat} (scalar : IsScalar c) : sanitizeForEncoding c = c := if_pos scalar

theorem encodeUtf16_unit {c : Nat} (scalar : IsScalar c) (small : c ≤ 0xFFFF) : encodeUtf16 c = [.ofNat c] := by
  simp only [encodeUtf16, sanitize_scalar scalar, small, if_true]

theorem encodeUtf16_pair {c : Nat} (scalar : IsScalar c) (large : 0xFFFF < c) :
    encodeUtf16 c = [.ofNat (0xD800 + (c - 0x10000) / 1024), .ofNat (0xDC00 + (c - 0x10000) % 1024)] := by
  have mask := and_two_pow_sub_one_eq_mod (c - 0x10000) 10
  simp only [encodeUtf16, sanitize_scalar scalar, not_le.mpr large, if_false, shiftRight_eq_div_pow,
    reducePow, mask]

theorem decodeUtf16_unit {first : UInt16} {rest : List UInt16} (plain : ¬ (0xD800 ≤ first.toNat ∧ first.toNat ≤ 0xDFFF)) :
    decodeUtf16 (first :: rest) = ⟨first.toNat, 1, .none⟩ := by
  have notHigh : ¬ isHighSurrogate first = true := by
    rw [isHighSurrogate_iff]
    omega
  have notLow : ¬ isLowSurrogate first = true := by
    rw [isLowSurrogate_iff]
    omega
  cases rest <;> simp only [decodeUtf16, notHigh, notLow, not_false_eq_true, if_true, if_false, Bool.false_eq_true]

theorem decodeUtf16_pair {first second : UInt16} {rest : List UInt16} (high : isHighSurrogate first = true)
    (low : isLowSurrogate second = true) : decodeUtf16 (first :: second :: rest) =
      ⟨0x10000 + ((first.toNat - 0xD800) * 1024 + (second.toNat - 0xDC00)), 2, .none⟩ := by
  have range := (isLowSurrogate_iff second).mp low
  have joined := or_add (first.toNat - 0xD800) (second.toNat - 0xDC00) 10 (by omega)
  simp only [reducePow] at joined
  simp only [decodeUtf16, high, low, not_true_eq_false, if_false, shiftLeft_eq, reducePow, mul_comm _ 1024,
    joined]

theorem decodeUtf16_encodeUtf16 {c : Nat} (scalar : IsScalar c) (rest : List UInt16) :
    decodeUtf16 (encodeUtf16 c ++ rest) = ⟨c, (encodeUtf16 c).length, .none⟩ := by
  obtain ⟨bound, plain⟩ := (isScalar_iff c).mp scalar
  by_cases small : c ≤ 0xFFFF
  · have unit := toNat_ofNat_unit (show c < 65536 by omega)
    rw [encodeUtf16_unit scalar small, List.cons_append, decodeUtf16_unit (by omega), unit]
    rfl
  · have high := toNat_ofNat_unit (show 0xD800 + (c - 0x10000) / 1024 < 65536 by omega)
    have low := toNat_ofNat_unit (show 0xDC00 + (c - 0x10000) % 1024 < 65536 by omega)
    have isHigh := (isHighSurrogate_iff (.ofNat (0xD800 + (c - 0x10000) / 1024))).mpr (by omega)
    have isLow := (isLowSurrogate_iff (.ofNat (0xDC00 + (c - 0x10000) % 1024))).mpr (by omega)
    rw [encodeUtf16_pair scalar (by omega), List.cons_append, List.cons_append, decodeUtf16_pair isHigh isLow, high, low]
    have value : 0x10000 + ((0xD800 + (c - 0x10000) / 1024 - 0xD800) * 1024 +
        (0xDC00 + (c - 0x10000) % 1024 - 0xDC00)) = c := by omega
    rw [value]
    rfl

theorem decodeUtf16_ok {input : List UInt16} (ok : (decodeUtf16 input).error = .none) :
    ∃ c rest, IsScalar c ∧ input = encodeUtf16 c ++ rest ∧
      decodeUtf16 input = ⟨c, (encodeUtf16 c).length, .none⟩ := by
  suffices apart : ∃ c rest, IsScalar c ∧ input = encodeUtf16 c ++ rest by
    obtain ⟨c, rest, scalar, rfl⟩ := apart
    exact ⟨c, rest, scalar, rfl, decodeUtf16_encodeUtf16 scalar rest⟩
  cases input with
  | nil => cases ok
  | cons first rest =>
    have bound := first.toNat_lt
    by_cases high : isHighSurrogate first = true
    · cases rest with
      | nil => simp [decodeUtf16, high] at ok
      | cons second rest =>
        by_cases low : isLowSurrogate second = true
        · have range := (isHighSurrogate_iff first).mp high
          have range' := (isLowSurrogate_iff second).mp low
          have scalar : IsScalar (0x10000 + ((first.toNat - 0xD800) * 1024 + (second.toNat - 0xDC00))) :=
            (isScalar_iff _).mpr (by omega)
          refine ⟨_, rest, scalar, ?_⟩
          have unit : UInt16.ofNat first.toNat = first := UInt16.ofNat_toNat
          have unit' : UInt16.ofNat second.toNat = second := UInt16.ofNat_toNat
          rw [encodeUtf16_pair scalar (by omega)]
          have upper : 0xD800 + (0x10000 + ((first.toNat - 0xD800) * 1024 + (second.toNat - 0xDC00)) - 0x10000) / 1024 =
              first.toNat := by omega
          have lower : 0xDC00 + (0x10000 + ((first.toNat - 0xD800) * 1024 + (second.toNat - 0xDC00)) - 0x10000) % 1024 =
              second.toNat := by omega
          rw [upper, lower, unit, unit']
          rfl
        · simp [decodeUtf16, high, low] at ok
    · by_cases low : isLowSurrogate first = true
      · simp [decodeUtf16, high, low] at ok
      · rw [isHighSurrogate_iff] at high
        rw [isLowSurrogate_iff] at low
        have scalar : IsScalar first.toNat := (isScalar_iff _).mpr (by omega)
        exact ⟨first.toNat, rest, scalar, by rw [encodeUtf16_unit scalar (by omega), UInt16.ofNat_toNat]; rfl⟩

end

open List

inductive ErrorPolicy
  | strict
  | replace
  | skip
  deriving DecidableEq

structure ConversionError where
  error : EncodingError
  inputOffset : Nat
  deriving DecidableEq

def clampConsumed (consumed remaining : Nat) : Nat := if consumed = 0 then 1 else min consumed remaining

variable {α β : Type}

section

/-- The loop of the conversions from UTF-8 and from UTF-16. It is given a number of rounds, and returns nothing
    if they do not suffice. -/
def convertLoop (decode : List α → DecodeResult) (append : Nat → List β) (policy : ErrorPolicy) :
    Nat → List α → Nat → List β → Option (Except ConversionError (List β))
  | _, [], _, output => some (.ok output)
  | 0, _ :: _, _, _ => none
  | rounds + 1, input, offset, output =>
    let decoded := decode input
    let clamped := clampConsumed decoded.unitsConsumed input.length
    if decoded.error = .none then
      convertLoop decode append policy rounds (input.drop decoded.unitsConsumed) (offset + decoded.unitsConsumed)
        (output ++ append decoded.codePoint)
    else
      match policy with
      | .strict => some (.error ⟨decoded.error, offset⟩)
      | .replace =>
        convertLoop decode append policy rounds (input.drop clamped) (offset + clamped)
          (output ++ append replacementCharacter)
      | .skip => convertLoop decode append policy rounds (input.drop clamped) (offset + clamped) output

def countLoop (policy : ErrorPolicy) : Nat → Bytes → Nat → Nat → Option (Except ConversionError Nat)
  | _, [], _, count => some (.ok count)
  | 0, _ :: _, _, _ => none
  | rounds + 1, input, offset, count =>
    let decoded := decodeUtf8 input
    let clamped := clampConsumed decoded.unitsConsumed input.length
    if decoded.error = .none then
      countLoop policy rounds (input.drop decoded.unitsConsumed) (offset + decoded.unitsConsumed) (count + 1)
    else
      match policy with
      | .strict => some (.error ⟨decoded.error, offset⟩)
      | .replace => countLoop policy rounds (input.drop clamped) (offset + clamped) (count + 1)
      | .skip => countLoop policy rounds (input.drop clamped) (offset + clamped) count

def convertCodePoints (append : Nat → List β) (policy : ErrorPolicy) :
    List UInt32 → Nat → List β → Except ConversionError (List β)
  | [], _, output => .ok output
  | unit :: input, offset, output =>
    if isValidCodePoint unit.toNat then convertCodePoints append policy input (offset + 1) (output ++ append unit.toNat)
    else
      match policy with
      | .strict => .error ⟨if isSurrogate unit.toNat then .surrogateCodePoint else .codePointTooLarge, offset⟩
      | .replace => convertCodePoints append policy input (offset + 1) (output ++ append replacementCharacter)
      | .skip => convertCodePoints append policy input (offset + 1) output

variable (policy : ErrorPolicy)

def toUtf32FromUtf8 (input : Bytes) : Option (Except ConversionError (List UInt32)) :=
  convertLoop decodeUtf8 encodeUtf32 policy input.length input 0 []

def toUtf32FromUtf16 (input : List UInt16) : Option (Except ConversionError (List UInt32)) :=
  convertLoop decodeUtf16 encodeUtf32 policy input.length input 0 []

def toUtf16FromUtf8 (input : Bytes) : Option (Except ConversionError (List UInt16)) :=
  convertLoop decodeUtf8 encodeUtf16 policy input.length input 0 []

def toUtf16FromUtf32 (input : List UInt32) : Option (Except ConversionError (List UInt16)) :=
  some (convertCodePoints encodeUtf16 policy input 0 [])

def toUtf8FromUtf16 (input : List UInt16) : Option (Except ConversionError Bytes) :=
  convertLoop decodeUtf16 encodeUtf8 policy input.length input 0 []

def toUtf8FromUtf32 (input : List UInt32) : Option (Except ConversionError Bytes) :=
  some (convertCodePoints encodeUtf8 policy input 0 [])

def countCodePoints (input : Bytes) : Option (Except ConversionError Nat) := countLoop policy input.length input 0 0

end

def Encoded (encode : Nat → List α) (text : List α) : Prop :=
  ∃ codePoints : List Nat, (∀ c ∈ codePoints, IsScalar c) ∧ text = codePoints.flatMap encode

/-- A decoder that takes apart exactly what its encoder puts together. -/
structure Exact (decode : List α → DecodeResult) (encode : Nat → List α) : Prop where
  decodes : ∀ {c}, IsScalar c → ∀ rest, decode (encode c ++ rest) = ⟨c, (encode c).length, .none⟩
  encoded : ∀ {input}, (decode input).error = .none →
    ∃ c rest, IsScalar c ∧ input = encode c ++ rest ∧ decode input = ⟨c, (encode c).length, .none⟩
  positive : ∀ c, 0 < (encode c).length

theorem exactUtf8 : Exact decodeUtf8 encodeUtf8 where
  decodes := decodeUtf8_encodeUtf8
  encoded := decodeUtf8_ok
  positive c := (encodeUnits_length (sanitizeForEncoding c)).1

theorem exactUtf16 : Exact decodeUtf16 encodeUtf16 where
  decodes := decodeUtf16_encodeUtf16
  encoded := decodeUtf16_ok
  positive c := by
    unfold encodeUtf16
    dsimp only
    split <;> simp

theorem Encoded.nil (encode : Nat → List α) : Encoded encode [] := ⟨[], by simp⟩

theorem Encoded.snoc {encode : Nat → List α} {text : List α} {c : Nat} (encoded : Encoded encode text)
    (scalar : IsScalar c) : Encoded encode (text ++ encode c) := by
  obtain ⟨cs, scalars, rfl⟩ := encoded
  refine ⟨cs ++ [c], ?_, by simp⟩
  intro d mem
  rcases mem_append.mp mem with inside | last
  · exact scalars d inside
  · rw [mem_singleton.mp last]
    exact scalar

theorem scalar_replacement : IsScalar replacementCharacter := by decide

section

variable {decode : List α → DecodeResult} {encode : Nat → List α} (exact : Exact decode encode)

include exact

theorem convertLoop_encoded (append : Nat → List β) (policy : ErrorPolicy) {cs : List Nat} (scalars : ∀ c ∈ cs, IsScalar c)
    (rounds offset : Nat) (output : List β) (enough : (cs.flatMap encode).length ≤ rounds) :
    convertLoop decode append policy rounds (cs.flatMap encode) offset output =
      some (.ok (output ++ cs.flatMap append)) := by
  induction cs generalizing rounds offset output with
  | nil => cases rounds <;> simp [convertLoop]
  | cons c cs ih =>
    have scalar := scalars c (by simp)
    have positive := exact.positive c
    rw [flatMap_cons, length_append] at enough
    obtain ⟨rounds, rfl⟩ : ∃ n, rounds = n + 1 := ⟨rounds - 1, by omega⟩
    have present : ∃ u us, encode c ++ cs.flatMap encode = u :: us := by
      cases units : encode c with
      | nil => simp [units] at positive
      | cons u us => exact ⟨u, us ++ cs.flatMap encode, rfl⟩
    obtain ⟨u, us, shape⟩ := present
    have decoded := exact.decodes scalar (cs.flatMap encode)
    have next := ih (fun d mem => scalars d (by simp [mem])) rounds (offset + (encode c).length)
      (output ++ append c) (by omega)
    rw [flatMap_cons, shape]
    unfold convertLoop
    rw [← shape, decoded, if_pos rfl]
    rw [drop_left, next, flatMap_cons, append_assoc]

theorem convertLoop_total (append : Nat → List β) {policy : ErrorPolicy} (lenient : policy ≠ .strict) (rounds : Nat) :
    ∀ (input : List α) (offset : Nat) (output : List β), input.length ≤ rounds → Encoded append output →
      ∃ result, convertLoop decode append policy rounds input offset output = some (.ok result) ∧
        Encoded append result := by
  induction rounds with
  | zero =>
    intro input offset output enough encoded
    cases input with
    | nil => exact ⟨output, rfl, encoded⟩
    | cons unit input => simp at enough
  | succ rounds ih =>
    intro input offset output enough encoded
    cases input with
    | nil => exact ⟨output, rfl, encoded⟩
    | cons unit rest =>
      have clamped : 0 < clampConsumed (decode (unit :: rest)).unitsConsumed (unit :: rest).length := by
        unfold clampConsumed
        rw [length_cons]
        split <;> omega
      have less : ((unit :: rest).drop (clampConsumed (decode (unit :: rest)).unitsConsumed
          (unit :: rest).length)).length ≤ rounds := by
        rw [length_drop]
        omega
      unfold convertLoop
      by_cases ok : (decode (unit :: rest)).error = .none
      · obtain ⟨c, tail, scalar, shape, decoded⟩ := exact.encoded ok
        have positive := exact.positive c
        rw [decoded]
        dsimp only
        apply ih
        · rw [length_drop]
          omega
        · exact encoded.snoc scalar
      · rw [if_neg ok]
        cases policy with
        | strict => exact absurd rfl lenient
        | replace => exact ih _ _ _ less (encoded.snoc scalar_replacement)
        | skip => exact ih _ _ _ less encoded

end

theorem convertCodePoints_encoded (append : Nat → List β) (policy : ErrorPolicy) {cs : List Nat}
    (scalars : ∀ c ∈ cs, IsScalar c) (offset : Nat) (output : List β) :
    convertCodePoints append policy (cs.flatMap encodeUtf32) offset output = .ok (output ++ cs.flatMap append) := by
  induction cs generalizing offset output with
  | nil => simp [convertCodePoints]
  | cons c cs ih =>
    have scalar := scalars c (by simp)
    have bound := ((isScalar_iff c).mp scalar).1
    have valid : isValidCodePoint c = true := scalar
    have unit : (UInt32.ofNat (sanitizeForEncoding c)).toNat = c := by
      rw [sanitize_scalar scalar, UInt32.toNat_ofNat', Nat.mod_eq_of_lt (by omega)]
    rw [flatMap_cons, encodeUtf32, singleton_append]
    unfold convertCodePoints
    rw [unit, if_pos valid, ih (fun d mem => scalars d (by simp [mem])), flatMap_cons, append_assoc]

theorem convertCodePoints_total (append : Nat → List β) {policy : ErrorPolicy} (lenient : policy ≠ .strict)
    (input : List UInt32) (offset : Nat) (output : List β) (encoded : Encoded append output) :
    ∃ result, convertCodePoints append policy input offset output = .ok result ∧ Encoded append result := by
  induction input generalizing offset output with
  | nil => exact ⟨output, rfl, encoded⟩
  | cons unit input ih =>
    unfold convertCodePoints
    by_cases valid : isValidCodePoint unit.toNat = true
    · rw [if_pos valid]
      exact ih _ _ (encoded.snoc valid)
    rw [if_neg valid]
    cases policy with
    | strict => exact absurd rfl lenient
    | replace => exact ih _ _ (encoded.snoc scalar_replacement)
    | skip => exact ih _ _ encoded

theorem isValidUtf32_iff (text : List UInt32) : isValidUtf32 text = true ↔ Encoded encodeUtf32 text := by
  rw [isValidUtf32, all_eq_true]
  constructor
  · intro valid
    refine ⟨text.map UInt32.toNat, by simpa [IsScalar] using valid, ?_⟩
    induction text with
    | nil => rfl
    | cons unit text ih =>
      have scalar : IsScalar unit.toNat := valid unit (by simp)
      have rest := ih fun d mem => valid d (by simp [mem])
      rw [map_cons, flatMap_cons, ← rest, encodeUtf32, sanitize_scalar scalar, UInt32.ofNat_toNat]
      rfl
  · rintro ⟨cs, scalars, rfl⟩ unit mem
    obtain ⟨c, inside, encoded⟩ := mem_flatMap.mp mem
    have scalar := scalars c inside
    have bound := ((isScalar_iff c).mp scalar).1
    rw [encodeUtf32, mem_singleton, sanitize_scalar scalar] at encoded
    rw [encoded, UInt32.toNat_ofNat', Nat.mod_eq_of_lt (by omega)]
    exact scalar

theorem validUtf16Loop_encode {c : Nat} (scalar : IsScalar c) (fuel : Nat) (rest : List UInt16) :
    validUtf16Loop (fuel + 1) (encodeUtf16 c ++ rest) = validUtf16Loop fuel rest := by
  have nonempty : encodeUtf16 c ++ rest ≠ [] := by
    intro empty
    have positive := exactUtf16.positive c
    rw [(append_eq_nil_iff.mp empty).1] at positive
    exact absurd positive (by decide)
  rw [validUtf16Loop, if_neg nonempty, decodeUtf16_encodeUtf16 scalar rest]
  simp

theorem validUtf16Loop_encoded (fuel : Nat) (input : List UInt16) (accepted : validUtf16Loop fuel input = true) :
    Encoded encodeUtf16 input := by
  induction fuel generalizing input with
  | zero =>
    rw [validUtf16Loop, List.isEmpty_iff] at accepted
    rw [accepted]
    exact Encoded.nil _
  | succ fuel ih =>
    rw [validUtf16Loop] at accepted
    by_cases empty : input = []
    · rw [empty]
      exact Encoded.nil _
    rw [if_neg empty] at accepted
    cases error : (decodeUtf16 input).error <;> rw [error] at accepted <;> try cases accepted
    obtain ⟨c, rest, scalar, apart, decoded⟩ := decodeUtf16_ok error
    rw [decoded, apart] at accepted
    simp only [drop_left] at accepted
    obtain ⟨cs, scalars, rfl⟩ := ih rest accepted
    exact ⟨c :: cs, forall_mem_cons.mpr ⟨scalar, scalars⟩, apart⟩

theorem isValidUtf16_iff (input : List UInt16) : isValidUtf16 input = true ↔ Encoded encodeUtf16 input := by
  constructor
  · exact validUtf16Loop_encoded _ input
  · rintro ⟨cs, scalars, rfl⟩
    have loop : ∀ fuel, (cs.flatMap encodeUtf16).length ≤ fuel → validUtf16Loop fuel (cs.flatMap encodeUtf16) = true := by
      induction cs with
      | nil => intro fuel _; cases fuel <;> simp [validUtf16Loop]
      | cons c cs ih =>
        intro fuel enough
        have positive := exactUtf16.positive c
        rw [flatMap_cons, length_append] at enough
        obtain ⟨fuel, rfl⟩ : ∃ n, fuel = n + 1 := ⟨fuel - 1, by omega⟩
        rw [flatMap_cons, validUtf16Loop_encode (scalars c (by simp))]
        exact ih (fun d mem => scalars d (by simp [mem])) fuel (by omega)
    exact loop _ (Nat.le_refl _)

def MutuallyInverse (valid : List α → Bool) (valid' : List β → Bool)
    (convert : List α → Option (Except ConversionError (List β)))
    (convert' : List β → Option (Except ConversionError (List α))) : Prop :=
  (∀ text, valid text = true →
    ∃ text', convert text = some (.ok text') ∧ valid' text' = true ∧ convert' text' = some (.ok text)) ∧
  ∀ text', valid' text' = true →
    ∃ text, convert' text' = some (.ok text) ∧ valid text = true ∧ convert text = some (.ok text')

def Cleans (valid : List β → Bool) (convert : List α → Option (Except ConversionError (List β))) : Prop :=
  ∀ input, ∃ output, convert input = some (.ok output) ∧ valid output = true

theorem mutuallyInverse {encode : Nat → List α} {encode' : Nat → List β} {valid : List α → Bool} {valid' : List β → Bool}
    {convert : List α → Option (Except ConversionError (List β))}
    {convert' : List β → Option (Except ConversionError (List α))}
    (iff : ∀ text, valid text = true ↔ Encoded encode text) (iff' : ∀ text, valid' text = true ↔ Encoded encode' text)
    (converts : ∀ cs : List Nat, (∀ c ∈ cs, IsScalar c) → convert (cs.flatMap encode) = some (.ok (cs.flatMap encode')))
    (converts' : ∀ cs : List Nat, (∀ c ∈ cs, IsScalar c) → convert' (cs.flatMap encode') = some (.ok (cs.flatMap encode))) :
    MutuallyInverse valid valid' convert convert' := by
  constructor
  · intro text accepted
    obtain ⟨cs, scalars, rfl⟩ := (iff text).mp accepted
    exact ⟨_, converts cs scalars, (iff' _).mpr ⟨cs, scalars, rfl⟩, converts' cs scalars⟩
  · intro text accepted
    obtain ⟨cs, scalars, rfl⟩ := (iff' text).mp accepted
    exact ⟨_, converts' cs scalars, (iff _).mpr ⟨cs, scalars, rfl⟩, converts cs scalars⟩

theorem convertLoop_cleans {decode : List α → DecodeResult} {encode : Nat → List α} (exact : Exact decode encode)
    {append : Nat → List β} {valid : List β → Bool} (iff : ∀ text, valid text = true ↔ Encoded append text)
    {policy : ErrorPolicy} (lenient : policy ≠ .strict) :
    Cleans valid fun input => convertLoop decode append policy input.length input 0 [] := by
  intro input
  obtain ⟨output, ends, encoded⟩ :=
    convertLoop_total exact append lenient input.length input 0 [] (Nat.le_refl _) (Encoded.nil _)
  exact ⟨output, ends, (iff output).mpr encoded⟩

theorem convertCodePoints_cleans {append : Nat → List β} {valid : List β → Bool}
    (iff : ∀ text, valid text = true ↔ Encoded append text) {policy : ErrorPolicy} (lenient : policy ≠ .strict) :
    Cleans valid fun input => some (convertCodePoints append policy input 0 []) := by
  intro input
  obtain ⟨output, ends, encoded⟩ := convertCodePoints_total append lenient input 0 [] (Encoded.nil _)
  exact ⟨output, congrArg some ends, (iff output).mpr encoded⟩

theorem convertLoop_converts {decode : List α → DecodeResult} {encode : Nat → List α} (exact : Exact decode encode)
    (append : Nat → List β) (cs : List Nat) (scalars : ∀ c ∈ cs, IsScalar c) :
    convertLoop decode append .strict (cs.flatMap encode).length (cs.flatMap encode) 0 [] =
      some (.ok (cs.flatMap append)) :=
  convertLoop_encoded exact append .strict scalars _ 0 [] (Nat.le_refl _)

theorem convertCodePoints_converts (append : Nat → List β) (cs : List Nat) (scalars : ∀ c ∈ cs, IsScalar c) :
    some (convertCodePoints append .strict (cs.flatMap encodeUtf32) 0 []) = some (.ok (cs.flatMap append)) :=
  congrArg some (convertCodePoints_encoded append .strict scalars 0 [])

/-- The decoders invert the encoders before any further input, validation accepts exactly the concatenations of
    encodings, the strict conversions are inverse to each other, and the lenient ones always end in a valid
    text. -/
theorem unicode_codecs_exact :
    (∀ c, IsScalar c → ∀ rest, decodeUtf8 (encodeUtf8 c ++ rest) = ⟨c, (encodeUtf8 c).length, .none⟩) ∧
    (∀ c, IsScalar c → ∀ rest, decodeUtf16 (encodeUtf16 c ++ rest) = ⟨c, (encodeUtf16 c).length, .none⟩) ∧
    (∀ text, isValidUtf8 text = true ↔ Encoded encodeUtf8 text) ∧
    (∀ text, isValidUtf16 text = true ↔ Encoded encodeUtf16 text) ∧
    MutuallyInverse isValidUtf8 isValidUtf16 (toUtf16FromUtf8 .strict) (toUtf8FromUtf16 .strict) ∧
    MutuallyInverse isValidUtf8 isValidUtf32 (toUtf32FromUtf8 .strict) (toUtf8FromUtf32 .strict) ∧
    MutuallyInverse isValidUtf16 isValidUtf32 (toUtf32FromUtf16 .strict) (toUtf16FromUtf32 .strict) ∧
    ∀ policy, policy ≠ .strict →
      Cleans isValidUtf32 (toUtf32FromUtf8 policy) ∧ Cleans isValidUtf32 (toUtf32FromUtf16 policy) ∧
      Cleans isValidUtf16 (toUtf16FromUtf8 policy) ∧ Cleans isValidUtf16 (toUtf16FromUtf32 policy) ∧
      Cleans isValidUtf8 (toUtf8FromUtf16 policy) ∧ Cleans isValidUtf8 (toUtf8FromUtf32 policy) := by
  refine ⟨fun c => decodeUtf8_encodeUtf8, fun c => decodeUtf16_encodeUtf16, isValidUtf8_iff, isValidUtf16_iff, ?_, ?_, ?_, ?_⟩
  · exact mutuallyInverse isValidUtf8_iff isValidUtf16_iff (convertLoop_converts exactUtf8 _)
      (convertLoop_converts exactUtf16 _)
  · exact mutuallyInverse isValidUtf8_iff isValidUtf32_iff (convertLoop_converts exactUtf8 _) (convertCodePoints_converts _)
  · exact mutuallyInverse isValidUtf16_iff isValidUtf32_iff (convertLoop_converts exactUtf16 _) (convertCodePoints_converts _)
  · intro policy lenient
    exact ⟨convertLoop_cleans exactUtf8 isValidUtf32_iff lenient, convertLoop_cleans exactUtf16 isValidUtf32_iff lenient,
      convertLoop_cleans exactUtf8 isValidUtf16_iff lenient, convertCodePoints_cleans isValidUtf16_iff lenient,
      convertLoop_cleans exactUtf16 isValidUtf8_iff lenient, convertCodePoints_cleans isValidUtf8_iff lenient⟩

theorem unicode_codecs_exact_euro : decodeUtf8 (encodeUtf8 0x20AC ++ [0x41]) = ⟨0x20AC, 3, .none⟩ ∧
    ∃ output, toUtf8FromUtf16 .replace [0xD800, 0x41] = some (.ok output) ∧ isValidUtf8 output = true := by
  obtain ⟨first, -, -, -, -, -, -, last⟩ := unicode_codecs_exact
  exact ⟨first 0x20AC (by decide) [0x41], (last .replace (by decide)).2.2.2.2.1 [0xD800, 0x41]⟩

end NginBase.Unicode
