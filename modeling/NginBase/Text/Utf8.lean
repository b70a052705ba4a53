import Mathlib

namespace NginBase

open List Nat UInt8

abbrev Bytes := List UInt8

namespace Unicode

inductive EncodingError
  | none
  | unexpectedEnd
  | invalidSequence
  | overlongSequence
  | surrogateCodePoint
  | codePointTooLarge
  | unpairedSurrogate
  deriving DecidableEq

structure DecodeResult where
  codePoint : Nat
  unitsConsumed : Nat
  error : EncodingError

def isSurrogate (value : Nat) : Bool := 0xD800 ≤ value && value ≤ 0xDFFF

def maxCodePoint : Nat := 0x10FFFF

def replacementCharacter : Nat := 0xFFFD

def isValidCodePoint (value : Nat) : Bool := value ≤ maxCodePoint && !isSurrogate value

def sanitizeForEncoding (value : Nat) : Nat :=
  if isValidCodePoint value then value else replacementCharacter

/-- Length of the sequence a lead byte announces, with the least code point of that length. -/
def leadShape (lead : UInt8) : Option (Nat × Nat) :=
  if 0xC0 ≤ lead ∧ lead ≤ 0xDF then some (2, 0x80)
  else if 0xE0 ≤ lead ∧ lead ≤ 0xEF then some (3, 0x800)
  else if 0xF0 ≤ lead ∧ lead ≤ 0xF7 then some (4, 0x10000)
  else none

/-- Fold `n` continuation bytes into the code point; on a byte that is none, its index. -/
def continuations : Nat → Bytes → Nat → Nat → Except Nat Nat
  | 0, _, codePoint, _ => .ok codePoint
  | _ + 1, [], _, index => .error index
  | n + 1, byte :: rest, codePoint, index =>
    if byte &&& 0xC0 ≠ 0x80 then .error index
    else continuations n rest ((codePoint <<< 6) ||| (byte &&& 0x3F).toNat) (index + 1)

def decodeUtf8 : Bytes → DecodeResult
  | [] => ⟨0, 0, .unexpectedEnd⟩
  | lead :: rest =>
    if lead ≤ 0x7F then ⟨lead.toNat, 1, .none⟩
    else
      match leadShape lead with
      | none => ⟨0, 1, .invalidSequence⟩
      | some (expectedUnits, minCodePoint) =>
        if rest.length + 1 < expectedUnits then ⟨0, rest.length + 1, .unexpectedEnd⟩
        else
          match continuations (expectedUnits - 1) rest
              (lead.toNat &&& (1 <<< (8 - expectedUnits - 1) - 1)) 1 with
          | .error index => ⟨0, index, .invalidSequence⟩
          | .ok codePoint =>
            if codePoint < minCodePoint then ⟨0, expectedUnits, .overlongSequence⟩
            else if isSurrogate codePoint then ⟨0, expectedUnits, .surrogateCodePoint⟩
            else if maxCodePoint < codePoint then ⟨0, expectedUnits, .codePointTooLarge⟩
            else ⟨codePoint, expectedUnits, .none⟩

/-- The two to four bytes both encoders of the repository write for a code point. -/
def encodeUnits (value : Nat) : Bytes :=
  if value ≤ 0x7F then [.ofNat value]
  else if value ≤ 0x7FF then [.ofNat (0xC0 ||| value >>> 6), .ofNat (0x80 ||| value &&& 0x3F)]
  else if value ≤ 0xFFFF then
    [.ofNat (0xE0 ||| value >>> 12), .ofNat (0x80 ||| (value >>> 6) &&& 0x3F),
      .ofNat (0x80 ||| value &&& 0x3F)]
  else
    [.ofNat (0xF0 ||| value >>> 18), .ofNat (0x80 ||| (value >>> 12) &&& 0x3F),
      .ofNat (0x80 ||| (value >>> 6) &&& 0x3F), .ofNat (0x80 ||| value &&& 0x3F)]

def encodeUtf8 (codePoint : Nat) : Bytes := encodeUnits (sanitizeForEncoding codePoint)

/-- The loop of `IsValidUtf8`; every round consumes at least one byte. -/
def validUtf8Loop : Nat → Bytes → Bool
  | 0, input => input.isEmpty
  | fuel + 1, input =>
    if input = [] then true
    else
      match (decodeUtf8 input).error with
      | .none => validUtf8Loop fuel (input.drop (decodeUtf8 input).unitsConsumed)
      | _ => false

def isValidUtf8 (input : Bytes) : Bool := validUtf8Loop input.length input

def IsScalar (codePoint : Nat) : Prop := isValidCodePoint codePoint = true

instance (codePoint : Nat) : Decidable (IsScalar codePoint) :=
  inferInstanceAs (Decidable (isValidCodePoint codePoint = true))

def ValidUtf8 (input : Bytes) : Prop :=
  ∃ codePoints : List Nat, (∀ c ∈ codePoints, IsScalar c) ∧ input = codePoints.flatMap encodeUtf8

theorem isScalar_iff (c : Nat) : IsScalar c ↔ c ≤ 0x10FFFF ∧ ¬ (0xD800 ≤ c ∧ c ≤ 0xDFFF) := by
  simp only [IsScalar, isValidCodePoint, isSurrogate, Bool.and_eq_true, decide_eq_true_eq,
    Bool.not_eq_true', Bool.and_eq_false_iff, decide_eq_false_iff_not]
  unfold maxCodePoint
  omega

theorem encodeUtf8_scalar {c : Nat} (scalar : IsScalar c) : encodeUtf8 c = encodeUnits c :=
  congrArg encodeUnits (if_pos scalar)

theorem continuation_iff (byte : UInt8) : byte &&& 0xC0 = 0x80 ↔ 0x80 ≤ byte.toNat ∧ byte.toNat < 0xC0 := by
  have all : ∀ b : BitVec 8, b &&& 0xC0#8 = 0x80#8 ↔ 0x80 ≤ b.toNat ∧ b.toNat < 0xC0 := by decide
  rw [← UInt8.toBitVec_inj]
  simpa using all byte.toBitVec

theorem continuation_low (byte : UInt8) : (byte &&& 0x3F).toNat = byte.toNat % 64 := by
  exact and_two_pow_sub_one_eq_mod _ 6

theorem or_add (high low k : Nat) (small : low < 2 ^ k) : 2 ^ k * high ||| low = 2 ^ k * high + low :=
  (two_pow_add_eq_or_of_lt small high).symm

theorem shift_or (codePoint low : Nat) (small : low < 64) : (codePoint <<< 6) ||| low = codePoint * 64 + low := by
  rw [shiftLeft_eq, mul_comm, or_add codePoint low 6 small]

theorem mask_low (value : Nat) : value &&& 0x3F = value % 64 := and_two_pow_sub_one_eq_mod _ 6

theorem encodeUnits_two (v : Nat) (low : 0x7F < v) (high : v ≤ 0x7FF) :
    encodeUnits v = [.ofNat (0xC0 + v / 64), .ofNat (0x80 + v % 64)] := by
  have first := or_add 3 (v / 64) 6 (by omega)
  have second := or_add 1 (v % 64) 7 (by omega)
  simp only [reducePow] at first second
  have notOne : ¬ v ≤ 0x7F := by omega
  simp only [encodeUnits, notOne, high, if_true, if_false, shiftRight_eq_div_pow, reducePow,
    mask_low, first, second]

theorem encodeUnits_three (v : Nat) (low : 0x7FF < v) (high : v ≤ 0xFFFF) : encodeUnits v =
      [.ofNat (0xE0 + v / 4096), .ofNat (0x80 + v / 64 % 64), .ofNat (0x80 + v % 64)] := by
  have first := or_add 14 (v / 4096) 4 (by omega)
  have second := or_add 1 (v / 64 % 64) 7 (by omega)
  have third := or_add 1 (v % 64) 7 (by omega)
  simp only [reducePow] at first second third
  have notOne : ¬ v ≤ 0x7F := by omega
  have notTwo : ¬ v ≤ 0x7FF := by omega
  simp only [encodeUnits, notOne, notTwo, high, if_true, if_false, shiftRight_eq_div_pow, reducePow,
    mask_low, first, second, third]

theorem encodeUnits_four (v : Nat) (low : 0xFFFF < v) (high : v ≤ 0x10FFFF) : encodeUnits v =
      [.ofNat (0xF0 + v / 262144), .ofNat (0x80 + v / 4096 % 64), .ofNat (0x80 + v / 64 % 64), .ofNat (0x80 + v % 64)] := by
  have first := or_add 30 (v / 262144) 3 (by omega)
  have second := or_add 1 (v / 4096 % 64) 7 (by omega)
  have third := or_add 1 (v / 64 % 64) 7 (by omega)
  have fourth := or_add 1 (v % 64) 7 (by omega)
  simp only [reducePow] at first second third fourth
  have notOne : ¬ v ≤ 0x7F := by omega
  have notTwo : ¬ v ≤ 0x7FF := by omega
  have notThree : ¬ v ≤ 0xFFFF := by omega
  simp only [encodeUnits, notOne, notTwo, notThree, if_false, shiftRight_eq_div_pow, reducePow,
    mask_low, first, second, third, fourth]

theorem leadShape_two (lead : UInt8) (low : 0xC0 ≤ lead.toNat) (high : lead.toNat ≤ 0xDF) :
    leadShape lead = some (2, 0x80) := by
  simp [leadShape, le_iff_toNat_le, low, high]

theorem leadShape_three (lead : UInt8) (low : 0xE0 ≤ lead.toNat) (high : lead.toNat ≤ 0xEF) :
    leadShape lead = some (3, 0x800) := by
  have notTwo : ¬ lead.toNat ≤ 0xDF := by omega
  simp [leadShape, le_iff_toNat_le, low, high, notTwo]

theorem leadShape_four (lead : UInt8) (low : 0xF0 ≤ lead.toNat) (high : lead.toNat ≤ 0xF7) :
    leadShape lead = some (4, 0x10000) := by
  have notTwo : ¬ lead.toNat ≤ 0xDF := by omega
  have notThree : ¬ lead.toNat ≤ 0xEF := by omega
  simp [leadShape, le_iff_toNat_le, low, high, notTwo, notThree]

theorem continuations_cons (count : Nat) (byte : UInt8) (rest : Bytes) (codePoint index : Nat)
    (low : 0x80 ≤ byte.toNat) (high : byte.toNat < 0xC0) : continuations (count + 1) (byte :: rest) codePoint index =
      continuations count rest (codePoint * 64 + byte.toNat % 64) (index + 1) := by
  have tail : byte &&& 0xC0 = 0x80 := (continuation_iff byte).mpr ⟨low, high⟩
  rw [continuations]
  simp only [tail, ne_eq, not_true_eq_false, if_false, continuation_low,
    shift_or _ _ (mod_lt _ (by decide : 0 < 64))]

theorem continuations_ok {count : Nat} {bytes : Bytes} {codePoint index result : Nat}
    (h : continuations (count + 1) bytes codePoint index = .ok result) :
    ∃ byte rest, bytes = byte :: rest ∧ 0x80 ≤ byte.toNat ∧ byte.toNat < 0xC0 ∧
      continuations count rest (codePoint * 64 + byte.toNat % 64) (index + 1) = .ok result := by
  cases bytes with
  | nil => cases h
  | cons byte rest =>
    by_cases tail : byte &&& 0xC0 = 0x80
    · obtain ⟨low, high⟩ := (continuation_iff byte).mp tail
      rw [continuations_cons _ _ _ _ _ low high] at h
      exact ⟨byte, rest, rfl, low, high, h⟩
    · rw [continuations, if_pos tail] at h
      cases h

theorem lead_bits (lead : UInt8) :
    (0xC0 ≤ lead.toNat → lead.toNat ≤ 0xDF → lead.toNat &&& (1 <<< (8 - 2 - 1) - 1) = lead.toNat - 0xC0) ∧
    (0xE0 ≤ lead.toNat → lead.toNat ≤ 0xEF → lead.toNat &&& (1 <<< (8 - 3 - 1) - 1) = lead.toNat - 0xE0) ∧
    (0xF0 ≤ lead.toNat → lead.toNat ≤ 0xF7 → lead.toNat &&& (1 <<< (8 - 4 - 1) - 1) = lead.toNat - 0xF0) := by
  have five := Nat.and_two_pow_sub_one_eq_mod lead.toNat 5
  have four := Nat.and_two_pow_sub_one_eq_mod lead.toNat 4
  have three := Nat.and_two_pow_sub_one_eq_mod lead.toNat 3
  simp only [Nat.reducePow, Nat.reduceSub, Nat.reduceShiftLeft] at five four three ⊢
  omega

theorem toNat_ofNat_small {n : Nat} (small : n < 256) : (ofNat n).toNat = n := by
  simp [mod_eq_of_lt small]

theorem decodeUtf8_of_continuations {lead : UInt8} {rest : Bytes} {units least c : Nat}
    (notAscii : 0x7F < lead.toNat) (shape : leadShape lead = some (units, least)) (enough : units ≤ rest.length + 1)
    (folded : continuations (units - 1) rest (lead.toNat &&& (1 <<< (8 - units - 1) - 1)) 1 = .ok c)
    (longest : least ≤ c) (scalar : IsScalar c) : decodeUtf8 (lead :: rest) = ⟨c, units, .none⟩ := by
  obtain ⟨bound, noSurrogate⟩ := (isScalar_iff c).mp scalar
  have surrogate : isSurrogate c = false := by
    simp only [isSurrogate, Bool.and_eq_false_iff, decide_eq_false_iff_not]
    omega
  have high : ¬ lead ≤ 0x7F := by
    exact not_le.mpr notAscii
  simp only [decodeUtf8, high, if_false, shape, not_lt.mpr enough, folded, not_lt.mpr longest, surrogate,
    maxCodePoint, not_lt.mpr bound, Bool.false_eq_true]

theorem decodeUtf8_encodeUtf8 {c : Nat} (scalar : IsScalar c) (rest : Bytes) :
    decodeUtf8 (encodeUtf8 c ++ rest) = ⟨c, (encodeUtf8 c).length, .none⟩ := by
  rw [encodeUtf8_scalar scalar]
  have bound := ((isScalar_iff c).mp scalar).1
  by_cases one : c ≤ 0x7F
  · have byte := toNat_ofNat_small (show c < 256 by omega)
    have ascii : ofNat c ≤ 0x7F := by rw [le_iff_toNat_le, byte]; exact one
    simp only [encodeUnits, one, if_true, cons_append, nil_append, decodeUtf8, ascii, byte, length_cons,
      length_nil]
  by_cases two : c ≤ 0x7FF
  · have lead := toNat_ofNat_small (show 0xC0 + c / 64 < 256 by omega)
    have last := toNat_ofNat_small (show 0x80 + c % 64 < 256 by omega)
    rw [encodeUnits_two c (by omega) two]
    simp only [cons_append]
    apply decodeUtf8_of_continuations (by omega) (leadShape_two _ (by omega) (by omega)) (by simp) _ (by omega) scalar
    rw [(lead_bits _).1 (by omega) (by omega), continuations_cons 0 _ _ _ _ (by omega) (by omega),
      continuations]
    congr 1
    omega
  by_cases three : c ≤ 0xFFFF
  · have lead := toNat_ofNat_small (show 0xE0 + c / 4096 < 256 by omega)
    have middle := toNat_ofNat_small (show 0x80 + c / 64 % 64 < 256 by omega)
    have last := toNat_ofNat_small (show 0x80 + c % 64 < 256 by omega)
    rw [encodeUnits_three c (by omega) three]
    simp only [cons_append]
    apply decodeUtf8_of_continuations (by omega) (leadShape_three _ (by omega) (by omega)) (by simp) _ (by omega) scalar
    rw [(lead_bits _).2.1 (by omega) (by omega), continuations_cons 1 _ _ _ _ (by omega) (by omega),
      continuations_cons 0 _ _ _ _ (by omega) (by omega), continuations]
    congr 1
    omega
  · have lead := toNat_ofNat_small (show 0xF0 + c / 262144 < 256 by omega)
    have second := toNat_ofNat_small (show 0x80 + c / 4096 % 64 < 256 by omega)
    have third := toNat_ofNat_small (show 0x80 + c / 64 % 64 < 256 by omega)
    have last := toNat_ofNat_small (show 0x80 + c % 64 < 256 by omega)
    rw [encodeUnits_four c (by omega) bound]
    simp only [cons_append]
    apply decodeUtf8_of_continuations (by omega) (leadShape_four _ (by omega) (by omega)) (by simp) _ (by omega) scalar
    rw [(lead_bits _).2.2 (by omega) (by omega), continuations_cons 2 _ _ _ _ (by omega) (by omega),
      continuations_cons 1 _ _ _ _ (by omega) (by omega),
      continuations_cons 0 _ _ _ _ (by omega) (by omega), continuations]
    congr 1
    omega

theorem decodeUtf8_cases {input : Bytes} (ok : (decodeUtf8 input).error = .none) :
    (∃ lead rest, input = lead :: rest ∧ lead.toNat ≤ 0x7F ∧ decodeUtf8 input = ⟨lead.toNat, 1, .none⟩) ∨
    ∃ lead rest units least c, input = lead :: rest ∧ leadShape lead = some (units, least) ∧
      continuations (units - 1) rest (lead.toNat &&& (1 <<< (8 - units - 1) - 1)) 1 = .ok c ∧
      least ≤ c ∧ IsScalar c ∧ decodeUtf8 input = ⟨c, units, .none⟩ := by
  cases input with
  | nil => simp [decodeUtf8] at ok
  | cons lead rest =>
    by_cases ascii : lead ≤ 0x7F
    · exact .inl ⟨lead, rest, rfl, le_iff_toNat_le.mp ascii, by simp only [decodeUtf8, ascii, if_true]⟩
    right
    have unfolded := decodeUtf8.eq_2 lead rest
    rw [if_neg ascii] at unfolded
    rw [unfolded] at ok
    cases shape : leadShape lead with
    | none => simp [shape] at ok
    | some shaped =>
      obtain ⟨units, least⟩ := shaped
      simp only [shape] at ok unfolded
      split at ok
      · simp at ok
      rename_i enough
      rw [if_neg enough] at unfolded
      cases folded : continuations (units - 1) rest (lead.toNat &&& (1 <<< (8 - units - 1) - 1)) 1 with
      | error index => simp [folded] at ok
      | ok c =>
        simp only [folded] at ok unfolded
        split at ok
        · simp at ok
        rename_i longest
        rw [if_neg longest] at unfolded
        split at ok
        · simp at ok
        rename_i surrogate
        rw [if_neg surrogate] at unfolded
        split at ok
        · simp at ok
        rename_i bound
        rw [if_neg bound] at unfolded
        have scalar : IsScalar c := by
          simp only [IsScalar, isValidCodePoint, not_lt.mp bound, surrogate]
          rfl
        exact ⟨lead, rest, units, least, c, rfl, shape, folded, not_lt.mp longest, scalar, unfolded⟩

theorem ofNat_eq_of_toNat (byte : UInt8) {n : Nat} (same : byte.toNat = n) : UInt8.ofNat n = byte := by
  rw [← same, UInt8.ofNat_toNat]

theorem decodeUtf8_ok {input : Bytes} (ok : (decodeUtf8 input).error = .none) :
    ∃ c rest, IsScalar c ∧ input = encodeUtf8 c ++ rest ∧
      decodeUtf8 input = ⟨c, (encodeUtf8 c).length, .none⟩ := by
  rcases decodeUtf8_cases ok with ⟨lead, rest, rfl, ascii, decoded⟩ |
    ⟨lead, rest, units, least, c, rfl, shape, folded, longest, scalar, decoded⟩
  · have scalar : IsScalar lead.toNat := (isScalar_iff _).mpr (by omega)
    have units : encodeUtf8 lead.toNat = [lead] := by
      rw [encodeUtf8_scalar scalar, encodeUnits, if_pos ascii, UInt8.ofNat_toNat]
    exact ⟨lead.toNat, rest, scalar, by rw [units]; rfl, by rw [units, decoded]; rfl⟩
  · have bound := ((isScalar_iff c).mp scalar).1
    have range := lead_bits lead
    simp only [leadShape, le_iff_toNat_le, reduceToNat] at shape
    suffices apart : ∃ tail, lead :: rest = encodeUnits c ++ tail ∧ units = (encodeUnits c).length by
      obtain ⟨tail, split, length⟩ := apart
      rw [← encodeUtf8_scalar scalar] at split length
      exact ⟨c, tail, scalar, split, by rw [decoded, ← length]⟩
    split at shape
    · cases shape
      obtain ⟨b1, t1, rfl, low1, high1, folded⟩ := continuations_ok folded
      simp only [continuations, Except.ok.injEq] at folded
      rw [encodeUnits_two c (by omega) (by omega)]
      refine ⟨t1, ?_, rfl⟩
      rw [ofNat_eq_of_toNat lead (by omega), ofNat_eq_of_toNat b1 (by omega)]
      rfl
    · split at shape
      · cases shape
        obtain ⟨b1, t1, rfl, low1, high1, folded⟩ := continuations_ok folded
        obtain ⟨b2, t2, rfl, low2, high2, folded⟩ := continuations_ok folded
        simp only [continuations, Except.ok.injEq] at folded
        rw [encodeUnits_three c (by omega) (by omega)]
        refine ⟨t2, ?_, rfl⟩
        rw [ofNat_eq_of_toNat lead (by omega), ofNat_eq_of_toNat b1 (by omega),
          ofNat_eq_of_toNat b2 (by omega)]
        rfl
      · split at shape
        · rename_i four
          cases shape
          rw [range.2.2 four.1 four.2] at folded
          obtain ⟨b1, t1, rfl, low1, high1, folded⟩ := continuations_ok folded
          obtain ⟨b2, t2, rfl, low2, high2, folded⟩ := continuations_ok folded
          obtain ⟨b3, t3, rfl, low3, high3, folded⟩ := continuations_ok folded
          simp only [continuations, Except.ok.injEq] at folded
          rw [encodeUnits_four c (by omega) bound]
          refine ⟨t3, ?_, rfl⟩
          rw [ofNat_eq_of_toNat lead (by omega), ofNat_eq_of_toNat b1 (by omega),
            ofNat_eq_of_toNat b2 (by omega), ofNat_eq_of_toNat b3 (by omega)]
          rfl
        · cases shape

theorem encodeUnits_length (c : Nat) : 0 < (encodeUnits c).length ∧ (encodeUnits c).length ≤ 4 := by
  unfold encodeUnits
  split
  · simp
  · split
    · simp
    · split <;> simp

theorem validUtf8_nil : ValidUtf8 [] := ⟨[], by simp⟩

theorem ValidUtf8.append {first second : Bytes} (valid : ValidUtf8 first) (valid' : ValidUtf8 second) :
    ValidUtf8 (first ++ second) := by
  obtain ⟨cs, scalars, rfl⟩ := valid
  obtain ⟨ds, scalars', rfl⟩ := valid'
  refine ⟨cs ++ ds, ?_, by rw [flatMap_append]⟩
  intro c mem
  rcases mem_append.mp mem with mem | mem
  · exact scalars c mem
  · exact scalars' c mem

theorem validUtf8_encode {c : Nat} (scalar : IsScalar c) : ValidUtf8 (encodeUtf8 c) :=
  ⟨[c], by simpa using scalar, by simp⟩

theorem validUtf8Loop_encode {c : Nat} (scalar : IsScalar c) (fuel : Nat) (rest : Bytes) :
    validUtf8Loop (fuel + 1) (encodeUtf8 c ++ rest) = validUtf8Loop fuel rest := by
  have nonempty : encodeUtf8 c ++ rest ≠ [] := by
    intro empty
    have positive := (encodeUnits_length (sanitizeForEncoding c)).1
    rw [append_eq_nil_iff] at empty
    unfold encodeUtf8 at empty
    rw [empty.1] at positive
    exact absurd positive (by decide)
  rw [validUtf8Loop, if_neg nonempty, decodeUtf8_encodeUtf8 scalar rest]
  simp

theorem isValidUtf8_iff (input : Bytes) : isValidUtf8 input = true ↔ ValidUtf8 input := by
  constructor
  · have loop : ∀ fuel input, validUtf8Loop fuel input = true → ValidUtf8 input := by
      intro fuel
      induction fuel with
      | zero =>
        intro input accepted
        rw [validUtf8Loop, List.isEmpty_iff] at accepted
        subst accepted
        exact validUtf8_nil
      | succ fuel ih =>
        intro input accepted
        rw [validUtf8Loop] at accepted
        split at accepted
        · rename_i empty
          subst empty
          exact validUtf8_nil
        · split at accepted
          · rename_i ok
            obtain ⟨c, rest, scalar, apart, decoded⟩ := decodeUtf8_ok ok
            rw [decoded, apart] at accepted
            simp only [drop_left] at accepted
            rw [apart]
            exact (validUtf8_encode scalar).append (ih rest accepted)
          · cases accepted
    exact loop _ input
  · rintro ⟨cs, scalars, rfl⟩
    have loop : ∀ fuel, (cs.flatMap encodeUtf8).length ≤ fuel → validUtf8Loop fuel (cs.flatMap encodeUtf8) = true := by
      induction cs with
      | nil => intro fuel _; cases fuel <;> simp [validUtf8Loop]
      | cons c cs ih =>
        intro fuel enough
        have scalar := scalars c (by simp)
        have positive := (encodeUnits_length (sanitizeForEncoding c)).1
        change 0 < (encodeUtf8 c).length at positive
        simp only [flatMap_cons, length_append] at enough
        obtain ⟨fuel, rfl⟩ : ∃ n, fuel = n + 1 := ⟨fuel - 1, by omega⟩
        rw [flatMap_cons, validUtf8Loop_encode scalar]
        exact ih (fun d mem => scalars d (by simp [mem])) fuel (by omega)
    exact loop _ (le_refl _)

theorem encodeUtf8_ascii {b : UInt8} (ascii : b.toNat < 0x80) : encodeUtf8 b.toNat = [b] := by
  have scalar : IsScalar b.toNat := (isScalar_iff _).mpr ⟨by omega, by omega⟩
  rw [encodeUtf8_scalar scalar, encodeUnits, if_pos (by omega), UInt8.ofNat_toNat]

theorem encodeUtf8_high {c : Nat} (scalar : IsScalar c) (high : 0x80 ≤ c) : ∀ b ∈ encodeUtf8 c, 0x80 ≤ b.toNat := by
  have limit := ((isScalar_iff c).mp scalar).1
  rw [encodeUtf8_scalar scalar]
  intro b mem
  by_cases two : c ≤ 0x7FF
  · rw [encodeUnits_two c (by omega) two] at mem
    simp only [mem_cons, not_mem_nil, or_false] at mem
    rcases mem with rfl | rfl <;> rw [toNat_ofNat_small (by omega)] <;> omega
  · by_cases three : c ≤ 0xFFFF
    · rw [encodeUnits_three c (by omega) three] at mem
      simp only [mem_cons, not_mem_nil, or_false] at mem
      rcases mem with rfl | rfl | rfl <;> rw [toNat_ofNat_small (by omega)] <;> omega
    · rw [encodeUnits_four c (by omega) limit] at mem
      simp only [mem_cons, not_mem_nil, or_false] at mem
      rcases mem with rfl | rfl | rfl | rfl <;> rw [toNat_ofNat_small (by omega)] <;> omega

theorem validUtf8_ascii {bytes : Bytes} (ascii : ∀ b ∈ bytes, b.toNat < 0x80) : ValidUtf8 bytes := by
  induction bytes with
  | nil => exact validUtf8_nil
  | cons b bytes ih =>
    have low := ascii b (by simp)
    have scalar : IsScalar b.toNat := (isScalar_iff _).mpr (by omega)
    have head := validUtf8_encode scalar
    rw [encodeUtf8_ascii low] at head
    exact head.append (ih fun c mem => ascii c (by simp [mem]))

end Unicode

end NginBase
