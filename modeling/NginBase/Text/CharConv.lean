import NginBase.Library.Digits
import NginBase.Serialization.Core

namespace NginBase.CharConv

open Library List Option UInt8

inductive Errc
  | none
  | invalidArgument
  | resultOutOfRange
  deriving DecidableEq

structure FromCharsResult where
  value : Nat
  used : Nat
  ec : Errc

def fromChars (base limit : Nat) (text : Bytes) : FromCharsResult :=
  let digits := text.takeWhile fun b => (digitValue base b).isSome
  if digits = [] then ⟨0, 0, .invalidArgument⟩
  else if digitsValue base digits < limit then ⟨digitsValue base digits, digits.length, .none⟩
  else ⟨0, digits.length, .resultOutOfRange⟩

def digitChar (d : Nat) : UInt8 := if d < 10 then .ofNat (0x30 + d) else .ofNat (0x61 + (d - 10))

def toChars (base value : Nat) : Bytes :=
  if value = 0 then [0x30] else (Nat.digits base value).reverse.map digitChar

/-- `text` is the number in lower case, without leading zeros. -/
structure Numeral (base value : Nat) (text : Bytes) : Prop where
  nonempty : text ≠ []
  digits : ∀ b ∈ text, (digitValue base b).isSome ∧ ¬ (0x41 ≤ b ∧ b ≤ 0x5A)
  leading : 1 < text.length → text.head? ≠ some 0x30
  value : digitsValue base text = value

section

variable {base d : Nat} {b : UInt8}

theorem digitChar_toNat (small : d < 36) : (digitChar d).toNat = if d < 10 then 0x30 + d else 0x61 + (d - 10) := by
  unfold digitChar
  split
  · exact toNat_ofNat_of_lt' (by simp only [size]; omega)
  · exact toNat_ofNat_of_lt' (by simp only [size]; omega)

theorem digitValue_digitChar (small : d < base) (modest : base ≤ 36) : digitValue base (digitChar d) = some d := by
  have value := digitChar_toNat (Nat.lt_of_lt_of_le small modest)
  unfold digitValue
  simp only [le_iff_toNat_le, reduceToNat, value]
  by_cases low : d < 10
  · simp only [low, if_true]
    rw [if_pos (by omega)]
    simp [small]
  · simp only [low, if_false]
    rw [if_neg (by omega), if_pos (by omega)]
    simp only [filter_some, show 97 + (d - 10) - 97 + 10 = d by omega, small, decide_true, if_true]

theorem digitChar_lower (small : d < 36) : ¬ (0x41 ≤ digitChar d ∧ digitChar d ≤ 0x5A) := by
  simp only [le_iff_toNat_le, reduceToNat, digitChar_toNat small]
  split <;> omega

theorem digitValue_lt (found : digitValue base b = some d) : d < base := by
  simpa using (filter_eq_some_iff.mp found).2

theorem digitChar_digitValue (found : digitValue base b = some d) (lower : ¬ (0x41 ≤ b ∧ b ≤ 0x5A)) : digitChar d = b := by
  have known := (Option.filter_eq_some_iff.mp (show Option.filter _ _ = some d from found)).1
  rw [if_neg lower] at known
  apply UInt8.toNat_inj.mp
  simp only [UInt8.le_iff_toNat_le, UInt8.reduceToNat] at known
  split at known
  · obtain rfl := Option.some.inj known
    rw [digitChar_toNat (by omega), if_pos (by omega)]
    omega
  · split at known
    · obtain rfl := Option.some.inj known
      rw [digitChar_toNat (by omega), if_neg (by omega)]
      omega
    · contradiction

theorem digitsValue_eq (base : Nat) (text : Bytes) :
    digitsValue base text = bigEndian base 0 (text.map fun b => (digitValue base b).getD 0) := by
  rw [bigEndian, foldl_map]
  rfl

end

section

variable {base value limit : Nat} {b : UInt8} {text : Bytes}

section

variable (large : 1 < base) (modest : base ≤ 36)

include large modest

theorem toChars_digits : ∀ b ∈ toChars base value, (digitValue base b).isSome ∧ ¬ (0x41 ≤ b ∧ b ≤ 0x5A) := by
  intro b mem
  unfold toChars at mem
  split at mem
  · obtain rfl := mem_singleton.mp mem
    rw [show (0x30 : UInt8) = digitChar 0 from rfl, digitValue_digitChar (by omega) modest]
    exact ⟨rfl, digitChar_lower (by decide)⟩
  · obtain ⟨d, inside, rfl⟩ := mem_map.mp mem
    have small := Nat.digits_lt_base large (mem_reverse.mp inside)
    rw [digitValue_digitChar small modest]
    exact ⟨rfl, digitChar_lower (by omega)⟩

theorem digitsValue_toChars : digitsValue base (toChars base value) = value := by
  rw [digitsValue_eq]
  unfold toChars
  split
  · rename_i zero
    rw [zero, map_singleton, show (0x30 : UInt8) = digitChar 0 from rfl, digitValue_digitChar (by omega) modest]
    simp
  · have same : ∀ digits : List Nat, (∀ d ∈ digits, d < base) →
        (digits.map digitChar).map (fun b => (digitValue base b).getD 0) = digits := by
      intro digits small
      rw [List.map_map]
      apply Eq.trans (map_congr_left fun d inside => ?_) (map_id digits)
      exact congrArg (Option.getD · 0) (digitValue_digitChar (small d inside) modest)
    rw [same _ fun d inside => Nat.digits_lt_base large (mem_reverse.mp inside), bigEndian_digits]

theorem numeral_toChars : Numeral base value (toChars base value) where
  nonempty := by
    unfold toChars
    split
    · exact cons_ne_nil _ _
    · rename_i nonzero
      simpa [Nat.digits_eq_nil_iff_eq_zero] using nonzero
  digits := toChars_digits large modest
  leading := by
    unfold toChars
    split
    · simp
    rename_i nonzero
    intro _ zero
    -- the first digit written is the last one of `Nat.digits`
    have digits : Nat.digits base value ≠ [] := Nat.digits_ne_nil_iff_ne_zero.mpr nonzero
    have small := Nat.digits_lt_base large (getLast_mem digits)
    rw [head?_map, head?_reverse, getLast?_eq_some_getLast digits] at zero
    have same : digitChar ((Nat.digits base value).getLast digits) = digitChar 0 := some.inj zero
    have back := digitValue_digitChar small modest
    rw [same, digitValue_digitChar (by omega) modest] at back
    exact Nat.getLast_digit_ne_zero base nonzero (some.inj back).symm
  value := digitsValue_toChars large modest

end

theorem Numeral.eq_toChars (numeral : Numeral base value text) (large : 1 < base) : text = toChars base value := by
  have digits : ∀ b ∈ text, digitChar ((digitValue base b).getD 0) = b ∧ (digitValue base b).getD 0 < base := by
    intro b mem
    obtain ⟨isDigit, lower⟩ := numeral.digits b mem
    obtain ⟨d, found⟩ := isSome_iff_exists.mp isDigit
    rw [found]
    exact ⟨digitChar_digitValue found lower, digitValue_lt found⟩
  have chars : (text.map fun b => (digitValue base b).getD 0).map digitChar = text := by
    rw [List.map_map]
    exact (map_congr_left fun b mem => (digits b mem).1).trans (map_id text)
  have small : ∀ d ∈ text.map fun b => (digitValue base b).getD 0, d < base := by
    intro d inside
    obtain ⟨b, mem, rfl⟩ := mem_map.mp inside
    exact (digits b mem).2
  have number : bigEndian base 0 (text.map fun b => (digitValue base b).getD 0) = value :=
    (digitsValue_eq base text).symm.trans numeral.value
  obtain ⟨b, rest, rfl⟩ := exists_cons_of_ne_nil numeral.nonempty
  have first := digits b mem_cons_self
  unfold toChars
  split
  · have lead := le_bigEndian base (by omega) ((digitValue base b).getD 0) (rest.map fun b => (digitValue base b).getD 0)
    rw [List.map_cons, bigEndian_cons, Nat.zero_mul, Nat.zero_add] at number
    have none_ : (digitValue base b).getD 0 = 0 := by omega
    have zeroDigit : b = 0x30 := first.1.symm.trans (by rw [none_]; rfl)
    rcases rest with _ | ⟨second, rest⟩
    · rw [zeroDigit]
    · exact absurd (congrArg some zeroDigit) (numeral.leading (by simp))
  · rename_i nonzero
    rw [← number, digits_bigEndian large small, chars]
    intro zero
    have none_ : (digitValue base b).getD 0 = 0 := some.inj zero
    have zeroDigit : b = 0x30 := first.1.symm.trans (by rw [none_]; rfl)
    rcases rest with _ | ⟨second, rest⟩
    · apply nonzero
      rw [← number, List.map_singleton, none_, bigEndian_cons, Nat.zero_mul]
      rfl
    · exact numeral.leading (by simp) (congrArg some zeroDigit)

theorem fromChars_toChars (large : 1 < base) (modest : base ≤ 36) (fits : value < limit) :
    fromChars base limit (toChars base value) = ⟨value, (toChars base value).length, .none⟩ := by
  have all : (toChars base value).takeWhile (fun b => (digitValue base b).isSome) = toChars base value :=
    takeWhile_eq_self_iff.mpr fun b mem => (toChars_digits large modest b mem).1
  unfold fromChars
  simp only [all, digitsValue_toChars large modest]
  rw [if_neg (numeral_toChars large modest).nonempty, if_pos fits]

theorem length_toChars (large : 1 < base) {k : Nat} (positive : 0 < k) (small : value < base ^ k) :
    (toChars base value).length ≤ k := by
  unfold toChars
  split
  · exact positive
  · rw [length_map, length_reverse]
    exact (Nat.digits_length_le_iff large value).mpr small

theorem not_mem_toChars (large : 1 < base) (modest : base ≤ 36) (other : digitValue base b = none) : b ∉ toChars base value := by
  intro mem
  have isDigit := (toChars_digits large modest b mem).1
  rw [other] at isDigit
  contradiction

end

end NginBase.CharConv
