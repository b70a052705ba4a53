import NginBase.Math.BigIntDivision

namespace NginBase.Math.BigInt

open Library Int

def value (a : BigInt) : Int := if a.negative then -(a.magnitude : Int) else a.magnitude

structure Normal (a : BigInt) : Prop where
  canonical : Canonical base a.digits
  zero : a.magnitude = 0 → a.negative = false

section

variable {a b : BigInt}

theorem value_natAbs (a : BigInt) : a.value.natAbs = a.magnitude := by
  unfold value
  split
  · rw [natAbs_neg, natAbs_natCast]
  · exact natAbs_natCast _

theorem value_of_positive (sign : a.negative = false) : a.value = a.magnitude := by
  rw [value, sign]
  rfl

theorem value_of_negative (sign : a.negative = true) : a.value = -(a.magnitude : Int) := by
  rw [value, sign]
  rfl

theorem Natural.value_eq (natural : Natural a) : a.value = a.magnitude := value_of_positive natural.sign

theorem Natural.normal (natural : Natural a) : Normal a := ⟨natural.canonical, fun _ => natural.sign⟩

theorem Normal.negative_iff (normal : Normal a) : a.negative = true ↔ a.value < 0 := by
  constructor
  · intro sign
    have nonzero : a.magnitude ≠ 0 := fun zero => by simp [normal.zero zero] at sign
    rw [value_of_negative sign]
    omega
  · intro less
    by_contra sign
    rw [Bool.not_eq_true] at sign
    rw [value_of_positive sign] at less
    omega

section

variable (normal : Normal a) (normal' : Normal b)

include normal normal'

theorem Normal.ext (same : a.value = b.value) : a = b := by
  have sign : a.negative = b.negative := by
    rw [Bool.eq_iff_iff, normal.negative_iff, normal'.negative_iff, same]
  have magnitudes : a.magnitude = b.magnitude := by rw [← value_natAbs, ← value_natAbs, same]
  obtain ⟨digits, negative⟩ := a
  obtain ⟨digits', negative'⟩ := b
  obtain rfl : negative = negative' := sign
  obtain rfl : digits = digits' := normal.canonical.unique base_large normal'.canonical magnitudes
  rfl

theorem equal_iff : equal a b = true ↔ a.value = b.value := by
  unfold equal
  rw [decide_eq_true_iff]
  constructor
  · intro ⟨sign, digits⟩
    rw [value, value, magnitude, magnitude, sign, digits]
  · intro same
    rw [normal.ext normal' same]
    exact ⟨rfl, rfl⟩

theorem less_iff : less a b = true ↔ a.value < b.value := by
  have sign := normal.negative_iff
  have sign' := normal'.negative_iff
  unfold less
  by_cases negative : a.negative = true
  · by_cases negative' : b.negative = true
    · rw [if_neg (by simp [negative, negative']), if_pos negative, absLess_iff normal'.canonical normal.canonical,
        value_of_negative negative, value_of_negative negative']
      omega
    · have first := sign.mp negative
      have second := sign'.not.mp negative'
      rw [if_pos (by simp [negative, negative'])]
      constructor
      · intro _
        omega
      · intro _
        exact negative
  · rw [Bool.not_eq_true] at negative
    by_cases negative' : b.negative = true
    · have second := sign'.mp negative'
      rw [if_pos (by simp [negative, negative']), negative, value_of_positive negative]
      constructor
      · intro h
        cases h
      · intro less
        omega
    · rw [Bool.not_eq_true] at negative'
      rw [if_neg (by simp [negative, negative']), if_neg (by simp [negative]),
        absLess_iff normal.canonical normal'.canonical, value_of_positive negative, value_of_positive negative']
      omega

end

end

section

variable {a b : BigInt}

theorem neg_spec (canonical : Canonical base a.digits) :
    Normal a.neg ∧ a.neg.magnitude = a.magnitude ∧ a.neg.value = -a.value ∧
      a.neg.negative = if a.magnitude = 0 then false else !a.negative := by
  have same : a.neg.magnitude = a.magnitude := rfl
  have sign : a.neg.negative = if a.magnitude = 0 then false else !a.negative := by
    show (if a.isZero then false else !a.negative) = _
    simp only [isZero_iff canonical]
  refine ⟨⟨canonical, ?_⟩, same, ?_, sign⟩
  · intro zero
    rw [sign, if_pos (same ▸ zero)]
  · unfold value
    rw [sign, same]
    by_cases zero : a.magnitude = 0
    · simp [zero]
    · cases a.negative with
      | true => simp
      | false => simp

structure Computes (run : Except Fault BigInt) (exact : Int) (result : BigInt) : Prop where
  run : run = .ok result
  canonical : Canonical base result.digits
  value : result.value = exact

section

variable (canonical : Canonical base a.digits)

include canonical

theorem addMagnitudes_value (canonical' : Canonical base b.digits) (sign : a.negative = b.negative) :
    ∃ sum, Computes (addMagnitudes a b) (a.value + b.value) sum ∧ sum.negative = a.negative ∧
      (sum.magnitude = 0 → a.magnitude = 0) := by
  obtain ⟨sum, run, kept, sign', total⟩ := addMagnitudes_spec canonical canonical'
  refine ⟨sum, ⟨run, kept, ?_⟩, sign', by omega⟩
  rw [value, value, value, sign', ← sign]
  split <;> omega

theorem subtractMagnitudes_value (canonical' : Canonical base b.digits) (sign : a.negative = b.negative) :
    ∃ difference, Computes (subtractMagnitudes a b) (a.value - b.value) difference ∧
      (difference.magnitude = 0 → difference.negative = a.negative) := by
  obtain ⟨difference, run, kept, less, more⟩ := subtractMagnitudes_spec canonical canonical'
  refine ⟨difference, ⟨run, kept, ?_⟩, ?_⟩
  · unfold value
    rw [← sign]
    rcases Nat.lt_or_ge a.magnitude b.magnitude with small | large
    · obtain ⟨sign', total⟩ := less small
      rw [sign']
      cases a.negative with
      | true => simp; omega
      | false => simp; omega
    · obtain ⟨sign', total⟩ := more large
      rw [sign']
      split <;> omega
  · intro zero
    rcases Nat.lt_or_ge a.magnitude b.magnitude with small | large
    · omega
    · exact (more large).1

theorem neg_sign (negative : a.negative = true) : a.neg.negative = false := by
  rw [(neg_spec canonical).2.2.2, negative]
  split <;> rfl

theorem add_spec (canonical' : Canonical base b.digits) :
    ∃ sum, Computes (add a b) (a.value + b.value) sum ∧ (Normal a → Normal sum) := by
  unfold add
  by_cases sign : a.negative = b.negative
  · obtain ⟨sum, computes, sign', zero⟩ := addMagnitudes_value canonical canonical' sign
    rw [if_pos sign]
    exact ⟨sum, computes, fun normal => ⟨computes.canonical, fun none => sign'.trans (normal.zero (zero none))⟩⟩
  · rw [if_neg sign]
    by_cases negative : a.negative = true
    · have positive : b.negative = false := by simpa [negative] using sign
      obtain ⟨normal, _, opposite, _⟩ := neg_spec canonical
      obtain ⟨sum, computes, zero⟩ := subtractMagnitudes_value canonical' normal.canonical
        (positive.trans (neg_sign canonical negative).symm)
      rw [if_pos negative]
      refine ⟨sum, ⟨computes.run, computes.canonical, ?_⟩, fun _ => ⟨computes.canonical, fun none => ?_⟩⟩
      · rw [computes.value]
        omega
      · exact (zero none).trans positive
    · rw [Bool.not_eq_true] at negative
      have negative' : b.negative = true := by simpa [negative] using sign
      obtain ⟨normal, _, opposite, _⟩ := neg_spec canonical'
      obtain ⟨sum, computes, zero⟩ := subtractMagnitudes_value canonical normal.canonical
        (negative.trans (neg_sign canonical' negative').symm)
      rw [if_neg (by simp [negative])]
      refine ⟨sum, ⟨computes.run, computes.canonical, ?_⟩, fun _ => ⟨computes.canonical, fun none => ?_⟩⟩
      · rw [computes.value]
        omega
      · exact (zero none).trans negative

theorem subtract_spec (canonical' : Canonical base b.digits) :
    ∃ difference, Computes (subtract a b) (a.value - b.value) difference ∧
      (Normal a → Normal b → ¬ (a.value < 0 ∧ a.value = b.value) → Normal difference) := by
  unfold subtract
  by_cases sign : a.negative = b.negative
  · obtain ⟨difference, computes, zero⟩ := subtractMagnitudes_value canonical canonical' sign
    rw [if_pos sign]
    refine ⟨difference, computes, fun normal normal' orderly => ⟨computes.canonical, fun none => ?_⟩⟩
    by_contra negative
    rw [zero none, Bool.not_eq_false, normal.negative_iff] at negative
    have nothing : difference.value = 0 := natAbs_eq_zero.mp ((value_natAbs difference).trans none)
    rw [computes.value] at nothing
    exact orderly ⟨negative, by omega⟩
  · rw [if_neg sign]
    by_cases negative : a.negative = true
    · have positive : b.negative = false := by simpa [negative] using sign
      obtain ⟨normal, _, opposite, _⟩ := neg_spec canonical
      obtain ⟨sum, computes, _, _⟩ := addMagnitudes_value normal.canonical canonical'
        ((neg_sign canonical negative).trans positive.symm)
      obtain ⟨normal', _, opposite', _⟩ := neg_spec computes.canonical
      rw [if_pos negative, computes.run]
      refine ⟨sum.neg, ⟨rfl, normal'.canonical, ?_⟩, fun _ _ _ => normal'⟩
      rw [opposite', computes.value]
      omega
    · rw [Bool.not_eq_true] at negative
      have negative' : b.negative = true := by simpa [negative] using sign
      obtain ⟨normal, _, opposite, _⟩ := neg_spec canonical'
      obtain ⟨sum, computes, sign', _⟩ := addMagnitudes_value canonical normal.canonical
        (negative.trans (neg_sign canonical' negative').symm)
      rw [if_neg (by simp [negative])]
      refine ⟨sum, ⟨computes.run, computes.canonical, ?_⟩, fun _ _ _ => ⟨computes.canonical, fun _ => ?_⟩⟩
      · rw [computes.value]
        omega
      · exact sign'.trans negative

end

theorem value_mul {p : BigInt} (signs : p.negative = decide (a.negative ≠ b.negative))
    (magnitudes : p.magnitude = a.magnitude * b.magnitude) : p.value = a.value * b.value := by
  unfold value
  rw [signs, magnitudes]
  cases a.negative <;> cases b.negative <;> simp

theorem multiply_value (canonical : Canonical base a.digits) (canonical' : Canonical base b.digits) :
    ∃ product, Computes (multiply a b) (a.value * b.value) product ∧
      (Normal a → Normal b → ¬ (a.value * b.value = 0 ∧ (a.value < 0 ∨ b.value < 0)) → Normal product) := by
  obtain ⟨product, run, kept, sign, total⟩ := multiply_spec canonical canonical'
  have exact := value_mul sign total
  refine ⟨product, ⟨run, kept, exact⟩, fun normal normal' orderly => ⟨kept, fun zero => ?_⟩⟩
  rw [not_and_or, not_or, ← normal.negative_iff, ← normal'.negative_iff, ← exact] at orderly
  have nothing : product.value = 0 := natAbs_eq_zero.mp ((value_natAbs product).trans zero)
  obtain ⟨first, second⟩ := orderly.resolve_left (not_not.mpr nothing)
  rw [Bool.not_eq_true] at first second
  rw [sign, first, second]
  rfl

end

section

variable {a b : BigInt}

def signed (a : BigInt) (n : Nat) : Int := if a.negative then -(n : Int) else n

section

variable (canonical : Canonical base a.digits) (canonical' : Canonical base b.digits)

include canonical canonical'

theorem divide_modulo (positive : 0 < b.magnitude) (le : b.magnitude ≤ a.magnitude) {n : Nat} {q r : BigInt}
    (run : divModLarge a b = .ok (q, r)) (result : Euclidean n b.magnitude q r) :
    ∃ q' r', divide a b = .ok q' ∧ modulo a b = .ok r' ∧ Normal q' ∧ Normal r' ∧
      q'.value * b.value + r'.value = a.signed n ∧ r'.magnitude = r.magnitude ∧
      (r.magnitude ≠ 0 → r'.negative = a.negative) := by
  have nonzero := (isZero_iff canonical').not.mpr (by omega)
  have quotientZero := isZero_iff result.quotient.canonical
  have remainderZero := isZero_iff result.remainder.canonical
  have divided : divMod a b = .ok ({ q with negative := a.negative ≠ b.negative ∧ q.isZero = false }, r) := by
    rw [divMod_eq canonical canonical' positive, if_neg (by omega), if_neg (by omega), run]
    rfl
  generalize sameQuotient : ({ q with negative := decide (a.negative ≠ b.negative ∧ q.isZero = false) } : BigInt) = q' at divided
  have magnitudes : q'.magnitude = q.magnitude := by rw [← sameQuotient]; rfl
  have signs : q'.negative = decide (a.negative ≠ b.negative ∧ q.isZero = false) := by rw [← sameQuotient]
  have normal : Normal q' := by
    constructor
    · rw [← sameQuotient]
      exact result.quotient.canonical
    · intro zero
      rw [signs, decide_eq_false_iff_not, not_and, Bool.not_eq_false, quotientZero]
      intro _
      omega
  have product : q'.value * b.value = a.signed (q.magnitude * b.magnitude) := by
    by_cases zero : q.isZero = true
    · have none : q.magnitude = 0 := quotientZero.mp zero
      have nothing : q'.value = 0 := natAbs_eq_zero.mp ((value_natAbs q').trans (magnitudes.trans none))
      rw [nothing, none, signed, zero_mul, Nat.zero_mul]
      split <;> rfl
    · simp only [zero] at signs
      unfold value signed
      rw [signs, magnitudes]
      cases a.negative <;> cases b.negative <;> simp
  have added (x : Nat) : a.signed (q.magnitude * b.magnitude) + a.signed x = a.signed (q.magnitude * b.magnitude + x) := by
    unfold signed
    split <;> omega
  refine ⟨q', if a.negative ∧ r.isZero = false then r.neg else r, ?_, ?_, normal, ?_, ?_, ?_, ?_⟩
  · rw [divide, if_neg nonzero, divided]
    rfl
  · rw [modulo, if_neg nonzero, divided, ok_bind]
    dsimp only
    split <;> rfl
  · split
    · exact (neg_spec result.remainder.canonical).1
    · exact result.remainder.normal
  · have remainder : value (if a.negative ∧ r.isZero = false then r.neg else r) = a.signed r.magnitude := by
      by_cases negative : a.negative = true
      · by_cases zero : r.isZero = true
        · rw [if_neg (by simp [zero]), result.remainder.value_eq, signed, if_pos negative, remainderZero.mp zero]
          rfl
        · rw [if_pos ⟨negative, by simpa using zero⟩, (neg_spec result.remainder.canonical).2.2.1,
            result.remainder.value_eq, signed, if_pos negative]
      · rw [if_neg (by simp [negative]), result.remainder.value_eq, signed, if_neg negative]
    rw [product, remainder, added, ← result.value]
  · split <;> rfl
  · intro some
    by_cases negative : a.negative = true
    · rw [if_pos ⟨negative, by simpa using remainderZero.not.mpr some⟩, (neg_spec result.remainder.canonical).2.2.2,
        if_neg some, result.remainder.sign, negative]
      rfl
    · rw [if_neg (by simp [negative]), result.remainder.sign]
      simpa using negative

theorem divide_modulo_small (less : a.magnitude < b.magnitude) :
    ∃ r, divide a b = .ok {} ∧ modulo a b = .ok r ∧ Normal r ∧ r.value = a.magnitude := by
  have nonzero := (isZero_iff canonical').not.mpr (by omega)
  have zero := isZero_iff canonical
  have divided := divMod_eq canonical canonical' (by omega : 0 < b.magnitude)
  by_cases none : a.magnitude = 0
  · rw [if_pos none] at divided
    refine ⟨{}, ?_, ?_, natural_zero.normal, by rw [none]; rfl⟩
    · rw [divide, if_neg nonzero, divided]
      rfl
    · rw [modulo, if_neg nonzero, divided, ok_bind]
      dsimp only
      rw [if_neg (by simp [isZero])]
      rfl
  · rw [if_neg none, if_pos less] at divided
    have some : a.isZero = false := by simpa using zero.not.mpr none
    refine ⟨if a.negative ∧ a.isZero = false then a.neg else a, ?_, ?_, ?_, ?_⟩
    · rw [divide, if_neg nonzero, divided]
      rfl
    · rw [modulo, if_neg nonzero, divided, ok_bind]
      dsimp only
      split <;> rfl
    · split
      · exact (neg_spec canonical).1
      · exact ⟨canonical, fun nothing => absurd nothing none⟩
    · by_cases negative : a.negative = true
      · rw [if_pos ⟨negative, some⟩, (neg_spec canonical).2.2.1, value_of_negative negative, neg_neg]
      · rw [if_neg (by simp [negative]), value_of_positive (by simpa using negative)]

end

def DivisionLaw (a b : BigInt) : Prop :=
  ∃ q r p s, divide a b = .ok q ∧ modulo a b = .ok r ∧ multiply q b = .ok p ∧ add p r = .ok s ∧
    s.value = a.value ∧ r.value.natAbs < b.value.natAbs ∧ (r.value = 0 ∨ r.value.sign = a.value.sign)

theorem divisionLaw_iff {q r : BigInt} (canonical : Canonical base q.digits) (canonical' : Canonical base r.digits)
    (divisor : Canonical base b.digits) (run : divide a b = .ok q) (run' : modulo a b = .ok r) :
    DivisionLaw a b ↔ q.value * b.value + r.value = a.value ∧ r.value.natAbs < b.value.natAbs ∧
      (r.value = 0 ∨ r.value.sign = a.value.sign) := by
  obtain ⟨p, multiplied, _⟩ := multiply_value canonical divisor
  obtain ⟨s, added, _⟩ := add_spec multiplied.canonical canonical'
  have total : s.value = q.value * b.value + r.value := by rw [added.value, multiplied.value]
  constructor
  · intro ⟨q', r', p', s', h₁, h₂, h₃, h₄, value, rest⟩
    obtain rfl : q = q' := Except.ok.inj (run.symm.trans h₁)
    obtain rfl : r = r' := Except.ok.inj (run'.symm.trans h₂)
    obtain rfl : p = p' := Except.ok.inj (multiplied.run.symm.trans h₃)
    obtain rfl : s = s' := Except.ok.inj (added.run.symm.trans h₄)
    exact ⟨total ▸ value, rest⟩
  · intro ⟨value, rest⟩
    exact ⟨q, r, p, s, run, run', multiplied.run, added.run, total.trans value, rest⟩

/-- Truncated division, exactly when the dividend is not a negative number smaller than the divisor and
    its limbs can be counted. -/
theorem division_law_iff (a b : BigInt) (canonical : Canonical base a.digits) (canonical' : Canonical base b.digits)
    (positive : 0 < b.magnitude) :
    DivisionLaw a b ↔ ¬ (a.value < 0 ∧ a.magnitude < b.magnitude) ∧
      (a.magnitude < b.magnitude ∨ b.digits.length = 1 ∨ a.digits.length < 2 ^ 31) := by
  have absolute := value_natAbs a
  have divisor := value_natAbs b
  by_cases less : a.magnitude < b.magnitude
  · obtain ⟨r, run, run', normal, value⟩ := divide_modulo_small canonical canonical' less
    have zero : BigInt.value {} = 0 := rfl
    rw [divisionLaw_iff natural_zero.canonical normal.canonical canonical' run run', zero, value]
    constructor
    · intro ⟨same, _⟩
      exact ⟨by omega, .inl less⟩
    · intro ⟨sign, _⟩
      have same : (a.magnitude : Int) = a.value := by omega
      exact ⟨by omega, by omega, .inr (by rw [same])⟩
  · have le := Nat.not_lt.mp less
    by_cases countable : Countable a b
    · obtain ⟨q, r, run, result⟩ := divModLarge_spec canonical canonical' positive le countable
      obtain ⟨q', r', divided, rest, normal, normal', value, magnitudes, signs⟩ :=
        divide_modulo canonical canonical' positive le run result
      rw [divisionLaw_iff normal.canonical normal'.canonical canonical' divided rest, value]
      constructor
      · intro _
        exact ⟨fun h => less h.2, .inr countable⟩
      · intro _
        refine ⟨rfl, ?_, ?_⟩
        · rw [value_natAbs, value_natAbs, magnitudes]
          exact result.small
        · by_cases none : r.magnitude = 0
          · exact .inl (natAbs_eq_zero.mp ((value_natAbs r').trans (magnitudes.trans none)))
          · right
            have sign := signs none
            have some : a.magnitude ≠ 0 := by omega
            unfold BigInt.value
            rw [sign, magnitudes]
            split
            · rw [sign_neg, sign_neg, sign_natCast_of_ne_zero none, sign_natCast_of_ne_zero some]
            · rw [sign_natCast_of_ne_zero none, sign_natCast_of_ne_zero some]
    · constructor
      · intro law
        exfalso
        rcases divModLarge_truncated canonical canonical' positive le countable with fault | ⟨n, q, r, run, small, result⟩
        · obtain ⟨q', r', p, s, divided, _⟩ := law
          rw [divide, if_neg ((isZero_iff canonical').not.mpr (by omega)), divMod_eq canonical canonical' positive,
            if_neg (by omega), if_neg (by omega), fault] at divided
          cases divided
        · obtain ⟨q', r', divided, rest, normal, normal', value, _, _⟩ :=
            divide_modulo canonical canonical' positive le run result
          rw [divisionLaw_iff normal.canonical normal'.canonical canonical' divided rest, value] at law
          have same := law.1
          rw [← absolute, ← same, signed] at small
          split at small <;> omega
      · intro ⟨_, enough⟩
        exact absurd (enough.resolve_left less) countable

theorem division_law_negative :
    let a : BigInt := { digits := [456789012, 123], negative := true }
    let b : BigInt := { digits := [1, 7] }
    Canonical base a.digits ∧ Canonical base b.digits ∧ 0 < b.magnitude ∧ DivisionLaw a b := by
  intro a b
  have canonical : Canonical base a.digits := ⟨by decide, by decide, by decide⟩
  have canonical' : Canonical base b.digits := ⟨by decide, by decide, by decide⟩
  exact ⟨canonical, canonical', by decide,
    (division_law_iff a b canonical canonical' (by decide)).mpr ⟨by decide, .inr (.inr (by decide))⟩⟩

theorem remainder_sign_lost :
    let a := ofInt32 (-3)
    let b := ofInt32 5
    divide a b = .ok (ofInt32 0) ∧ modulo a b = .ok (ofInt32 3) ∧ ¬ DivisionLaw a b := by
  intro a b
  have quotient : divide a b = .ok (ofInt32 0) := by decide +kernel
  have remainder : modulo a b = .ok (ofInt32 3) := by decide +kernel
  refine ⟨quotient, remainder, ?_⟩
  have zero : Canonical base (ofInt32 0).digits := (canonical_limbs 0).1
  have three : Canonical base (ofInt32 3).digits := (canonical_limbs 3).1
  have five : Canonical base b.digits := (canonical_limbs 5).1
  rw [divisionLaw_iff zero three five quotient remainder]
  decide +kernel

end

end NginBase.Math.BigInt
