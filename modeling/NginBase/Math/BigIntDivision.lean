import NginBase.Math.BigIntDigits

namespace NginBase.Math.BigInt

open Library List Nat

def magnitude (a : BigInt) : Nat := ofDigits base a.digits

structure Natural (a : BigInt) : Prop where
  canonical : Canonical base a.digits
  sign : a.negative = false

section

variable {a b : BigInt}

theorem canonical_limbs (value : Nat) : Canonical base (limbs value) ∧ ofDigits base (limbs value) = value := by
  unfold limbs
  by_cases zero : value = 0
  · rw [zero]
    exact ⟨canonical_zero base_large, rfl⟩
  · obtain ⟨total, digits, last, empty⟩ := splitDigits_spec base_large value value (le_refl _)
    rw [if_neg zero]
    exact ⟨⟨empty.not.mpr zero, digits, fun _ => last⟩, total⟩

theorem natural_limbs (value : Nat) : Natural { digits := limbs value } := ⟨(canonical_limbs value).1, rfl⟩

theorem magnitude_limbs (value : Nat) : magnitude { digits := limbs value } = value := (canonical_limbs value).2

theorem natural_zero : Natural {} := ⟨canonical_zero base_large, rfl⟩

theorem magnitude_zero : magnitude {} = 0 := rfl

section

variable (canonical : Canonical base a.digits)

include canonical

theorem natural_abs : Natural a.abs := ⟨canonical, rfl⟩

theorem isZero_iff : a.isZero = true ↔ a.magnitude = 0 := by
  unfold isZero
  rw [decide_eq_true_iff]
  exact (canonical.zero_iff base_large).symm

theorem absLess_iff (canonical' : Canonical base b.digits) :
    absLess a b = true ↔ a.magnitude < b.magnitude := digitsLess_iff base_large canonical canonical'

end

theorem lessEqual_iff (natural : Natural a) (natural' : Natural b) :
    lessEqual a b = true ↔ a.magnitude ≤ b.magnitude := by
  unfold lessEqual less
  rw [natural.sign, natural'.sign, if_neg (by simp), if_neg (by simp), Bool.not_eq_true', ← Bool.not_eq_true,
    absLess_iff natural'.canonical natural.canonical, not_lt]

section

variable (canonical : Canonical base a.digits) (canonical' : Canonical base b.digits)

include canonical canonical'

theorem addMagnitudes_spec :
    ∃ sum, addMagnitudes a b = .ok sum ∧ Canonical base sum.digits ∧ sum.negative = a.negative ∧
      sum.magnitude = a.magnitude + b.magnitude := by
  obtain ⟨digits, run, limbs, length, _, value⟩ := addDigits_spec canonical.digits canonical'.digits
  have nonempty : digits ≠ [] := by
    rw [← length_pos_iff]
    have := length_pos_of_ne_nil canonical.nonempty
    omega
  refine ⟨{ digits := trim digits, negative := a.negative }, ?_, trim_canonical nonempty limbs, rfl, ?_⟩
  · rw [addMagnitudes, run]
    rfl
  · rw [magnitude, ofDigits_trim, value]
    rfl

theorem subtractMagnitudes_spec :
    ∃ difference, subtractMagnitudes a b = .ok difference ∧ Canonical base difference.digits ∧
      (a.magnitude < b.magnitude → difference.negative = !a.negative ∧
        difference.magnitude + a.magnitude = b.magnitude) ∧
      (b.magnitude ≤ a.magnitude → difference.negative = a.negative ∧
        difference.magnitude + b.magnitude = a.magnitude) := by
  have order := absLess_iff canonical canonical'
  unfold subtractMagnitudes
  by_cases less : absLess a b = true
  · obtain ⟨digits, run, kept, value⟩ := subtractDigits_spec canonical' canonical (order.mp less).le
    refine ⟨{ digits := trim digits, negative := !a.negative }, ?_, ?_, ?_, ?_⟩
    · rw [if_pos less, run]
      rfl
    · rw [kept.trim_eq]
      exact kept
    · intro _
      refine ⟨rfl, ?_⟩
      rw [magnitude, ofDigits_trim]
      exact value
    · intro le
      exact absurd (order.mp less) (by omega)
  · have le := order.not.mp less
    obtain ⟨digits, run, kept, value⟩ := subtractDigits_spec canonical canonical' (not_lt.mp le)
    refine ⟨{ digits := trim digits, negative := a.negative }, ?_, ?_, ?_, ?_⟩
    · rw [if_neg less, run]
      rfl
    · rw [kept.trim_eq]
      exact kept
    · intro small
      exact absurd small le
    · intro _
      refine ⟨rfl, ?_⟩
      rw [magnitude, ofDigits_trim]
      exact value

theorem multiply_spec :
    ∃ product, multiply a b = .ok product ∧ Canonical base product.digits ∧
      product.negative = decide (a.negative ≠ b.negative) ∧ product.magnitude = a.magnitude * b.magnitude := by
  obtain ⟨digits, run, kept, value⟩ := multiplyDigits_spec canonical canonical'
  refine ⟨{ digits := trim digits, negative := decide (a.negative ≠ b.negative) }, ?_, ?_, rfl, ?_⟩
  · rw [multiply, run]
    rfl
  · rw [kept.trim_eq]
    exact kept
  · rw [magnitude, ofDigits_trim]
    exact value

end

section

variable (natural : Natural a) (natural' : Natural b)

include natural natural'

theorem add_natural : ∃ sum, add a b = .ok sum ∧ Natural sum ∧ sum.magnitude = a.magnitude + b.magnitude := by
  obtain ⟨sum, run, canonical, sign, value⟩ := addMagnitudes_spec natural.canonical natural'.canonical
  refine ⟨sum, ?_, ⟨canonical, sign.trans natural.sign⟩, value⟩
  rw [add, if_pos (natural.sign.trans natural'.sign.symm), run]

theorem subtract_natural (le : b.magnitude ≤ a.magnitude) :
    ∃ difference, subtract a b = .ok difference ∧ Natural difference ∧
      difference.magnitude + b.magnitude = a.magnitude := by
  obtain ⟨difference, run, canonical, _, more⟩ := subtractMagnitudes_spec natural.canonical natural'.canonical
  obtain ⟨sign, value⟩ := more le
  refine ⟨difference, ?_, ⟨canonical, sign.trans natural.sign⟩, value⟩
  rw [subtract, if_pos (natural.sign.trans natural'.sign.symm), run]

theorem multiply_natural :
    ∃ product, multiply a b = .ok product ∧ Natural product ∧ product.magnitude = a.magnitude * b.magnitude := by
  obtain ⟨product, run, canonical, sign, value⟩ := multiply_spec natural.canonical natural'.canonical
  refine ⟨product, run, ⟨canonical, ?_⟩, value⟩
  rw [sign, natural.sign, natural'.sign]
  rfl

end

end

/-- A quotient and a remainder of the division of one number by another. -/
structure Euclidean (dividend divisor : Nat) (q r : BigInt) : Prop where
  quotient : Natural q
  remainder : Natural r
  value : dividend = q.magnitude * divisor + r.magnitude
  small : r.magnitude < divisor

theorem Euclidean.quotient_eq {n d : Nat} {q r : BigInt} (h : Euclidean n d q r) : q.magnitude = n / d := by
  have positive : 0 < d := lt_of_le_of_lt (zero_le _) h.small
  rw [h.value, mul_comm, mul_add_div positive, div_eq_of_lt h.small, add_zero]

theorem Euclidean.remainder_eq {n d : Nat} {q r : BigInt} (h : Euclidean n d q r) : r.magnitude = n % d := by
  rw [h.value, mul_comm, mul_add_mod, mod_eq_of_lt h.small]

theorem divideLoop_spec {divisor rem : Nat} {top : List Nat} (positive : 0 < divisor) (small : divisor < base)
    (limbs : Limbs top) (less : rem < divisor) :
    ∃ quotients rem', divideLoop divisor top rem = .ok (quotients, rem') ∧ Limbs quotients ∧
      quotients.length = top.length ∧ rem' < divisor ∧
      rem * base ^ top.length + ofDigits base top.reverse = ofDigits base quotients.reverse * divisor + rem' := by
  induction top generalizing rem with
  | nil => exact ⟨[], rem, rfl, limbs, rfl, less, by simp⟩
  | cons d top ih =>
    have first : d < base := limbs d mem_cons_self
    have bound : d + rem * base < divisor * base := by
      have step : (rem + 1) * base ≤ divisor * base := mul_le_mul_right _ less
      rw [add_mul] at step
      omega
    have wideEnough : d + rem * base < 2 ^ 64 :=
      bound.trans_le ((mul_le_mul_right base small.le).trans (by decide))
    have digit : (d + rem * base) / divisor < base := (div_lt_iff_lt_mul positive).mpr (by rwa [mul_comm base])
    obtain ⟨quotients, rem', run, digits, length, less', value⟩ := ih limbs.tail (mod_lt (d + rem * base) positive)
    refine ⟨(d + rem * base) / divisor :: quotients, rem', ?_, digits.cons digit, by simp [length], less', ?_⟩
    · rw [divideLoop, wide_ok wideEnough, ok_bind, narrow_ok (digit.trans (by decide)), run]
      rfl
    · have split := mod_add_div (d + rem * base) divisor
      rw [ofDigits_reverse_cons, ofDigits_reverse_cons, length, length_cons, pow_succ]
      generalize base ^ top.length = power at value ⊢
      calc rem * (power * base) + (ofDigits base top.reverse + power * d)
          = (d + rem * base) * power + ofDigits base top.reverse := by ring
        _ = (d + rem * base) / divisor * divisor * power +
              ((d + rem * base) % divisor * power + ofDigits base top.reverse) := by
            nth_rewrite 1 [← split]
            ring
        _ = (ofDigits base quotients.reverse + power * ((d + rem * base) / divisor)) * divisor + rem' := by
            rw [value]
            ring

theorem divModBySingleLimb_spec {a : BigInt} {limb : Nat} (canonical : Canonical base a.digits) (positive : 0 < limb)
    (small : limb < base) :
    ∃ q r, divModBySingleLimb a limb = .ok (q, r) ∧ Euclidean a.magnitude limb q r := by
  have limbs : Limbs a.digits.reverse := fun d mem => canonical.digits d (mem_reverse.mp mem)
  obtain ⟨quotients, rem, run, digits, length, less, value⟩ := divideLoop_spec positive small limbs positive
  have nonempty : quotients.reverse ≠ [] := by
    rw [← length_pos_iff, length_reverse, length, length_reverse]
    exact length_pos_of_ne_nil canonical.nonempty
  have digits' : ∀ d ∈ quotients.reverse, d < base := fun d mem => digits d (mem_reverse.mp mem)
  refine ⟨{ digits := trim quotients.reverse, negative := a.abs.negative }, { digits := BigInt.limbs rem }, ?_, ?_, ?_, ?_, ?_⟩
  · have magnitudes : a.abs.digits = a.digits := rfl
    rw [divModBySingleLimb, divByUInt32, if_neg (pos_iff_ne_zero.mp positive), magnitudes, run]
    rfl
  · exact ⟨trim_canonical nonempty digits', rfl⟩
  · exact natural_limbs rem
  · rw [magnitude_limbs, magnitude, magnitude, ofDigits_trim, ← value, zero_mul, zero_add, reverse_reverse]
  · rw [magnitude_limbs]
    exact less

theorem naiveLoop_spec {divisor : BigInt} (natural : Natural divisor) (positive : 0 < divisor.magnitude) (fuel : Nat)
    {q r : BigInt} (hq : Natural q) (hr : Natural r) (enough : r.magnitude < fuel) :
    ∃ q' r', naiveLoop divisor fuel q r = .ok (q', r') ∧
      Euclidean (q.magnitude * divisor.magnitude + r.magnitude) divisor.magnitude q' r' := by
  induction fuel generalizing q r with
  | zero => omega
  | succ fuel ih =>
    unfold naiveLoop
    have order := absLess_iff hr.canonical natural.canonical
    by_cases less : absLess r divisor = true
    · rw [if_pos less]
      exact ⟨q, r, rfl, hq, hr, rfl, order.mp less⟩
    rw [if_neg less]
    obtain ⟨r', run, natural', value⟩ := subtract_natural hr natural (not_lt.mp (order.not.mp less))
    have one : Natural { digits := [1] } := ⟨⟨by simp, by simp [base], by simp⟩, rfl⟩
    obtain ⟨q', run', natural'', value'⟩ := add_natural hq one
    rw [run, run']
    obtain ⟨q'', r'', run'', result⟩ := ih natural'' natural' (by omega)
    refine ⟨q'', r'', run'', ?_⟩
    have unit : magnitude { digits := [1] } = 1 := rfl
    rw [value', unit, add_mul, one_mul] at result
    have same : q.magnitude * divisor.magnitude + divisor.magnitude + r'.magnitude =
        q.magnitude * divisor.magnitude + r.magnitude := by omega
    rwa [same] at result

theorem naiveDivMod_spec {a b : BigInt} (canonical : Canonical base a.digits) (canonical' : Canonical base b.digits)
    (positive : 0 < b.magnitude) : ∃ q r, naiveDivMod a b = .ok (q, r) ∧ Euclidean a.magnitude b.magnitude q r := by
  obtain ⟨q, r, run, result⟩ := naiveLoop_spec (natural_abs canonical') positive (ofDigits base a.digits + 1)
    natural_zero (natural_abs canonical) (lt_succ_self _)
  rw [magnitude_zero, zero_mul, zero_add] at result
  exact ⟨q, r, run, result⟩

theorem searchDigit_spec {divisor rem : BigInt} (natural : Natural divisor) (natural' : Natural rem) {digit : Nat}
    (exact : ∀ n, n * divisor.magnitude ≤ rem.magnitude ↔ n ≤ digit) (fuel : Nat) {low high qd : Nat}
    (below : high < base) (lower : low ≤ digit + 1) (upper : digit ≤ high) (last : low = 0 ∨ qd + 1 = low)
    (enough : high + 1 - low < 2 ^ fuel) : searchDigit divisor rem (fuel + 1) low high qd = .ok digit := by
  induction fuel generalizing low high qd with
  | zero =>
    rw [searchDigit, if_neg (by omega)]
    have same : qd = digit := by omega
    rw [same]
    rfl
  | succ fuel ih =>
    rw [searchDigit]
    by_cases more : low ≤ high
    · rw [if_pos more]
      have halved : low ≤ low + (high - low) / 2 ∧ low + (high - low) / 2 ≤ high ∧
          high - (low + (high - low) / 2) < 2 ^ fuel ∧ low + (high - low) / 2 - low < 2 ^ fuel := by
        omega
      dsimp only
      generalize low + (high - low) / 2 = mid at halved ⊢
      obtain ⟨prod, run, naturalProd, value⟩ := multiply_natural natural (natural_limbs mid)
      rw [magnitude_limbs] at value
      have order := lessEqual_iff naturalProd natural'
      rw [value, mul_comm, exact] at order
      rw [run, ok_bind]
      by_cases fits : lessEqual prod rem = true
      · have step : mid + 1 < 2 ^ 32 := lt_of_le_of_lt (by omega : mid + 1 ≤ base) (by decide)
        have found := order.mp fits
        rw [if_pos fits, narrow_ok step]
        exact ih below (by omega) upper (.inr rfl) (by omega)
      · have above := order.not.mp fits
        rw [if_neg fits, if_neg (by omega)]
        exact ih (by omega) lower (by omega) last (by omega)
    · rw [if_neg more]
      have same : qd = digit := by omega
      rw [same]
      rfl

theorem knuthRound_spec {divisor rem : BigInt} {limb : Nat} (natural : Natural divisor) (natural' : Natural rem)
    (small : limb < base) (less : rem.magnitude < divisor.magnitude) :
    ∃ qd rem', knuthRound divisor rem limb = .ok (qd, rem') ∧ qd < base ∧ Natural rem' ∧
      rem'.magnitude < divisor.magnitude ∧
      rem.magnitude * base + limb = qd * divisor.magnitude + rem'.magnitude := by
  have positive : 0 < divisor.magnitude := by omega
  have grown : Natural { rem with digits := trim (limb :: rem.digits) } :=
    ⟨trim_canonical (cons_ne_nil _ _) (forall_mem_cons.mpr ⟨small, natural'.canonical.digits⟩), natural'.sign⟩
  have value : magnitude { rem with digits := trim (limb :: rem.digits) } = rem.magnitude * base + limb := by
    rw [magnitude, ofDigits_trim, mul_comm, add_comm]
    rfl
  have digit : (rem.magnitude * base + limb) / divisor.magnitude < base := by
    rw [div_lt_iff_lt_mul positive]
    have step : (rem.magnitude + 1) * base ≤ divisor.magnitude * base := mul_le_mul_right _ less
    rw [add_mul] at step
    rw [mul_comm base]
    omega
  unfold knuthRound
  dsimp only
  generalize ({ rem with digits := trim (limb :: rem.digits) } : BigInt) = front at grown value ⊢
  rw [← value] at digit ⊢
  have exact : ∀ n, n * divisor.magnitude ≤ front.magnitude ↔ n ≤ front.magnitude / divisor.magnitude :=
    fun n => (le_div_iff_mul_le positive).symm
  have found : searchDigit divisor front 31 0 (base - 1) 0 = .ok (front.magnitude / divisor.magnitude) :=
    searchDigit_spec natural grown exact 30 (by decide) (zero_le _) (by omega) (.inl rfl) (by decide)
  have split := div_add_mod front.magnitude divisor.magnitude
  have remains := mod_lt front.magnitude positive
  rw [mul_comm] at split
  rw [found, ok_bind]
  generalize front.magnitude / divisor.magnitude = qd at digit split ⊢
  by_cases zero : qd = 0
  · subst zero
    exact ⟨0, front, rfl, digit, grown, by omega, by omega⟩
  rw [if_neg zero]
  obtain ⟨prod, run, naturalProd, product⟩ := multiply_natural natural (natural_limbs qd)
  rw [magnitude_limbs, mul_comm] at product
  obtain ⟨rem', run', natural'', difference⟩ := subtract_natural grown naturalProd (by omega)
  rw [run, ok_bind, run']
  exact ⟨qd, rem', rfl, digit, natural'', by omega, by omega⟩

theorem knuthLoop_spec {divisor rem : BigInt} {top : List Nat} (natural : Natural divisor)
    (natural' : Natural rem) (limbs : Limbs top) (less : rem.magnitude < divisor.magnitude) :
    ∃ digits rem', (∀ quotients, knuthLoop divisor top rem quotients = .ok (digits ++ quotients, rem')) ∧ Limbs digits ∧
      digits.length = top.length ∧ Natural rem' ∧ rem'.magnitude < divisor.magnitude ∧
      rem.magnitude * base ^ top.length + ofDigits base top.reverse =
        ofDigits base digits * divisor.magnitude + rem'.magnitude := by
  induction top generalizing rem with
  | nil => exact ⟨[], rem, fun _ => rfl, limbs, rfl, natural', less, by simp⟩
  | cons limb top ih =>
    obtain ⟨qd, rem', run, digit, natural'', less', value⟩ :=
      knuthRound_spec natural natural' (limbs limb mem_cons_self) less
    obtain ⟨digits, rem'', run', limbs', length, kept, less'', value'⟩ := ih natural'' limbs.tail less'
    refine ⟨digits ++ [qd], rem'', ?_, ?_, by simp [length], kept, less'', ?_⟩
    · intro quotients
      rw [knuthLoop, run, append_assoc]
      exact run' (qd :: quotients)
    · intro d mem
      rcases mem_append.mp mem with inside | front
      · exact limbs' d inside
      · rw [mem_singleton.mp front]
        exact digit
    · rw [ofDigits_reverse_cons, ofDigits_append, length, length_cons, pow_succ]
      generalize base ^ top.length = power at value' ⊢
      calc rem.magnitude * (power * base) + (ofDigits base top.reverse + power * limb)
          = (rem.magnitude * base + limb) * power + ofDigits base top.reverse := by ring
        _ = qd * divisor.magnitude * power + (rem'.magnitude * power + ofDigits base top.reverse) := by
            rw [value]
            ring
        _ = (ofDigits base digits + power * qd) * divisor.magnitude + rem''.magnitude := by
            rw [value']
            ring

theorem knuthRounds_cases (n : Nat) :
    knuthRounds n = .error .undefined ∨ ∃ rounds, knuthRounds n = .ok rounds ∧ rounds ≤ n ∧ rounds < 2 ^ 31 := by
  unfold knuthRounds
  dsimp only
  split
  · exact .inr ⟨_, rfl, mod_le _ _, ‹_›⟩
  · split
    · exact .inl rfl
    · exact .inr ⟨0, rfl, zero_le _, by decide⟩

theorem knuthRounds_small {n : Nat} (small : n < 2 ^ 31) : knuthRounds n = .ok n := by
  unfold knuthRounds
  rw [mod_eq_of_lt (small.trans (by decide))]
  exact if_pos small

theorem knuthDivMod_spec {a b : BigInt} {rounds : Nat} (canonical : Canonical base a.digits)
    (canonical' : Canonical base b.digits) (positive : 0 < b.magnitude) (counted : knuthRounds a.digits.length = .ok rounds)
    (inside : rounds ≤ a.digits.length) :
    ∃ q r, knuthDivMod a b = .ok (q, r) ∧
      Euclidean (ofDigits base (a.digits.take rounds)) b.magnitude q r := by
  have limbs : Limbs (a.digits.take rounds).reverse := fun d mem =>
    canonical.digits d (mem_of_mem_take (mem_reverse.mp mem))
  obtain ⟨digits, rem, run, limbs', length, natural, less, value⟩ :=
    knuthLoop_spec (natural_abs canonical') natural_zero limbs positive
  rw [length_reverse, length_take] at length
  rw [magnitude_zero, zero_mul, zero_add, reverse_reverse] at value
  have nonempty : digits ++ replicate (a.digits.length - rounds) 0 ≠ [] := by
    have := length_pos_of_ne_nil canonical.nonempty
    rw [← length_pos_iff, length_append, length_replicate]
    omega
  have small : ∀ d ∈ digits ++ replicate (a.digits.length - rounds) 0, d < base := by
    intro d mem
    rcases mem_append.mp mem with inside | zero
    · exact limbs' d inside
    · rw [eq_of_mem_replicate zero]
      decide
  refine ⟨{ digits := trim (digits ++ replicate (a.digits.length - rounds) 0) }, rem, ?_, ?_, natural, ?_, less⟩
  · rw [knuthDivMod, counted, ok_bind, run [], append_nil]
    rfl
  · exact ⟨trim_canonical nonempty small, rfl⟩
  · show _ = ofDigits base (trim _) * _ + _
    rw [value, ofDigits_trim, ofDigits_append_replicate_zero]
    rfl

theorem natural_shifted {b : BigInt} (natural : Natural b) (positive : 0 < b.magnitude) (count : Nat) :
    Natural { b with digits := replicate count 0 ++ b.digits } ∧
      magnitude { b with digits := replicate count 0 ++ b.digits } = b.magnitude * base ^ count := by
  have canonical := natural.canonical
  refine ⟨⟨⟨?_, ?_, ?_⟩, natural.sign⟩, ?_⟩
  · exact append_ne_nil_of_right_ne_nil _ canonical.nonempty
  · intro d mem
    rcases mem_append.mp mem with zero | inside
    · rw [eq_of_mem_replicate zero]
      decide
    · exact canonical.digits d inside
  · intro _
    rw [getLast?_append_of_ne_nil _ canonical.nonempty]
    by_cases long : 1 < b.digits.length
    · exact canonical.leading long
    intro last
    obtain ⟨d, single⟩ := length_eq_one_iff.mp
      (le_antisymm (not_lt.mp long) (length_pos_of_ne_nil canonical.nonempty))
    rw [single, getLast?_singleton, Option.some.injEq] at last
    rw [magnitude, single, last] at positive
    exact absurd positive (by decide)
  · rw [magnitude, ofDigits_append, ofDigits_replicate_zero, length_replicate, zero_add, mul_comm]
    rfl

theorem shiftLeftLimbs_spec {x : BigInt} (natural : Natural x) (count : Nat) :
    Natural (shiftLeftLimbs x count) ∧ (shiftLeftLimbs x count).magnitude = x.magnitude * base ^ count := by
  unfold shiftLeftLimbs
  by_cases zero : x.isZero = true
  · rw [if_pos zero, (isZero_iff natural.canonical).mp zero]
    exact ⟨natural, by rw [zero_mul]⟩
  · rw [if_neg zero]
    exact natural_shifted natural (pos_of_ne_zero ((isZero_iff natural.canonical).not.mp zero)) count

theorem next_block {b : BigInt} {k rounds : Nat} (natural : Natural b) (positive : 0 < b.magnitude) :
    let bHat : BigInt := { b with digits := replicate ((rounds + 1) * k) 0 ++ b.digits }
    let next : BigInt := if k < bHat.digits.length then { bHat with digits := bHat.digits.drop k } else {}
    ({ next with digits := trim next.digits } : BigInt) = { b with digits := replicate (rounds * k) 0 ++ b.digits } := by
  intro bHat next
  have some := length_pos_of_ne_nil natural.canonical.nonempty
  have long : k < bHat.digits.length := by
    simp only [bHat, length_append, length_replicate, add_mul]
    omega
  have dropped : bHat.digits.drop k = replicate (rounds * k) 0 ++ b.digits := by
    rw [drop_append_of_le_length (by rw [length_replicate, add_mul]; omega), drop_replicate]
    congr 2
    rw [Nat.add_mul, Nat.one_mul, Nat.add_sub_cancel]
  have same : next = { b with digits := replicate (rounds * k) 0 ++ b.digits } := by
    simp only [next, if_pos long, dropped, bHat]
  rw [same]
  simp only [(natural_shifted natural positive (rounds * k)).1.canonical.trim_eq]

theorem fastLoop_spec {b : BigInt} {k : Nat} (natural : Natural b) (positive : 0 < b.magnitude) (rounds : Nat)
    {q rem : BigInt} {low : Nat} (hq : Natural q) (hr : Natural rem) (counted : knuthRounds rem.digits.length = .ok low)
    (inside : low ≤ rem.digits.length) (small : low < 2 ^ 31) :
    ∃ q' r', fastLoop k (rounds + 1) q rem { b with digits := replicate (rounds * k) 0 ++ b.digits } = .ok (q', r') ∧
      Euclidean (q.magnitude * b.magnitude * base ^ ((rounds + 1) * k) + Nat.ofDigits base (rem.digits.take low))
        b.magnitude q' r' := by
  induction rounds generalizing q rem low with
  | zero =>
    obtain ⟨shifted, value⟩ := natural_shifted natural positive (0 * k)
    have divisor : 0 < magnitude { b with digits := replicate (0 * k) 0 ++ b.digits } := by
      rw [value]
      exact Nat.mul_pos positive (Nat.pow_pos (by decide))
    obtain ⟨qHat, rHat, run, result⟩ := knuthDivMod_spec hr.canonical shifted.canonical divisor counted inside
    obtain ⟨moved, movedValue⟩ := shiftLeftLimbs_spec hq k
    obtain ⟨sum, added, naturalSum, sumValue⟩ := add_natural moved result.quotient
    refine ⟨sum, rHat, ?_, naturalSum, result.remainder, ?_, ?_⟩
    · rw [fastLoop, run, ok_bind]
      dsimp only
      rw [added]
      rfl
    · have low := result.value
      rw [value] at low
      rw [low, sumValue, movedValue]
      ring
    · have less := result.small
      rwa [value, Nat.zero_mul, Nat.pow_zero, Nat.mul_one] at less
  | succ rounds ih =>
    obtain ⟨shifted, value⟩ := natural_shifted natural positive ((rounds + 1) * k)
    have divisor : 0 < magnitude { b with digits := replicate ((rounds + 1) * k) 0 ++ b.digits } := by
      rw [value]
      exact Nat.mul_pos positive (Nat.pow_pos (by decide))
    obtain ⟨qHat, rHat, run, result⟩ := knuthDivMod_spec hr.canonical shifted.canonical divisor counted inside
    obtain ⟨moved, movedValue⟩ := shiftLeftLimbs_spec hq k
    obtain ⟨sum, added, naturalSum, sumValue⟩ := add_natural moved result.quotient
    have remains := result.value
    -- what is left after a block has no more limbs than were counted
    have short : rHat.digits.length < 2 ^ 31 := by
      have limbs : Limbs (rem.digits.take low) := fun d mem => hr.canonical.digits d (mem_of_mem_take mem)
      have bound : rHat.magnitude < base ^ (low + 1) := by
        have upper := limbs.lt
        rw [length_take, Nat.min_eq_left inside] at upper
        have power : base ^ low ≤ base ^ (low + 1) := Nat.pow_le_pow_right (by decide) (Nat.le_succ low)
        omega
      have length := result.remainder.canonical.length_le_pow base_large (Nat.succ_pos low) bound
      by_contra long
      have lower := result.remainder.canonical.lower (by omega)
      have upper := limbs.lt
      rw [length_take, Nat.min_eq_left inside] at upper
      have power : base ^ low ≤ base ^ (rHat.digits.length - 1) := Nat.pow_le_pow_right (by decide) (by omega)
      have le : Nat.ofDigits base rHat.digits ≤ Nat.ofDigits base (rem.digits.take low) := by
        rw [remains]
        exact Nat.le_add_left _ _
      omega
    obtain ⟨q', r', run', result'⟩ := ih naturalSum result.remainder (knuthRounds_small short) (Nat.le_refl _) short
    refine ⟨q', r', ?_, ?_⟩
    · rw [fastLoop, run, ok_bind]
      dsimp only
      rw [added, next_block natural positive]
      exact run'
    · rw [take_length] at result'
      have same : sum.magnitude * b.magnitude * base ^ ((rounds + 1) * k) + Nat.ofDigits base rHat.digits =
          q.magnitude * b.magnitude * base ^ ((rounds + 1 + 1) * k) + Nat.ofDigits base (rem.digits.take low) := by
        rw [remains, sumValue, movedValue, value]
        show _ + rHat.magnitude = _
        ring
      rwa [same] at result'

section

variable {a b : BigInt}

theorem Euclidean.unique {n d : Nat} {q r q' r' : BigInt} (h : Euclidean n d q r) (h' : Euclidean n d q' r') :
    q = q' ∧ r = r' := by
  have same {x y : BigInt} (hx : Natural x) (hy : Natural y) (value : x.magnitude = y.magnitude) : x = y := by
    obtain ⟨digits, sign⟩ := x
    obtain ⟨digits', sign'⟩ := y
    obtain rfl : sign = sign' := hx.sign.trans hy.sign.symm
    obtain rfl : digits = digits' := hx.canonical.unique base_large hy.canonical value
    rfl
  exact ⟨same h.quotient h'.quotient (h.quotient_eq.trans h'.quotient_eq.symm),
    same h.remainder h'.remainder (h.remainder_eq.trans h'.remainder_eq.symm)⟩

theorem length_le_of_magnitude (canonical : Canonical base a.digits) (canonical' : Canonical base b.digits)
    (le : b.magnitude ≤ a.magnitude) : b.digits.length ≤ a.digits.length :=
  canonical'.length_le base_large canonical.digits canonical.nonempty le

section

variable (canonical : Canonical base a.digits) (canonical' : Canonical base b.digits) (positive : 0 < b.magnitude)
    (le : b.magnitude ≤ a.magnitude)

include canonical canonical' positive le

theorem fastDivMod_eq :
    ∃ t k, fastDivMod a b =
      if a.digits.length < 512 ∨ b.digits.length < 32 then knuthDivMod a b
      else do
        let (q, rem) ← fastLoop k (t + 1) {} a.abs { b.abs with digits := replicate (t * k) 0 ++ b.abs.digits }
        return ({ q with digits := trim q.digits }, rem) := by
  have some := length_pos_of_ne_nil canonical'.nonempty
  have shorter := length_le_of_magnitude canonical canonical' le
  have nonzero := (isZero_iff canonical').not.mpr (by omega)
  have nonzero' := (isZero_iff canonical).not.mpr (by omega)
  have divides : ¬ (b.digits.length = 0 ∨ b.isZero = true) := not_or.mpr ⟨by omega, nonzero⟩
  have large : ¬ (a.digits.length < b.digits.length ∨ a.isZero = true) := not_or.mpr ⟨by omega, nonzero'⟩
  have blocks : blockCount b.digits.length ((b.digits.length + 1) / 2) ≤
      blockCount a.digits.length ((b.digits.length + 1) / 2) := Nat.div_le_div_right (by omega)
  refine ⟨blockCount a.digits.length ((b.digits.length + 1) / 2) -
    blockCount b.digits.length ((b.digits.length + 1) / 2), (b.digits.length + 1) / 2, ?_⟩
  have shifted (count : Nat) : shiftLeftLimbs b.abs count =
      { b.abs with digits := replicate count 0 ++ b.abs.digits } := if_neg nonzero
  rw [fastDivMod]
  dsimp only
  rw [if_neg divides, if_neg large, if_neg (not_lt.mpr blocks), shifted]

theorem fastDivMod_spec {low : Nat} (counted : knuthRounds a.digits.length = .ok low) (inside : low ≤ a.digits.length)
    (small : low < 2 ^ 31) :
    ∃ q r, fastDivMod a b = .ok (q, r) ∧ Euclidean (ofDigits base (a.digits.take low)) b.magnitude q r := by
  obtain ⟨t, k, same⟩ := fastDivMod_eq canonical canonical' positive le
  rw [same]
  split
  · exact knuthDivMod_spec canonical canonical' positive counted inside
  obtain ⟨q, r, run, result⟩ := fastLoop_spec (k := k) (natural_abs canonical') positive t natural_zero
    (natural_abs canonical) counted inside small
  rw [magnitude_zero, zero_mul, zero_mul, zero_add] at result
  refine ⟨q, r, ?_, result⟩
  rw [run, ok_bind]
  simp only [result.quotient.canonical.trim_eq]
  rfl

theorem fastDivMod_undefined (fault : knuthRounds a.digits.length = .error .undefined) :
    fastDivMod a b = .error .undefined := by
  obtain ⟨t, k, same⟩ := fastDivMod_eq canonical canonical' positive le
  have length : a.abs.digits.length = a.digits.length := rfl
  rw [same]
  split
  · rw [knuthDivMod, fault, error_bind]
  · rw [fastLoop, knuthDivMod, length, fault]
    rfl

end

/-- A divisor of one limb, or limbs that `int` can count. -/
def Countable (a b : BigInt) : Prop := b.digits.length = 1 ∨ a.digits.length < 2 ^ 31

section

variable (canonical : Canonical base a.digits) (canonical' : Canonical base b.digits) (positive : 0 < b.magnitude)

include canonical canonical' positive

theorem divModLarge_spec (le : b.magnitude ≤ a.magnitude) (countable : Countable a b) :
    ∃ q r, divModLarge a b = .ok (q, r) ∧ Euclidean a.magnitude b.magnitude q r := by
  unfold divModLarge
  by_cases single : b.digits.length = 1
  · obtain ⟨limb, digits⟩ := length_eq_one_iff.mp single
    have value : b.magnitude = limb := by rw [magnitude, digits, ofDigits_singleton]
    have small : limb < base := canonical'.digits limb (by rw [digits]; exact mem_singleton_self _)
    rw [value] at positive ⊢
    rw [digits]
    exact divModBySingleLimb_spec canonical positive small
  · have few := countable.resolve_left single
    have whole : a.digits.take a.digits.length = a.digits := take_length
    rw [if_neg single]
    split
    · exact naiveDivMod_spec canonical canonical' positive
    split
    · have result := knuthDivMod_spec canonical canonical' positive (knuthRounds_small few) (le_refl _)
      rwa [whole] at result
    · have result := fastDivMod_spec canonical canonical' positive le (knuthRounds_small few) (le_refl _) few
      rwa [whole] at result

theorem divModLarge_truncated (le : b.magnitude ≤ a.magnitude) (uncountable : ¬ Countable a b) :
    divModLarge a b = .error .undefined ∨
      ∃ n q r, divModLarge a b = .ok (q, r) ∧ n < a.magnitude ∧ Euclidean n b.magnitude q r := by
  unfold Countable at uncountable
  push Not at uncountable
  obtain ⟨long, many⟩ := uncountable
  have fast : divModLarge a b = fastDivMod a b := by
    unfold divModLarge
    rw [if_neg long, if_neg (by omega), if_neg (by omega)]
  rw [fast]
  rcases knuthRounds_cases a.digits.length with fault | ⟨low, counted, inside, small⟩
  · exact .inl (fastDivMod_undefined canonical canonical' positive le fault)
  obtain ⟨q, r, run, result⟩ := fastDivMod_spec canonical canonical' positive le counted inside small
  refine .inr ⟨_, q, r, run, ?_, result⟩
  have limbs : Limbs (a.digits.take low) := fun d mem => canonical.digits d (mem_of_mem_take mem)
  have upper := limbs.lt
  rw [length_take, min_eq_left inside] at upper
  have lower := canonical.lower (by omega)
  have power : base ^ low ≤ base ^ (a.digits.length - 1) := Nat.pow_le_pow_right (by decide) (by omega)
  show _ < ofDigits base a.digits
  omega

theorem divMod_eq :
    divMod a b =
      if a.magnitude = 0 then .ok ({}, {})
      else if a.magnitude < b.magnitude then .ok ({}, a)
      else do
        let (q, r) ← divModLarge a b
        return ({ q with negative := a.negative ≠ b.negative ∧ q.isZero = false }, r) := by
  have nonzero := (isZero_iff canonical').not.mpr (by omega)
  have zero := isZero_iff canonical
  have order : absLess a.abs b.abs = true ↔ a.magnitude < b.magnitude := absLess_iff canonical canonical'
  unfold divMod
  rw [if_neg nonzero]
  simp only [zero, order]
  rfl

end

section

variable (natural : Natural a) (natural' : Natural b) (positive : 0 < b.magnitude)

include natural natural' positive

theorem divMod_natural :
    divMod a b =
      if a.magnitude < b.magnitude then .ok ({}, a)
      else divModLarge a b >>= fun p => .ok ({ p.1 with negative := false }, p.2) := by
  rw [divMod_eq natural.canonical natural'.canonical positive]
  by_cases zero : a.magnitude = 0
  · have same : a = {} := by
      obtain ⟨digits, sign⟩ := a
      obtain rfl : sign = false := natural.sign
      obtain rfl : digits = [0] := (natural.canonical.zero_iff base_large).mp zero
      rfl
    rw [if_pos zero, if_pos (by omega), same]
  · rw [if_neg zero]
    simp only [natural.sign, natural'.sign]
    rfl

theorem divMod_euclidean (countable : a.magnitude < b.magnitude ∨ Countable a b) :
    ∃ q r, divMod a b = .ok (q, r) ∧ Euclidean a.magnitude b.magnitude q r := by
  rw [divMod_natural natural natural' positive]
  by_cases less : a.magnitude < b.magnitude
  · rw [if_pos less]
    exact ⟨{}, a, rfl, natural_zero, natural, by rw [magnitude_zero, zero_mul, zero_add], less⟩
  obtain ⟨q, r, run, result⟩ := divModLarge_spec natural.canonical natural'.canonical positive (not_lt.mp less)
    (countable.resolve_left less)
  rw [if_neg less, run]
  exact ⟨_, r, rfl, ⟨result.quotient.canonical, rfl⟩, result.remainder, result.value, result.small⟩

theorem divMod_truncated (large : ¬ (a.magnitude < b.magnitude ∨ Countable a b)) {q r : BigInt}
    (run : divMod a b = .ok (q, r)) : q.magnitude * b.magnitude + r.magnitude < a.magnitude := by
  rw [not_or] at large
  obtain ⟨le, uncountable⟩ := large
  rw [divMod_natural natural natural' positive, if_neg le] at run
  rcases divModLarge_truncated natural.canonical natural'.canonical positive (not_lt.mp le) uncountable with
    fault | ⟨n, q', r', divided, less, result⟩
  · rw [fault] at run
    cases run
  · rw [divided] at run
    cases run
    have value := result.value
    show q'.magnitude * b.magnitude + r'.magnitude < a.magnitude
    omega

end

/-- `DivMod` of naturals is Euclidean division exactly when the divisor has one limb, exceeds the
    dividend, or `int` can count the limbs of the dividend; there all strategies agree. -/
theorem divMod_euclidean_iff (a b : BigInt) (natural : Natural a) (natural' : Natural b) (positive : 0 < b.magnitude) :
    ((∃ q r, divMod a b = .ok (q, r) ∧ Euclidean a.magnitude b.magnitude q r) ↔
      a.magnitude < b.magnitude ∨ b.digits.length = 1 ∨ a.digits.length < 2 ^ 31) ∧
    (a.digits.length < 2 ^ 31 → naiveDivMod a b = knuthDivMod a b ∧
      (b.magnitude ≤ a.magnitude → fastDivMod a b = knuthDivMod a b) ∧
      ∀ limb, b.digits = [limb] → divModBySingleLimb a limb = knuthDivMod a b) := by
  constructor
  · constructor
    · intro ⟨q, r, run, result⟩
      by_contra large
      have less := divMod_truncated natural natural' positive large run
      have value := result.value
      omega
    · exact divMod_euclidean natural natural' positive
  · intro few
    obtain ⟨q, r, run, result⟩ := knuthDivMod_spec natural.canonical natural'.canonical positive (knuthRounds_small few)
      (le_refl _)
    rw [take_length] at result
    refine ⟨?_, ?_, ?_⟩
    · obtain ⟨q', r', run', result'⟩ := naiveDivMod_spec natural.canonical natural'.canonical positive
      obtain ⟨rfl, rfl⟩ := result.unique result'
      rw [run, run']
    · intro le
      obtain ⟨q', r', run', result'⟩ := fastDivMod_spec natural.canonical natural'.canonical positive le
        (knuthRounds_small few) (le_refl _) few
      rw [take_length] at result'
      obtain ⟨rfl, rfl⟩ := result.unique result'
      rw [run, run']
    · intro limb digits
      have value : b.magnitude = limb := by rw [magnitude, digits, ofDigits_singleton]
      have small : limb < base := natural'.canonical.digits limb (by rw [digits]; exact mem_singleton_self _)
      rw [value] at positive result
      obtain ⟨q', r', run', result'⟩ := divModBySingleLimb_spec natural.canonical positive small
      obtain ⟨rfl, rfl⟩ := result.unique result'
      rw [run, run']

theorem divMod_euclidean_seventy :
    let a : BigInt := { digits := replicate 70 1 }
    let b : BigInt := { digits := [7, 3] }
    Natural a ∧ Natural b ∧ 0 < b.magnitude ∧ a.digits.length < 2 ^ 31 ∧
      ∃ q r, divMod a b = .ok (q, r) ∧ Euclidean a.magnitude b.magnitude q r := by
  intro a b
  have natural : Natural a := ⟨⟨by decide, by decide, by decide⟩, rfl⟩
  have natural' : Natural b := ⟨⟨by decide, by decide, by decide⟩, rfl⟩
  exact ⟨natural, natural', by decide, by decide,
    (divMod_euclidean_iff a b natural natural' (by decide)).1.mpr (.inr (.inr (by decide)))⟩

theorem divMod_shifted_one (n : Nat) (many : 2 ^ 31 ≤ n) :
    Natural { digits := replicate n 0 ++ [1] } ∧
      ∀ q r, divMod { digits := replicate n 0 ++ [1] } { digits := [0, 1] } = .ok (q, r) →
        ¬ Euclidean (magnitude { digits := replicate n 0 ++ [1] }) (magnitude { digits := [0, 1] }) q r := by
  have one : Natural { digits := [1] } := ⟨⟨by simp, by decide, by simp⟩, rfl⟩
  have ten : Natural { digits := [0, 1] } := ⟨⟨by simp, by decide, by simp⟩, rfl⟩
  obtain ⟨natural, value⟩ := natural_shifted one (by decide) n
  refine ⟨natural, fun q r run result => ?_⟩
  have total : magnitude { digits := replicate n 0 ++ [1] } = base ^ n := value.trans (one_mul _)
  have large : ¬ (magnitude { digits := replicate n 0 ++ [1] } < magnitude { digits := [0, 1] } ∨
      Countable { digits := replicate n 0 ++ [1] } { digits := [0, 1] }) := by
    have power : base ^ 1 ≤ base ^ n := Nat.pow_le_pow_right (by decide) (by omega)
    have divisor : magnitude { digits := [0, 1] } = base ^ 1 := rfl
    have length : (replicate n 0 ++ [1]).length = n + 1 := by simp
    rw [Countable, length, total]
    exact not_or.mpr ⟨not_lt.mpr power, not_or.mpr ⟨by decide, by omega⟩⟩
  exact absurd result.value (ne_of_gt (divMod_truncated natural ten (by decide) large run))

theorem divMod_loses_limbs :
    let a : BigInt := { digits := replicate (2 ^ 31) 0 ++ [1] }
    let b : BigInt := { digits := [0, 1] }
    Natural a ∧ Natural b ∧ 0 < b.magnitude ∧
      ¬ ∃ q r, divMod a b = .ok (q, r) ∧ Euclidean a.magnitude b.magnitude q r := by
  intro a b
  have ten : Natural b := ⟨⟨by simp, by decide, by simp [b]⟩, rfl⟩
  obtain ⟨natural, fails⟩ := divMod_shifted_one (2 ^ 31) (le_refl _)
  exact ⟨natural, ten, by decide, fun ⟨q, r, run, result⟩ => fails q r run result⟩

end

end NginBase.Math.BigInt
