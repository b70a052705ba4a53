import NginBase.Crypto.Jwt
import NginBase.Json.Acceptance

namespace NginBase.Crypto.Tokens

open Json Library Except Grammar Int List

section

variable {a b c : Int64}

theorem addInt64_fits (fits : fitsInt64 (a.toInt + b.toInt) = true) :
    addInt64 a b = .ok (a + b) ∧ (a + b).toInt = a.toInt + b.toInt := by
  apply And.intro (if_pos fits)
  simp only [fitsInt64, decide_eq_true_eq] at fits
  rw [Int64.toInt_add]
  exact bmod_eq_of_le (by omega) (by omega)

theorem addInt64_compare (skew : 0 ≤ b.toInt) :
    ((do let sum ← addInt64 a b; if sum < c then rejected else .ok ()) : TokenExpected Unit) =
      if a.toInt + b.toInt ≤ 2 ^ 63 - 1 then if a.toInt + b.toInt < c.toInt then rejected else .ok ()
      else .error .undefined := by
  have low := a.le_toInt
  by_cases fits : a.toInt + b.toInt ≤ 2 ^ 63 - 1
  · have sum := addInt64_fits (a := a) (b := b) (by simp only [fitsInt64, decide_eq_true_eq]; omega)
    rw [if_pos fits, sum.1, ok_bind, ← sum.2]
    simp only [Int64.lt_iff_toInt_lt]
  · have large : fitsInt64 (a.toInt + b.toInt) = false := by
      simp only [fitsInt64, decide_eq_false_iff_not]
      omega
    rw [if_neg fits, addInt64, if_neg (by simp [large])]
    rfl

end

section

variable (claims : JwtClaims) (policy : JwtValidationPolicy)

def Expired : Prop :=
  policy.validateExpiration = true ∧ claims.hasExpirationTime = true ∧
    claims.expirationTime.toInt + policy.allowedClockSkewSeconds.toInt < policy.currentUnixTimeSeconds.toInt

def Early : Prop :=
  policy.validateNotBefore = true ∧ claims.hasNotBefore = true ∧
    policy.currentUnixTimeSeconds.toInt + policy.allowedClockSkewSeconds.toInt < claims.notBefore.toInt

instance : Decidable (Expired claims policy) := by
  unfold Expired
  infer_instance

instance : Decidable (Early claims policy) := by
  unfold Early
  infer_instance

/-- Every time check that is made is exact, and with the checks before them they decide the claims. -/
structure TimesExact : Prop where
  expiration : checkExpiration claims policy = if Expired claims policy then rejected else .ok ()
  notBefore : ¬ Expired claims policy → checkNotBefore claims policy = if Early claims policy then rejected else .ok ()
  decided : validateClaims claims policy = do
    checkRequired claims policy
    checkIssuer claims policy
    checkAudience claims policy
    checkPresence claims policy
    if Expired claims policy ∨ Early claims policy then rejected else .ok ()

def SumsFit : Prop :=
  (policy.validateExpiration = true → claims.hasExpirationTime = true →
    claims.expirationTime.toInt + policy.allowedClockSkewSeconds.toInt ≤ 2 ^ 63 - 1) ∧
  (¬ Expired claims policy → policy.validateNotBefore = true → claims.hasNotBefore = true →
    policy.currentUnixTimeSeconds.toInt + policy.allowedClockSkewSeconds.toInt ≤ 2 ^ 63 - 1)

variable {claims policy}

section

variable (now : policy.currentUnixTimeSeconds ≠ 0) (skew : 0 ≤ policy.allowedClockSkewSeconds.toInt)

include now skew

theorem checkExpiration_eq : checkExpiration claims policy =
      if policy.validateExpiration = true ∧ claims.hasExpirationTime = true ∧
          2 ^ 63 - 1 < claims.expirationTime.toInt + policy.allowedClockSkewSeconds.toInt then .error .undefined
      else if Expired claims policy then rejected else .ok () := by
  unfold checkExpiration
  by_cases asked : policy.validateExpiration = true ∧ claims.hasExpirationTime = true
  · rw [if_pos ⟨now, asked⟩, addInt64_compare skew]
    have late : Expired claims policy ↔ claims.expirationTime.toInt + policy.allowedClockSkewSeconds.toInt < policy.currentUnixTimeSeconds.toInt := by
      simp [Expired, asked]
    simp only [asked, true_and, late]
    by_cases fits : claims.expirationTime.toInt + policy.allowedClockSkewSeconds.toInt ≤ 2 ^ 63 - 1
    · rw [if_pos fits, if_neg (not_lt.mpr fits)]
    · rw [if_neg fits, if_pos (not_le.mp fits)]
  · have never : ¬ Expired claims policy := fun all => asked ⟨all.1, all.2.1⟩
    rw [if_neg fun all => asked all.2, if_neg (fun all => asked ⟨all.1, all.2.1⟩), if_neg never]

theorem checkNotBefore_eq : checkNotBefore claims policy = if policy.validateNotBefore = true ∧ claims.hasNotBefore = true ∧
          2 ^ 63 - 1 < policy.currentUnixTimeSeconds.toInt + policy.allowedClockSkewSeconds.toInt then .error .undefined
      else if Early claims policy then rejected else .ok () := by
  unfold checkNotBefore
  by_cases asked : policy.validateNotBefore = true ∧ claims.hasNotBefore = true
  · rw [if_pos ⟨now, asked⟩, addInt64_compare skew]
    have late : Early claims policy ↔ policy.currentUnixTimeSeconds.toInt + policy.allowedClockSkewSeconds.toInt < claims.notBefore.toInt := by
      simp [Early, asked]
    simp only [asked, true_and, late]
    by_cases fits : policy.currentUnixTimeSeconds.toInt + policy.allowedClockSkewSeconds.toInt ≤ 2 ^ 63 - 1
    · rw [if_pos fits, if_neg (not_lt.mpr fits)]
    · rw [if_neg fits, if_pos (not_le.mp fits)]
  · have never : ¬ Early claims policy := fun all => asked ⟨all.1, all.2.1⟩
    rw [if_neg fun all => asked all.2, if_neg (fun all => asked ⟨all.1, all.2.1⟩), if_neg never]

end

theorem bind_rejected {α : Type} (f : Unit → TokenExpected α) : (rejected >>= f) = (rejected : TokenExpected α) := rfl

/-- The time checks are exact if and only if the sums they compute fit into 64 bits. -/
theorem time_checks_exact_iff (claims : JwtClaims) (policy : JwtValidationPolicy)
    (now : policy.currentUnixTimeSeconds ≠ 0) (skew : 0 ≤ policy.allowedClockSkewSeconds.toInt) :
    TimesExact claims policy ↔ SumsFit claims policy := by
  have expiration : checkExpiration claims policy = _ := checkExpiration_eq now skew
  have notBefore : checkNotBefore claims policy = _ := checkNotBefore_eq now skew
  constructor
  · intro exact_
    constructor
    · intro asked present
      by_contra large
      rw [if_pos ⟨asked, present, not_le.mp large⟩, exact_.expiration] at expiration
      split at expiration <;> cases expiration
    · intro current asked present
      by_contra large
      rw [if_pos ⟨asked, present, not_le.mp large⟩, exact_.notBefore current] at notBefore
      split at notBefore <;> cases notBefore
  · intro fit
    have first : checkExpiration claims policy = if Expired claims policy then rejected else .ok () := by
      rw [expiration, if_neg]
      intro large
      exact absurd (fit.1 large.1 large.2.1) (not_le.mpr large.2.2)
    have second (current : ¬ Expired claims policy) :
        checkNotBefore claims policy = if Early claims policy then rejected else .ok () := by
      rw [notBefore, if_neg]
      intro large
      exact absurd (fit.2 current large.1 large.2.1) (not_le.mpr large.2.2)
    apply TimesExact.mk first second
    rw [validateClaims, first]
    by_cases expired : Expired claims policy
    · rw [if_pos expired, if_pos (.inl expired), bind_rejected]
    · rw [if_neg expired, ok_bind, second expired]
      simp only [expired, false_or]

theorem time_checks_exact_iff_present :
    TimesExact { expirationTime := 1000, hasExpirationTime := true, notBefore := 900, hasNotBefore := true }
      { currentUnixTimeSeconds := 1030, allowedClockSkewSeconds := 60 } := by
  apply (time_checks_exact_iff _ _ (by decide) (by decide)).mpr
  exact ⟨fun _ _ => by decide, fun _ _ _ => by decide⟩

theorem time_checks_overflow : let claims : JwtClaims := { expirationTime := Int64.maxValue, hasExpirationTime := true }
    let policy : JwtValidationPolicy := { currentUnixTimeSeconds := 1000, allowedClockSkewSeconds := 60 }
    validateClaims claims policy = .error .undefined ∧ ¬ Expired claims policy ∧ ¬ Early claims policy ∧
      ¬ TimesExact claims policy := by
  intro claims policy
  apply And.intro (by decide +kernel)
  apply And.intro (by decide)
  apply And.intro (by decide)
  intro exact_
  exact absurd exact_.expiration (by decide +kernel)

end

structure ConvertsExactly (value : Scalar) (n : Int) : Prop where
  exact_ : n < 2 ^ 63 → jsonNumberToInt64 value = .ok (.ofInt n)
  refused : 2 ^ 63 ≤ n → ∃ failure, jsonNumberToInt64 value = .error (.error failure)

def integerValue (n : Int) : Scalar := if n ≤ 2 ^ 63 - 1 then .int64 (.ofInt n) else .uint64 (.ofNat n.toNat)

theorem truncate_natCast (n : Nat) : truncate (n : ℚ) = n := by
  simp [truncate]

theorem jsonNumberToInt64_large {n : Nat} (low : 2 ^ 63 ≤ n) (high : n < 2 ^ 64) : jsonNumberToInt64 (.uint64 (.ofNat n)) =
      if 2 ^ 63 + 1024 < n then invalid else castInt64 (roundBinary 53 n) := by
  have stored : (UInt64.ofNat n).toNat = n := UInt64.toNat_ofNat_of_lt' high
  have double : doubleOfInt n = (roundBinary 53 n : ℚ) := by
    rw [doubleOfInt, if_neg (by omega), natAbs_natCast]
  have whole : ¬ ((roundBinary 53 n : ℚ) ≠ ((roundBinary 53 n : Int) : ℚ)) := by
    exact fun differ => differ rfl
  have positive : ¬ (((roundBinary 53 n : Int) : ℚ) < doubleOfInt (-2 ^ 63)) := by
    have negative : doubleOfInt (-2 ^ 63) ≤ 0 := by
      exact neg_nonpos.mpr (Nat.cast_nonneg _)
    exact not_lt.mpr (negative.trans (Nat.cast_nonneg _))
  have above : doubleOfInt (2 ^ 63 - 1) < ((roundBinary 53 n : Int) : ℚ) ↔ 2 ^ 63 + 1024 < n := by
    have bound : roundBinary 53 n ≤ 2 ^ 63 ↔ n ≤ 2 ^ 63 + 1024 :=
      roundBinary_le_pow (by decide) (by decide) low high
    rw [doubleOfInt_max, cast_natCast, ← not_le, ← not_le, not_iff_not, ← bound]
    exact_mod_cast Iff.rfl
  rw [jsonNumberToInt64, tryInt64_large (by omega)]
  simp only [Scalar.tryDouble, stored, double, truncate_natCast, whole, positive, above, false_or]

theorem convertsExactly_iff {n : Int} (low : -2 ^ 63 ≤ n) (high : n ≤ 2 ^ 64 - 1) :
    ConvertsExactly (integerValue n) n ↔ n < 2 ^ 63 ∨ 2 ^ 63 + 1024 < n := by
  unfold integerValue
  by_cases small : n ≤ 2 ^ 63 - 1
  · rw [if_pos small]
    apply iff_of_true
    · constructor
      · intro _
        rfl
      · intro large
        omega
    · exact .inl (by omega)
  · obtain ⟨m, rfl⟩ := eq_ofNat_of_zero_le (show 0 ≤ n by omega)
    rw [if_neg small, toNat_natCast]
    have computed := jsonNumberToInt64_large (n := m) (by omega) (by omega)
    by_cases far : 2 ^ 63 + 1024 < m
    · rw [if_pos far] at computed
      apply iff_of_true
      · exact ⟨fun less => by omega, fun _ => ⟨_, computed⟩⟩
      · exact .inr (by omega)
    · rw [if_neg far] at computed
      apply iff_of_false
      · intro exact_
        obtain ⟨failure, refused⟩ := exact_.refused (by omega)
        rw [computed, castInt64] at refused
        split at refused <;> cases refused
      · omega

theorem integer_ascii {minus int : Bytes} (sign : Minus minus) (integer : Integer int) :
    Unicode.ValidUtf8 (minus ++ int) := by
  apply Unicode.validUtf8_ascii
  intro b member
  rcases mem_append.mp member with member | member
  · cases sign with
    | inl none => simp [none] at member
    | inr minus =>
      rw [minus, mem_singleton] at member
      rw [member]
      decide
  · have high : b.toNat ≤ 0x39 := UInt8.le_iff_toNat_le.mp (integer.1.2 b member).2
    omega

/-- Every integer literal of the grammar is read as one value, wherever it stands, and that value is
    converted exactly or refused if and only if it is not one of the 1025 integers from `2 ^ 63` on. -/
theorem jsonNumberToInt64_exact_iff (minus int : Bytes) (sign : Minus minus) (integer : Integer int)
    (low : -2 ^ 63 ≤ signed minus int) (high : signed minus int ≤ 2 ^ 64 - 1) :
    ∃ value, (∀ fromChars after, Stops after →
        readNumber fromChars (minus ++ int ++ after) = .ok ((minus ++ int).length, value)) ∧
      (∀ setup doc, Parser.parse setup (minus ++ int) = .ok doc → doc.tree.erase = .scalar value) ∧
      (ConvertsExactly value (signed minus int) ↔
        signed minus int < 2 ^ 63 ∨ 2 ^ 63 + 1024 < signed minus int) := by
  have number (fromChars : Bytes → FromCharsDouble) :
      Number fromChars (minus ++ int) (integerValue (signed minus int)) := by
    apply Exists.intro minus
    apply Exists.intro int
    refine ⟨[], [], by simp, sign, integer, .inl rfl, .inl rfl, ?_⟩
    exact ⟨low, high, rfl⟩
  apply Exists.intro (integerValue (signed minus int))
  apply And.intro fun fromChars after stop => readNumber_append (number fromChars) stop
  apply And.intro _ (convertsExactly_iff low high)
  intro setup doc parsed
  have text : Text setup.fromChars (minus ++ int) (.scalar (integerValue (signed minus int))) :=
    ⟨[], _, [], by simp, by simp [Ws], .number (number _), by simp [Ws]⟩
  have keeps : (Value.scalar (integerValue (signed minus int))).Keeps setup.toProfile := trivial
  rcases Parser.parse_text setup keeps (integer_ascii sign integer) text with ⟨doc', ok, meaning⟩ | failed | failed
  · cases ok.symm.trans parsed
    exact meaning
  all_goals
    obtain ⟨e, failed, _⟩ := failed
    cases failed.symm.trans parsed

theorem jsonNumberToInt64_exact_minimum :
    ∃ value, ConvertsExactly value (-2 ^ 63) := by
  have integer : Integer [0x39, 0x32, 0x32, 0x33, 0x33, 0x37, 0x32, 0x30, 0x33, 0x36, 0x38, 0x35, 0x34, 0x37, 0x37,
      0x35, 0x38, 0x30, 0x38] := ⟨⟨by decide, by unfold Digit; decide +kernel⟩, by decide⟩
  have value : signed [0x2D] [0x39, 0x32, 0x32, 0x33, 0x33, 0x37, 0x32, 0x30, 0x33, 0x36, 0x38, 0x35, 0x34, 0x37, 0x37,
      0x35, 0x38, 0x30, 0x38] = -2 ^ 63 := by decide +kernel
  have least := jsonNumberToInt64_exact_iff [0x2D] _ (.inr rfl) integer
  obtain ⟨value, _, _, converted⟩ := least (by decide) (by decide)
  exact ⟨value, converted.mpr (.inl (by decide))⟩

theorem jsonNumberToInt64_out_of_range : (readNumber (fun _ => ⟨⟨0⟩, 0, false⟩) "9223372036854775808".toUTF8.toList =
      .ok (19, .uint64 9223372036854775808)) ∧
    jsonNumberToInt64 (.uint64 9223372036854775808) = .error .undefined ∧
    ¬ ConvertsExactly (.uint64 9223372036854775808) (2 ^ 63) := by
  have converted : jsonNumberToInt64 (.uint64 9223372036854775808) = .error .undefined := by decide +kernel
  apply And.intro (by decide +kernel)
  apply And.intro converted
  intro exact_
  obtain ⟨failure, refused⟩ := exact_.refused (by decide)
  cases converted.symm.trans refused

section

variable {setup : Setup} {members : List (Bytes × Value)} {name : Bytes}

theorem stringClaim_some {text : Option Bytes} (h : stringClaim members name = .ok text) :
    text.isSome = (find members name).isSome := by
  unfold stringClaim at h
  split at h
  · rename_i absent
    rw [absent, ← ok.inj h]
    rfl
  · rename_i present
    rw [present, ← ok.inj h]
    rfl
  · cases h

theorem int64Claim_some {number : Option Int64} (h : int64Claim members name = .ok number) :
    number.isSome = (find members name).isSome := by
  unfold int64Claim at h
  split at h
  · rename_i absent
    rw [absent, ← ok.inj h]
    rfl
  · rename_i value present
    rw [present]
    cases converted : jsonNumberToInt64 value with
    | error e =>
      rw [converted] at h
      cases h
    | ok integer =>
      rw [converted] at h
      rw [← ok.inj h]
      rfl
  · cases h

theorem audienceItems_length {items : List Value} {audiences : List Bytes} (h : audienceItems items = .ok audiences) :
    audiences.length = items.length := by
  induction items generalizing audiences with
  | nil =>
    rw [← ok.inj h]
    rfl
  | cons item items ih =>
    unfold audienceItems at h
    split at h
    · contradiction
    · rename_i same
      obtain ⟨rfl, rfl⟩ := cons.inj same
      cases rest : audienceItems items with
      | error e =>
        rw [rest] at h
        cases h
      | ok texts =>
        rw [rest] at h
        rw [← ok.inj h, length_cons, length_cons, ih rest]
    · cases h

theorem audienceClaim_nonempty {audiences : List Bytes} (h : audienceClaim members = .ok audiences) :
    audiences.length ≠ 0 ↔ (find members aud).isSome = true ∧ ∀ items, find members aud = some (.array items) → items ≠ [] := by
  unfold audienceClaim at h
  split at h
  · rename_i absent
    simp [absent, ← ok.inj h]
  · rename_i present
    simp [present, ← ok.inj h]
  · rename_i items present
    have length := audienceItems_length h
    rw [present, length]
    simp
  · cases h

def registered : List Bytes := [iss, sub, aud, exp, nbf, iat]

theorem parseClaims_parts {payloadJson : Bytes} {claims : JwtClaims} (h : parseClaims setup payloadJson = .ok claims) :
    ∃ members, parseJsonObject setup payloadJson = .ok members ∧
      claims.hasIssuer = (find members iss).isSome ∧ claims.hasSubject = (find members sub).isSome ∧
      audienceClaim members = .ok claims.audiences ∧ claims.hasExpirationTime = (find members exp).isSome ∧
      claims.hasNotBefore = (find members nbf).isSome ∧ claims.hasIssuedAt = (find members iat).isSome := by
  rcases bind_ok h with ⟨members, read, h⟩
  rcases bind_ok h with ⟨issuer, issued, h⟩
  rcases bind_ok h with ⟨subject, named, h⟩
  rcases bind_ok h with ⟨audiences, meant, h⟩
  rcases bind_ok h with ⟨expirationTime, expires, h⟩
  rcases bind_ok h with ⟨notBefore, starts, h⟩
  rcases bind_ok h with ⟨issuedAt, written, h⟩
  obtain rfl := ok.inj h
  have object : parseJsonObject setup payloadJson = .ok members := by
    cases parsed : parseJsonObject setup payloadJson with
    | error e =>
      rw [parsed] at read
      cases read
    | ok members' =>
      rw [parsed] at read
      rw [ok.inj read]
  exact ⟨members, object, stringClaim_some issued, stringClaim_some named, meant, int64Claim_some expires,
    int64Claim_some starts, int64Claim_some written⟩

theorem has_iff {payloadJson : Bytes} {claims : JwtClaims} (h : parseClaims setup payloadJson = .ok claims)
    (object : parseJsonObject setup payloadJson = .ok members) :
    claims.has name = true ↔ (find members name).isSome = true ∧ name ∈ registered ∧
      (name = aud → find members aud ≠ some (.array [])) := by
  obtain ⟨members', object', issuer, subject, audiences, expiration, notBefore, issuedAt⟩ := parseClaims_parts h
  obtain rfl := ok.inj (object'.symm.trans object)
  have nonempty := audienceClaim_nonempty audiences
  unfold JwtClaims.has
  by_cases isIss : name = iss
  · simp [isIss, issuer, registered, iss, aud]
  by_cases isSub : name = sub
  · simp [isSub, subject, registered, iss, sub, aud]
  by_cases isAud : name = aud
  · have differ : aud ≠ iss ∧ aud ≠ sub := by decide
    rw [isAud, if_neg differ.1, if_neg differ.2, if_pos rfl, decide_eq_true_eq, nonempty]
    apply and_congr_right
    intro present
    constructor
    · intro filled
      exact ⟨by decide, fun _ empty => filled [] empty rfl⟩
    · rintro ⟨_, filled⟩ items found rfl
      exact filled rfl found
  · by_cases isExp : name = exp
    · simp [isExp, expiration, registered, iss, sub, aud, exp]
    · by_cases isNbf : name = nbf
      · simp [isNbf, notBefore, registered, iss, sub, aud, exp, nbf]
      · by_cases isIat : name = iat
        · simp [isIat, issuedAt, registered, iss, sub, aud, exp, nbf, iat]
        · simp [isIss, isSub, isAud, isExp, isNbf, isIat, registered]

theorem parseJwtCompact_claims {token : Bytes} {options : JwtParseOptions} {parsed : JwtCompactToken}
    (h : parseJwtCompact setup token options = .ok parsed) : parseClaims setup parsed.payloadJson = .ok parsed.claims := by
  rcases bind_ok h with ⟨⟨encodedHeader, encodedPayload, encodedSignature⟩, _, h⟩
  dsimp only at h
  split at h
  · cases h
  rcases bind_ok h with ⟨headerJson, _, h⟩
  rcases bind_ok h with ⟨payloadJson, _, h⟩
  rcases bind_ok h with ⟨signature, _, h⟩
  rcases bind_ok h with ⟨algorithm, _, h⟩
  rcases bind_ok h with ⟨claims, extracted, h⟩
  obtain rfl := ok.inj h
  exact extracted

theorem checkRequired_ok {claims : JwtClaims} {policy : JwtValidationPolicy} :
    checkRequired claims policy = .ok () ↔ ∀ name ∈ policy.requiredClaims, claims.has name = true := by
  unfold checkRequired
  by_cases all : policy.requiredClaims.all claims.has = true
  · rw [if_pos all]
    exact iff_of_true rfl (all_eq_true.mp all)
  · rw [if_neg all, ← all_eq_true]
    exact iff_of_false (by simp [rejected]) all

/-- The check of required claims agrees with the payload if and only if a required claim is absent
    from it, or all of them are registered claims and an empty array of audiences is not required. -/
theorem required_claims_agree_iff (setup : Setup) (token : Bytes) (options : JwtParseOptions) (policy : JwtValidationPolicy)
    (parsed : JwtCompactToken) (accepted : parseJwtCompact setup token options = .ok parsed) :
    (checkRequired parsed.claims policy = .ok () ↔ ∀ name ∈ policy.requiredClaims, hasJwtClaim setup parsed name = .ok true) ↔
      (∃ name ∈ policy.requiredClaims, hasJwtClaim setup parsed name = .ok false) ∨
        ∀ name ∈ policy.requiredClaims, name ∈ registered ∧
          (name = aud → ∀ members, parseJsonObject setup parsed.payloadJson = .ok members →
            find members aud ≠ some (.array [])) := by
  have extracted := parseJwtCompact_claims accepted
  obtain ⟨members, object, _⟩ := parseClaims_parts extracted
  have present (name : Bytes) : hasJwtClaim setup parsed name = .ok (find members name).isSome := by
    rw [hasJwtClaim, object]
    rfl
  have decided (name : Bytes) : parsed.claims.has name = true ↔ _ := has_iff extracted object
  simp only [checkRequired_ok, decided, present, object, ok.injEq, forall_eq']
  by_cases absent : ∃ name ∈ policy.requiredClaims, (find members name).isSome = false
  · apply iff_of_true _ (.inl absent)
    obtain ⟨name, required, missing⟩ := absent
    constructor
    · intro all name' required'
      exact (all name' required').1
    · intro all
      rw [all name required] at missing
      cases missing
  · have all : ∀ name ∈ policy.requiredClaims, (find members name).isSome = true := by
      intro name required
      by_contra missing
      exact absent ⟨name, required, Bool.eq_false_iff.mpr missing⟩
    simp only [absent, false_or]
    constructor
    · intro agree name required
      exact (agree.mpr all name required).2
    · intro fine
      exact ⟨fun _ => all, fun _ name required => ⟨all name required, fine name required⟩⟩

def tokenOf (encodedPayload : String) : Bytes := ("eyJhbGciOiJIUzI1NiJ9." ++ encodedPayload ++ ".").toUTF8.toList

def plainSetup : Setup := { fromChars := fun _ => ⟨⟨0⟩, 0, false⟩ }

theorem required_claims_agree_iff_expiration :
    ∃ parsed, parseJwtCompact plainSetup (tokenOf "eyJleHAiOjF9") {} = .ok parsed ∧
      (checkRequired parsed.claims { requiredClaims := [exp] } = .ok () ↔
        ∀ name ∈ [exp], hasJwtClaim plainSetup parsed name = .ok true) := by
  have accepted : (match parseJwtCompact plainSetup (tokenOf "eyJleHAiOjF9") {} with
      | .ok _ => true
      | .error _ => false) = true := by decide +kernel
  cases read : parseJwtCompact plainSetup (tokenOf "eyJleHAiOjF9") {} with
  | error e =>
    rw [read] at accepted
    cases accepted
  | ok parsed =>
    apply Exists.intro parsed
    apply And.intro rfl
    apply (required_claims_agree_iff plainSetup _ _ { requiredClaims := [exp] } parsed read).mpr
    apply Or.inr
    intro name member
    rw [mem_singleton.mp member]
    exact ⟨by decide, fun other => absurd other (by decide)⟩

def emptyToken (encodedPayload payloadJson : String) : JwtCompactToken :=
  ⟨.hs256, "\x7b\"alg\":\"HS256\"\x7d".toUTF8.toList, payloadJson.toUTF8.toList, (tokenOf encodedPayload).dropLast, [], {}⟩

theorem required_claims_missed : let privateClaim := emptyToken "eyJqdGkiOiJ4In0" "\x7b\"jti\":\"x\"\x7d"
    let noAudience := emptyToken "eyJhdWQiOltdfQ" "\x7b\"aud\":[]\x7d"
    let jti := "jti".toUTF8.toList
    (parseJwtCompact plainSetup (tokenOf "eyJqdGkiOiJ4In0") {} = .ok privateClaim ∧
      ¬ (checkRequired privateClaim.claims { requiredClaims := [jti] } = .ok () ↔
        ∀ name ∈ [jti], hasJwtClaim plainSetup privateClaim name = .ok true)) ∧
    parseJwtCompact plainSetup (tokenOf "eyJhdWQiOltdfQ") {} = .ok noAudience ∧
      ¬ (checkRequired noAudience.claims { requiredClaims := [aud] } = .ok () ↔
        ∀ name ∈ [aud], hasJwtClaim plainSetup noAudience name = .ok true) := by
  decide +kernel

end

end NginBase.Crypto.Tokens
