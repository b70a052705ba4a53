import NginBase.Crypto.Paseto

namespace NginBase.Crypto.Tokens

open Json

/-! Compact JSON web tokens: parsing, claims and the validation policy. -/

inductive JwtAlgorithm
  | hs256
  | ps256
  | es256
  | edDsa
  deriving DecidableEq

structure JwtParseOptions where
  maxHeaderBytes : UInt64 := 4096
  maxPayloadBytes : UInt64 := 65536
  maxSignatureBytes : UInt64 := 8192

structure JwtClaims where
  issuer : Bytes := []
  hasIssuer : Bool := false
  subject : Bytes := []
  hasSubject : Bool := false
  audiences : List Bytes := []
  expirationTime : Int64 := 0
  hasExpirationTime : Bool := false
  notBefore : Int64 := 0
  hasNotBefore : Bool := false
  issuedAt : Int64 := 0
  hasIssuedAt : Bool := false
  deriving DecidableEq

structure JwtCompactToken where
  algorithm : JwtAlgorithm
  headerJson : Bytes
  payloadJson : Bytes
  signingInput : Bytes
  signature : Bytes
  claims : JwtClaims
  deriving DecidableEq

structure JwtValidationKey where
  algorithm : JwtAlgorithm := .hs256
  hmacKey : Bytes := []
  publicKey : Bytes := []

structure JwtValidationPolicy where
  allowHs256 : Bool := false
  allowPs256 : Bool := false
  allowEs256 : Bool := false
  allowEdDsa : Bool := false
  expectedIssuer : Bytes := []
  expectedAudience : Bytes := []
  currentUnixTimeSeconds : Int64 := 0
  allowedClockSkewSeconds : Int64 := 0
  requireExpiration : Bool := true
  validateExpiration : Bool := true
  validateNotBefore : Bool := true
  requiredClaims : List Bytes := []
  parseOptions : JwtParseOptions := {}

/-- How a token function ends early: with an error, or in signed overflow or a conversion of a value
    out of range, which have no defined result. -/
inductive TokenFailure
  | error (failure : CryptoFailure)
  | undefined
  deriving DecidableEq

abbrev TokenExpected := Except TokenFailure

def returned {α : Type} : CryptoExpected α → TokenExpected α
  | .error failure => .error (.error failure)
  | .ok a => .ok a

abbrev invalid {α : Type} : TokenExpected α := .error (.error parseError)

abbrev rejected {α : Type} : TokenExpected α := .error (.error (.code .policyRejected))

def fitsInt64 (n : Int) : Bool := -2 ^ 63 ≤ n ∧ n ≤ 2 ^ 63 - 1

/-- `static_cast<Int64>` of a double that is a whole number. -/
def castInt64 (whole : Int) : TokenExpected Int64 := if fitsInt64 whole then .ok (.ofInt whole) else .error .undefined

def addInt64 (a b : Int64) : TokenExpected Int64 :=
  if fitsInt64 (a.toInt + b.toInt) then .ok (a + b) else .error .undefined

def truncate (number : ℚ) : Int := number.num.tdiv number.den

/-- `JsonNumberToInt64`, which JWT and PASETO define alike. -/
def jsonNumberToInt64 (value : Scalar) : TokenExpected Int64 :=
  match value.tryInt64 with
  | some integer => .ok integer
  | none =>
    match value.tryDouble with
    | none | some .notFinite => invalid
    | some (.finite number) =>
      let whole := truncate number
      if number ≠ whole ∨ whole < doubleOfInt (-2 ^ 63) ∨ doubleOfInt (2 ^ 63 - 1) < whole then invalid
      else castInt64 whole

section

def algorithmNames : List (Bytes × JwtAlgorithm) :=
  [("HS256".toUTF8.toList, .hs256), ("PS256".toUTF8.toList, .ps256), ("ES256".toUTF8.toList, .es256),
    ("EdDSA".toUTF8.toList, .edDsa)]

def parseAlgorithm (algorithm : Bytes) : CryptoExpected JwtAlgorithm :=
  match algorithmNames.find? (·.1 = algorithm) with
  | some named => .ok named.2
  | none =>
    if algorithm = "none".toUTF8.toList then .error (.code .policyRejected)
    else .error (.code .unsupportedAlgorithm)

def find (members : List (Bytes × Value)) (key : Bytes) : Option Value :=
  (members.find? (·.1 = key)).map (·.2)

def parseHeaderAlgorithm (setup : Setup) (headerJson : Bytes) : CryptoExpected JwtAlgorithm := do
  let members ← parseJsonObject setup headerJson
  match find members "alg".toUTF8.toList with
  | some (.scalar (.string algorithm)) => parseAlgorithm algorithm
  | _ => throw parseError

def iss : Bytes := [0x69, 0x73, 0x73]
def sub : Bytes := [0x73, 0x75, 0x62]
def aud : Bytes := [0x61, 0x75, 0x64]
def exp : Bytes := [0x65, 0x78, 0x70]
def nbf : Bytes := [0x6E, 0x62, 0x66]
def iat : Bytes := [0x69, 0x61, 0x74]

variable (members : List (Bytes × Value))

def stringClaim (name : Bytes) : TokenExpected (Option Bytes) :=
  match find members name with
  | none => .ok none
  | some (.scalar (.string text)) => .ok (some text)
  | some _ => invalid

def int64Claim (name : Bytes) : TokenExpected (Option Int64) :=
  match find members name with
  | none => .ok none
  | some (.scalar value) => (jsonNumberToInt64 value).map some
  | some _ => invalid

def audienceItems : List Value → TokenExpected (List Bytes)
  | [] => .ok []
  | .scalar (.string text) :: items => (audienceItems items).map (text :: ·)
  | _ :: _ => invalid

def audienceClaim : TokenExpected (List Bytes) :=
  match find members aud with
  | none => .ok []
  | some (.scalar (.string text)) => .ok [text]
  | some (.array items) => audienceItems items
  | some _ => invalid

def parseClaims (setup : Setup) (payloadJson : Bytes) : TokenExpected JwtClaims := do
  let members ← returned (parseJsonObject setup payloadJson)
  let issuer ← stringClaim members iss
  let subject ← stringClaim members sub
  let audiences ← audienceClaim members
  let expirationTime ← int64Claim members exp
  let notBefore ← int64Claim members nbf
  let issuedAt ← int64Claim members iat
  return {
    issuer := issuer.getD [], hasIssuer := issuer.isSome, subject := subject.getD [], hasSubject := subject.isSome, audiences,
    expirationTime := expirationTime.getD 0, hasExpirationTime := expirationTime.isSome,
    notBefore := notBefore.getD 0, hasNotBefore := notBefore.isSome,
    issuedAt := issuedAt.getD 0, hasIssuedAt := issuedAt.isSome }

def JwtClaims.has (claims : JwtClaims) (name : Bytes) : Bool :=
  if name = iss then claims.hasIssuer
  else if name = sub then claims.hasSubject
  else if name = aud then claims.audiences.length ≠ 0
  else if name = exp then claims.hasExpirationTime
  else if name = nbf then claims.hasNotBefore
  else if name = iat then claims.hasIssuedAt
  else false

end

section

variable (claims : JwtClaims) (policy : JwtValidationPolicy)

def checkRequired : TokenExpected Unit := if policy.requiredClaims.all claims.has then .ok () else rejected

def checkIssuer : TokenExpected Unit :=
  if policy.expectedIssuer ≠ [] ∧ (claims.hasIssuer = false ∨ claims.issuer ≠ policy.expectedIssuer) then rejected
  else .ok ()

def checkAudience : TokenExpected Unit :=
  if policy.expectedAudience ≠ [] ∧ policy.expectedAudience ∉ claims.audiences then rejected else .ok ()

def checkPresence : TokenExpected Unit :=
  if policy.requireExpiration ∧ claims.hasExpirationTime = false then rejected else .ok ()

/-- The operands of `&&` are evaluated from the left, the sum last. -/
def checkExpiration : TokenExpected Unit :=
  if policy.currentUnixTimeSeconds ≠ 0 ∧ policy.validateExpiration ∧ claims.hasExpirationTime then do
    let latest ← addInt64 claims.expirationTime policy.allowedClockSkewSeconds
    if latest < policy.currentUnixTimeSeconds then rejected else .ok ()
  else .ok ()

def checkNotBefore : TokenExpected Unit :=
  if policy.currentUnixTimeSeconds ≠ 0 ∧ policy.validateNotBefore ∧ claims.hasNotBefore then do
    let latest ← addInt64 policy.currentUnixTimeSeconds policy.allowedClockSkewSeconds
    if latest < claims.notBefore then rejected else .ok ()
  else .ok ()

def validateClaims : TokenExpected Unit := do
  checkRequired claims policy
  checkIssuer claims policy
  checkAudience claims policy
  checkPresence claims policy
  checkExpiration claims policy
  checkNotBefore claims policy

def algorithmAllowed : JwtAlgorithm → Bool
  | .hs256 => policy.allowHs256
  | .ps256 => policy.allowPs256
  | .es256 => policy.allowEs256
  | .edDsa => policy.allowEdDsa

end

section

variable (setup : Setup)

def splitToken (token : Bytes) : CryptoExpected (Bytes × Bytes × Bytes) :=
  match token.dropWhile (· ≠ 0x2E) with
  | [] => .error parseError
  | _ :: rest =>
    match rest.dropWhile (· ≠ 0x2E) with
    | [] => .error parseError
    | _ :: encodedSignature =>
      if 0x2E ∈ encodedSignature then .error parseError
      else .ok (token.takeWhile (· ≠ 0x2E), rest.takeWhile (· ≠ 0x2E), encodedSignature)

def decodePart (encoded : Bytes) (limit : UInt64) : CryptoExpected Bytes := do
  let bytes ← Base64Url.decode encoded
  if limit.toNat < bytes.length then throw parseError else return bytes

def parseJwtCompact (token : Bytes) (options : JwtParseOptions) : TokenExpected JwtCompactToken := do
  let (encodedHeader, encodedPayload, encodedSignature) ← returned (splitToken token)
  if encodedHeader = [] ∨ encodedPayload = [] then invalid
  else
    let headerJson ← returned (decodePart encodedHeader options.maxHeaderBytes)
    let payloadJson ← returned (decodePart encodedPayload options.maxPayloadBytes)
    let signature ← returned (decodePart encodedSignature options.maxSignatureBytes)
    let algorithm ← returned (parseHeaderAlgorithm setup headerJson)
    let claims ← parseClaims setup payloadJson
    return ⟨algorithm, headerJson, payloadJson, encodedHeader ++ 0x2E :: encodedPayload, signature, claims⟩

def hasJwtClaim (token : JwtCompactToken) (name : Bytes) : CryptoExpected Bool := do
  let members ← parseJsonObject setup token.payloadJson
  return (find members name).isSome

/-- `VerifyMac`, `VerifyRsaPssSha256` and `Verify`, on an algorithm, its key, a message and a tag. -/
abbrev JwtVerify := JwtAlgorithm → Bytes → Bytes → Bytes → CryptoExpected Unit

def JwtValidationKey.material (key : JwtValidationKey) : Bytes :=
  match key.algorithm with
  | .hs256 => key.hmacKey
  | _ => key.publicKey

def validateJwt (verify : JwtVerify) (token : Bytes) (key : JwtValidationKey) (policy : JwtValidationPolicy) :
    TokenExpected JwtCompactToken := do
  let parsed ← parseJwtCompact setup token policy.parseOptions
  if parsed.algorithm ≠ key.algorithm ∨ algorithmAllowed policy parsed.algorithm = false then rejected
  else
    validateClaims parsed.claims policy
    returned (verify parsed.algorithm key.material parsed.signingInput parsed.signature)
    return parsed

end

end NginBase.Crypto.Tokens
