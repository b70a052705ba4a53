import NginBase.Crypto.PasetoLaws

namespace NginBase.Crypto.Tokens

open Library List

structure PasetoV4PublicToken where
  payloadJson : Bytes
  footer : Bytes
  signature : Bytes

def pasetoV4PublicHeader : Bytes := "v4.public.".toUTF8.toList

def publicBody (token : Bytes) : CryptoExpected Bytes :=
  if pasetoV4PublicHeader.length ≤ token.length ∧ token.take pasetoV4PublicHeader.length = pasetoV4PublicHeader then
    .ok (token.drop pasetoV4PublicHeader.length)
  else .error parseError

def parsePasetoV4Public (setup : Json.Setup) (token : Bytes) (options : PasetoParseOptions) :
    CryptoExpected PasetoV4PublicToken := do
  let body ← publicBody token
  let payloadAndSignatureText := body.takeWhile (· ≠ 0x2E)
  let footerText := (body.dropWhile (· ≠ 0x2E)).drop 1
  if payloadAndSignatureText = [] then throw parseError
  else
    let payloadAndSignature ← Base64Url.decode payloadAndSignatureText
    if payloadAndSignature.length < 64 then throw parseError
    else
      let payloadSize := payloadAndSignature.length - 64
      if options.maxPayloadBytes.toNat < payloadSize then throw parseError
      else
        let footer ← Base64Url.decode footerText
        if options.maxFooterBytes.toNat < footer.length then throw parseError
        else
          let payloadJson := payloadAndSignature.take payloadSize
          let _ ← parseJsonObject setup payloadJson
          return ⟨payloadJson, footer, (payloadAndSignature.drop payloadSize).take 64⟩

def publicMessage (payloadJson footer implicitAssertion : Bytes) : CryptoExpected Bytes :=
  pae [pasetoV4PublicHeader, payloadJson, footer, implicitAssertion]

section

/-- `Signatures::Verify` with Ed25519, on a public key, a message and a signature. -/
abbrev Ed25519Verify := Bytes → Bytes → Bytes → CryptoExpected Unit

variable (verify : Ed25519Verify) (setup : Json.Setup)

def validatePasetoV4Public (token publicKey : Bytes) (policy : PasetoValidationPolicy) :
    CryptoExpected PasetoV4PublicToken := do
  if publicKey.length ≠ 32 then throw (.code .invalidKey)
  else if policy.parseOptions.maxImplicitBytes.toNat < policy.implicitAssertion.length then throw parseError
  else
    let parsed ← parsePasetoV4Public setup token policy.parseOptions
    if policy.expectedFooter ≠ [] ∧ constantTimeEqual parsed.footer policy.expectedFooter = false then
      throw (.code .policyRejected)
    else
      validateRequiredClaims setup parsed.payloadJson policy
      let message ← publicMessage parsed.payloadJson parsed.footer policy.implicitAssertion
      verify publicKey message parsed.signature
      return parsed

end

def encodedPieces (pieces : List Bytes) : Bytes :=
  le64 pieces.length ++ pieces.flatMap fun piece => le64 piece.length ++ piece

theorem pieces_determined {pieces pieces' : List Bytes} (small : ∀ piece ∈ pieces, piece.length < 2 ^ 64)
    (small' : ∀ piece ∈ pieces', piece.length < 2 ^ 64)
    (same : (pieces.flatMap fun piece => le64 piece.length ++ piece) = pieces'.flatMap fun piece => le64 piece.length ++ piece) :
    pieces = pieces' := by
  have nonempty (size : Nat) (rest : Bytes) : le64 size ++ rest ≠ [] := by
    intro nothing
    have length := congrArg length nothing
    rw [length_append, le64, le64Loop_length, length_nil] at length
    omega
  induction pieces generalizing pieces' with
  | nil =>
    cases pieces' with
    | nil => rfl
    | cons piece' pieces' =>
      exact absurd same.symm (nonempty _ _)
  | cons piece pieces ih =>
    cases pieces' with
    | nil =>
      exact absurd same (nonempty _ _)
    | cons piece' pieces' =>
      rw [forall_mem_cons] at small small'
      rw [flatMap_cons, flatMap_cons, append_assoc, append_assoc] at same
      have size := append_inj same ((le64Loop_length 8 _).trans (le64Loop_length 8 _).symm)
      have here := append_inj size.2 (le64_injective small.1 small'.1 size.1)
      rw [here.1, ih small.2 small'.2 here.2]

theorem encodedPieces_injective {pieces pieces' : List Bytes} (small : ∀ piece ∈ pieces, piece.length < 2 ^ 64)
    (small' : ∀ piece ∈ pieces', piece.length < 2 ^ 64) (same : encodedPieces pieces = encodedPieces pieces') :
    pieces = pieces' :=
  pieces_determined small small' (append_inj same ((le64Loop_length 8 _).trans (le64Loop_length 8 _).symm)).2

theorem validated_message {verify : Ed25519Verify} {setup : Json.Setup} {token publicKey : Bytes}
    {policy : PasetoValidationPolicy} {parsed : PasetoV4PublicToken}
    (h : validatePasetoV4Public verify setup token publicKey policy = .ok parsed) :
    ∃ message, publicMessage parsed.payloadJson parsed.footer policy.implicitAssertion = .ok message ∧
      verify publicKey message parsed.signature = .ok () := by
  unfold validatePasetoV4Public at h
  split at h
  · cases h
  split at h
  · cases h
  rcases bind_ok h with ⟨parsed', read, h⟩
  split at h
  · cases h
  rcases bind_ok h with ⟨_, _, h⟩
  rcases bind_ok h with ⟨message, encoded, h⟩
  rcases bind_ok h with ⟨_, verified, h⟩
  obtain rfl := Except.ok.inj h
  exact ⟨message, encoded, verified⟩

/-- `Pae` is injective on lists of byte strings, so the authenticated bytes determine the header and
    every other piece of a token of either purpose. -/
theorem pae_determines_pieces (xs ys : List Bytes) (small : ∀ x ∈ xs, x.length < 2 ^ 64) (small' : ∀ y ∈ ys, y.length < 2 ^ 64) :
    (encodedPieces xs = encodedPieces ys → xs = ys) ∧
    (∀ bytes, pae xs = .ok bytes → pae ys = .ok bytes → xs = ys) ∧
    (∀ nonce nonce' ciphertext ciphertext' footer footer' assertion assertion' bytes,
      preAuth nonce ciphertext footer assertion = .ok bytes → preAuth nonce' ciphertext' footer' assertion' = .ok bytes →
      nonce = nonce' ∧ ciphertext = ciphertext' ∧ footer = footer' ∧ assertion = assertion') ∧
    (∀ nonce ciphertext footer assertion payload' footer' assertion' bytes,
      preAuth nonce ciphertext footer assertion = .ok bytes → publicMessage payload' footer' assertion' ≠ .ok bytes) ∧
    ∀ verify setup token token' publicKey publicKey' policy policy' parsed parsed',
      validatePasetoV4Public verify setup token publicKey policy = .ok parsed →
      validatePasetoV4Public verify setup token' publicKey' policy' = .ok parsed' →
      ∃ message message', verify publicKey message parsed.signature = .ok () ∧
        verify publicKey' message' parsed'.signature = .ok () ∧
        (message = message' → parsed.payloadJson = parsed'.payloadJson ∧ parsed.footer = parsed'.footer ∧
          policy.implicitAssertion = policy'.implicitAssertion) := by
  apply And.intro (encodedPieces_injective small small')
  apply And.intro fun bytes first second => pae_injective first second
  constructor
  · intro nonce nonce' ciphertext ciphertext' footer footer' assertion assertion' bytes first second
    simpa using pae_injective first second
  · constructor
    · intro nonce ciphertext footer assertion payload' footer' assertion' bytes first second
      exact absurd (congrArg length (pae_injective first second)) (by simp)
    · intro verify setup token token' publicKey publicKey' policy policy' parsed parsed' accepted accepted'
      obtain ⟨message, encoded, verified⟩ := validated_message accepted
      obtain ⟨message', encoded', verified'⟩ := validated_message accepted'
      apply Exists.intro message
      apply Exists.intro message'
      apply And.intro verified
      apply And.intro verified'
      intro same
      rw [← same] at encoded'
      simpa using pae_injective encoded encoded'

theorem pae_determines_pieces_split : encodedPieces [[0x61, 0x62], []] ≠ encodedPieces [[0x61], [0x62]] := by
  have determined := (pae_determines_pieces [[0x61, 0x62], []] [[0x61], [0x62]] (by decide) (by decide)).1
  intro same
  cases determined same

end NginBase.Crypto.Tokens
