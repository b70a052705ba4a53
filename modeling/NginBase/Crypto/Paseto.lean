import NginBase.Crypto.Base64
import NginBase.Json.Parser

namespace NginBase.Crypto.Tokens

open Base64Url

/-! PASETO v4.local tokens: sealing and opening. -/

inductive BackendKind
  | platform
  | externalPackage
  | test
  deriving DecidableEq

/-- The calls into libsodium; a result of `none` is a nonzero return code. -/
structure Libsodium where
  sodiumInit : Bool
  genericHash : Bytes → Bytes → Nat → Option Bytes
  streamXChaCha20Xor : Bytes → Bytes → Bytes → Option Bytes

structure CryptoContext where
  kind : BackendKind
  name : String
  fillRandom : Nat → CryptoExpected Bytes
  libsodium : Libsodium
  json : Json.Setup

def isLibsodiumContext (context : CryptoContext) : Bool := context.kind = .externalPackage ∧ context.name = "libsodium"

def fitsUnsignedLongLong (size : Nat) : Bool := size ≤ 2 ^ 64 - 1

def blake2bLibsodium (sodium : Libsodium) (key input : Bytes) (outputSize : Nat) : CryptoExpected Bytes :=
  if sodium.sodiumInit = false then .error (.code .internalError)
  else if outputSize < 16 ∨ 64 < outputSize ∨ key.length < 16 ∨ 64 < key.length ∨
      fitsUnsignedLongLong input.length = false then .error (.code .invalidArgument)
  else
    match sodium.genericHash key input outputSize with
    | none => .error (.code .internalError)
    | some output => .ok output

def xChaCha20XorLibsodium (sodium : Libsodium) (key nonce input : Bytes) (outputSize : Nat) : CryptoExpected Bytes :=
  if sodium.sodiumInit = false then .error (.code .internalError)
  else if key.length ≠ 32 ∨ nonce.length ≠ 24 ∨ input.length ≠ outputSize ∨
      fitsUnsignedLongLong input.length = false then .error (.code .invalidArgument)
  else
    match sodium.streamXChaCha20Xor key nonce input with
    | none => .error (.code .internalError)
    | some output => .ok output

def constantTimeEqual (left right : Bytes) : Bool :=
  if left.length ≠ right.length then false
  else (left.zip right).foldl (fun difference (l, r) => difference ||| (l ^^^ r)) 0 = 0

structure PasetoParseOptions where
  maxPayloadBytes : UInt64 := 65536
  maxFooterBytes : UInt64 := 8192
  maxImplicitBytes : UInt64 := 8192

structure PasetoV4LocalToken where
  payloadJson : Bytes
  footer : Bytes
  nonce : Bytes

structure PasetoValidationPolicy where
  expectedFooter : Bytes := []
  implicitAssertion : Bytes := []
  requiredClaims : List Bytes := []
  parseOptions : PasetoParseOptions := {}

structure PasetoSealOptions where
  footer : Bytes := []
  implicitAssertion : Bytes := []
  limits : PasetoParseOptions := {}

abbrev parseError : CryptoFailure := .code .parseError

def pasetoV4LocalHeader : Bytes := "v4.local.".toUTF8.toList
def pasetoV4LocalEncryptionInfo : Bytes := "paseto-encryption-key".toUTF8.toList
def pasetoV4LocalAuthInfo : Bytes := "paseto-auth-key-for-aead".toUTF8.toList

def parseJsonObject (setup : Json.Setup) (json : Bytes) : CryptoExpected (List (Bytes × Json.Value)) :=
  match Json.Parser.parse setup json with
  | .error _ => .error parseError
  | .ok document =>
    match document.tree.erase with
    | .object members => .ok members
    | _ => .error parseError

def hasClaim (members : List (Bytes × Json.Value)) (claim : Bytes) : Bool := members.any fun mem => mem.1 = claim

def validateRequiredClaims (setup : Json.Setup) (payloadJson : Bytes) (policy : PasetoValidationPolicy) :
    CryptoExpected Unit := do
  let members ← parseJsonObject setup payloadJson
  if policy.requiredClaims.all (hasClaim members) then return () else throw (.code .policyRejected)

def le64Loop : Nat → Nat → Bytes
  | 0, _ => []
  | count + 1, value => UInt8.ofNat (value &&& 0xFF) :: le64Loop count (value >>> 8)

def le64 (value : Nat) : Bytes := le64Loop 8 value

/-- The first loop of `Pae`: the sizes of all pieces fit together. -/
def paeSize : List Bytes → Nat → CryptoExpected Nat
  | [], payloadSize => .ok payloadSize
  | piece :: rest, payloadSize =>
    if 2 ^ 64 - 1 < piece.length ∨ 2 ^ 64 - 1 - piece.length < payloadSize then .error parseError
    else paeSize rest (payloadSize + piece.length)

def pae (pieces : List Bytes) : CryptoExpected Bytes := do
  if 2 ^ 64 - 1 < pieces.length then throw parseError
  else
    let _ ← paeSize pieces 0
    return le64 pieces.length ++ pieces.flatMap fun piece => le64 piece.length ++ piece

def concat (first second : Bytes) : CryptoExpected Bytes :=
  if 2 ^ 64 - 1 - second.length < first.length then .error parseError else .ok (first ++ second)

def derivePasetoV4LocalKeys (sodium : Libsodium) (key nonce : Bytes) : CryptoExpected (Bytes × Bytes) := do
  let encryptionInput ← concat pasetoV4LocalEncryptionInfo nonce
  let encryptionMaterial ← blake2bLibsodium sodium key encryptionInput 56
  let authInput ← concat pasetoV4LocalAuthInfo nonce
  let authKey ← blake2bLibsodium sodium key authInput 32
  return (encryptionMaterial, authKey)

def preAuth (nonce ciphertext footer implicitAssertion : Bytes) : CryptoExpected Bytes :=
  pae [pasetoV4LocalHeader, nonce, ciphertext, footer, implicitAssertion]

def computePasetoV4LocalTag (sodium : Libsodium) (authKey nonce ciphertext footer implicitAssertion : Bytes) :
    CryptoExpected Bytes := do
  let input ← preAuth nonce ciphertext footer implicitAssertion
  blake2bLibsodium sodium authKey input 32

def tokenBody (token : Bytes) : CryptoExpected Bytes :=
  if pasetoV4LocalHeader.length ≤ token.length ∧ token.take pasetoV4LocalHeader.length = pasetoV4LocalHeader then
    .ok (token.drop pasetoV4LocalHeader.length)
  else .error parseError

/-- The second half of `OpenPasetoV4Local`, after the token has been taken apart. -/
def decryptPasetoV4Local (context : CryptoContext) (key : Bytes) (policy : PasetoValidationPolicy)
    (payload footer : Bytes) (ciphertextSize : Nat) : CryptoExpected PasetoV4LocalToken := do
  let nonce := payload.take 32
  let ciphertext := (payload.drop 32).take ciphertextSize
  let tag := (payload.drop (32 + ciphertextSize)).take 32
  let (encryptionMaterial, authKey) ← derivePasetoV4LocalKeys context.libsodium key nonce
  let computedTag ← computePasetoV4LocalTag context.libsodium authKey nonce ciphertext footer policy.implicitAssertion
  if constantTimeEqual computedTag tag = false then throw (.code .authenticationFailed)
  else
    let payloadJson ← xChaCha20XorLibsodium context.libsodium (encryptionMaterial.take 32)
      ((encryptionMaterial.drop 32).take 24) ciphertext ciphertextSize
    let _ ← parseJsonObject context.json payloadJson
    validateRequiredClaims context.json payloadJson policy
    return ⟨payloadJson, footer, nonce⟩

def openPasetoV4Local (context : CryptoContext) (token key : Bytes) (policy : PasetoValidationPolicy) :
    CryptoExpected PasetoV4LocalToken := do
  if key.length ≠ 32 then throw (.code .invalidKey)
  else if policy.parseOptions.maxImplicitBytes.toNat < policy.implicitAssertion.length then throw parseError
  else
    let body ← tokenBody token
    let payloadText := body.takeWhile (· ≠ 0x2E)
    let footerText := (body.dropWhile (· ≠ 0x2E)).drop 1
    if payloadText = [] then throw parseError
    else
      let payload ← decode payloadText
      if payload.length < 32 + 32 then throw parseError
      else
        let footer ← decode footerText
        if policy.parseOptions.maxFooterBytes.toNat < footer.length then throw parseError
        else if policy.expectedFooter ≠ [] ∧ constantTimeEqual footer policy.expectedFooter = false then
          throw (.code .policyRejected)
        else
          let ciphertextSize := payload.length - 32 - 32
          if policy.parseOptions.maxPayloadBytes.toNat < ciphertextSize then throw parseError
          else if isLibsodiumContext context = false then throw (.code .unsupportedAlgorithm)
          else decryptPasetoV4Local context key policy payload footer ciphertextSize

/-- The token text: the header, the body and, unless it is empty, the footer. -/
def tokenText (body footer : Bytes) : CryptoExpected Bytes := do
  let encodedBody ← encode body .omitted
  if footer = [] then return pasetoV4LocalHeader ++ encodedBody
  else
    let encodedFooter ← encode footer .omitted
    return pasetoV4LocalHeader ++ encodedBody ++ 0x2E :: encodedFooter

def sealPasetoV4Local (context : CryptoContext) (payloadJson key : Bytes) (options : PasetoSealOptions) :
    CryptoExpected Bytes := do
  if key.length ≠ 32 then throw (.code .invalidKey)
  else if options.limits.maxPayloadBytes.toNat < payloadJson.length ∨
      options.limits.maxFooterBytes.toNat < options.footer.length ∨
      options.limits.maxImplicitBytes.toNat < options.implicitAssertion.length then throw parseError
  else if isLibsodiumContext context = false then throw (.code .unsupportedAlgorithm)
  else
    let _ ← parseJsonObject context.json payloadJson
    let nonce ← context.fillRandom 32
    let (encryptionMaterial, authKey) ← derivePasetoV4LocalKeys context.libsodium key nonce
    let ciphertext ← xChaCha20XorLibsodium context.libsodium (encryptionMaterial.take 32)
      ((encryptionMaterial.drop 32).take 24) payloadJson payloadJson.length
    let tag ← computePasetoV4LocalTag context.libsodium authKey nonce ciphertext options.footer options.implicitAssertion
    tokenText (nonce ++ ciphertext ++ tag) options.footer

end NginBase.Crypto.Tokens
