import NginBase.Crypto.Der

namespace NginBase.Crypto.Keys

open Der

inductive KeyAlgorithm
  | unknown
  | ed25519
  | x25519
  | ecdsaP256
  | rsa
  deriving DecidableEq

/-- `EncryptedPrivateKeyAlgorithmIdentifier`, the fields every algorithm identifier has. -/
structure RawAlgorithmIdentifier where
  objectIdentifier : List UInt32
  parameters : Bytes := []
  hasParameters : Bool := false

structure KeyAlgorithmIdentifier extends RawAlgorithmIdentifier where
  algorithm : KeyAlgorithm := .unknown

structure SubjectPublicKeyInfo where
  algorithm : KeyAlgorithmIdentifier
  publicKey : Bytes

structure PrivateKeyInfo where
  version : UInt32 := 0
  algorithm : KeyAlgorithmIdentifier
  privateKey : Bytes

structure EncryptedPrivateKeyInfo where
  encryptionAlgorithm : RawAlgorithmIdentifier
  encryptedData : Bytes

def ed25519Oid : List UInt32 := [1, 3, 101, 112]
def x25519Oid : List UInt32 := [1, 3, 101, 110]
def ecPublicKeyOid : List UInt32 := [1, 2, 840, 10045, 2, 1]
def secp256r1Oid : List UInt32 := [1, 2, 840, 10045, 3, 1, 7]
def rsaEncryptionOid : List UInt32 := [1, 2, 840, 113549, 1, 1, 1]

def isDerNull (element : DerElement) : Bool := element.tag = nullTag ∧ element.value = []

def readSingleElement (der : Bytes) : CryptoExpected DerElement := do
  let (element, reader) ← readElement { rest := der }
  if isAtEnd reader = false then throw parseError else return element

def identifyAlgorithm (oid : List UInt32) (hasParameters : Bool) (parameters : Bytes) : CryptoExpected KeyAlgorithm := do
  if oid = ed25519Oid then
    if hasParameters then throw parseError else return .ed25519
  else if oid = x25519Oid then
    if hasParameters then throw parseError else return .x25519
  else if oid = ecPublicKeyOid then
    if hasParameters = false then throw parseError
    else
      let parameterElement ← readSingleElement parameters
      let curveOid ← readObjectIdentifier parameterElement
      if curveOid = secp256r1Oid then return .ecdsaP256 else return .unknown
  else if oid = rsaEncryptionOid then
    if hasParameters then
      let parameterElement ← readSingleElement parameters
      if isDerNull parameterElement = false then throw parseError else return .rsa
    else return .rsa
  else return .unknown

def readParameters (oid : List UInt32) (reader : DerReader) : CryptoExpected RawAlgorithmIdentifier := do
  if isAtEnd reader then return ⟨oid, [], false⟩
  else
    let (parameters, reader) ← readElement reader
    if isAtEnd reader = false then throw parseError else return ⟨oid, parameters.encoded, true⟩

def parseRawAlgorithmIdentifierElement (element : DerElement) : CryptoExpected RawAlgorithmIdentifier := do
  let reader ← readSequence { rest := element.encoded } element
  let (oidElement, reader) ← readElement reader
  let oid ← readObjectIdentifier oidElement
  readParameters oid reader

def parseAlgorithmIdentifierElement (element : DerElement) : CryptoExpected KeyAlgorithmIdentifier := do
  let identifier ← parseRawAlgorithmIdentifierElement element
  let algorithm ← identifyAlgorithm identifier.objectIdentifier identifier.hasParameters identifier.parameters
  return { identifier with algorithm }

/-- The parameters that follow the object identifier in `EncodeRawAlgorithmIdentifier`. -/
def parameterBytes (algorithm : RawAlgorithmIdentifier) : CryptoExpected Bytes := do
  if algorithm.hasParameters then
    let _ ← readSingleElement algorithm.parameters
    return algorithm.parameters
  else if algorithm.parameters.length ≠ 0 then throw invalidArgument
  else return []

def encodeRawAlgorithmIdentifier (algorithm : RawAlgorithmIdentifier) : CryptoExpected Bytes := do
  let oid ← encodeObjectIdentifier algorithm.objectIdentifier
  let parameters ← parameterBytes algorithm
  encodeSequence (oid ++ parameters)

def encodeAlgorithmIdentifier (algorithm : KeyAlgorithm) : CryptoExpected Bytes := do
  match algorithm with
  | .ed25519 =>
    let oid ← encodeObjectIdentifier ed25519Oid
    encodeSequence oid
  | .x25519 =>
    let oid ← encodeObjectIdentifier x25519Oid
    encodeSequence oid
  | .ecdsaP256 =>
    let oid ← encodeObjectIdentifier ecPublicKeyOid
    let curve ← encodeObjectIdentifier secp256r1Oid
    encodeSequence (oid ++ curve)
  | .rsa =>
    let oid ← encodeObjectIdentifier rsaEncryptionOid
    let nullParameters ← encodeElement nullTag []
    encodeSequence (oid ++ nullParameters)
  | .unknown => throw invalidArgument

/-- How the three parsers start: one element, nothing after it, and it is a sequence. -/
def openSequence (der : Bytes) : CryptoExpected DerReader := do
  let (top, reader) ← readElement { rest := der }
  if isAtEnd reader = false then throw parseError else readSequence reader top

def parseSubjectPublicKeyInfo (der : Bytes) : CryptoExpected SubjectPublicKeyInfo := do
  let sequence ← openSequence der
  let (algorithmElement, sequence) ← readElement sequence
  let algorithm ← parseAlgorithmIdentifierElement algorithmElement
  let (publicKeyElement, sequence) ← readElement sequence
  if isAtEnd sequence = false then throw parseError
  else
    let bitString ← readBitString publicKeyElement
    if bitString.unusedBitCount ≠ 0 then throw parseError else return ⟨algorithm, bitString.bytes⟩

def writeSubjectPublicKeyInfo (algorithm : KeyAlgorithm) (publicKey : Bytes) : CryptoExpected Bytes := do
  let algorithmIdentifier ← encodeAlgorithmIdentifier algorithm
  let publicKeyBits ← encodeBitString 0 publicKey
  encodeSequence (algorithmIdentifier ++ publicKeyBits)

def readFinalOctetString (sequence : DerReader) : CryptoExpected Bytes := do
  let (element, sequence) ← readElement sequence
  let octets ← readOctetString element
  if isAtEnd sequence = false then throw parseError else return octets

def parsePrivateKeyInfo (der : Bytes) : CryptoExpected PrivateKeyInfo := do
  let sequence ← openSequence der
  let (versionElement, sequence) ← readElement sequence
  let version ← readInteger versionElement
  if version ≠ [0] then throw parseError
  else
    let (algorithmElement, sequence) ← readElement sequence
    let algorithm ← parseAlgorithmIdentifierElement algorithmElement
    let privateKey ← readFinalOctetString sequence
    return ⟨0, algorithm, privateKey⟩

def writePrivateKeyInfo (algorithm : KeyAlgorithm) (privateKey : Bytes) : CryptoExpected Bytes := do
  let version ← encodeInteger [0]
  let algorithmIdentifier ← encodeAlgorithmIdentifier algorithm
  let privateKeyOctets ← encodeOctetString privateKey
  encodeSequence (version ++ algorithmIdentifier ++ privateKeyOctets)

def parseEncryptedPrivateKeyInfo (der : Bytes) : CryptoExpected EncryptedPrivateKeyInfo := do
  let sequence ← openSequence der
  let (algorithmElement, sequence) ← readElement sequence
  let algorithm ← parseRawAlgorithmIdentifierElement algorithmElement
  let encryptedData ← readFinalOctetString sequence
  return ⟨algorithm, encryptedData⟩

def writeEncryptedPrivateKeyInfo (encryptionAlgorithm : RawAlgorithmIdentifier) (encryptedData : Bytes) :
    CryptoExpected Bytes := do
  let algorithmIdentifier ← encodeRawAlgorithmIdentifier encryptionAlgorithm
  let encryptedDataOctets ← encodeOctetString encryptedData
  encodeSequence (algorithmIdentifier ++ encryptedDataOctets)

end NginBase.Crypto.Keys
