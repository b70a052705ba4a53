import NginBase.Crypto.KeyFormat

namespace NginBase.Crypto.Certificates

open Der Keys

/-! X.509 certificates: the parser and the fields it fills. -/

structure CertificateValidity where
  notBefore : Bytes := []
  notAfter : Bytes := []

inductive DistinguishedNameAttributeType
  | unknown
  | commonName
  | countryName
  | organizationName
  | organizationalUnitName
  | localityName
  | stateOrProvinceName
  | serialNumber
  | domainComponent
  | emailAddress

structure DistinguishedNameAttribute where
  type : DistinguishedNameAttributeType := .unknown
  objectIdentifier : List UInt32
  value : Bytes
  valueTag : UInt32 := 12

structure SubjectAltNames where
  dnsNames : List Bytes := []
  emailAddresses : List Bytes := []
  ipAddresses : List Bytes := []

structure KeyUsage where
  unusedBitCount : UInt8 := 0
  bits : Bytes := []

structure BasicConstraints where
  certificateAuthority : Bool := false
  hasPathLengthConstraint : Bool := false
  pathLengthConstraint : UInt32 := 0

inductive SignatureAlgorithm
  | ed25519
  | ecdsaP256Sha256
  | rsaPssSha256

structure Certificate where
  version : UInt32 := 1
  certificateDer : Bytes := []
  serialNumber : Bytes := []
  tbsCertificateDer : Bytes := []
  issuerDer : Bytes := []
  issuer : List DistinguishedNameAttribute := []
  subjectDer : Bytes := []
  subject : List DistinguishedNameAttribute := []
  validity : CertificateValidity := {}
  subjectPublicKeyInfo : SubjectPublicKeyInfo
  publicKeyAlgorithm : KeyAlgorithmIdentifier
  signatureAlgorithm : SignatureAlgorithm := .ed25519
  hasKnownSignatureAlgorithm : Bool := false
  signatureAlgorithmDer : Bytes := []
  signatureValue : Bytes := []
  subjectAltNames : SubjectAltNames := {}
  hasSubjectAltNames : Bool := false
  keyUsage : KeyUsage := {}
  hasKeyUsage : Bool := false
  basicConstraints : BasicConstraints := {}
  hasBasicConstraints : Bool := false
  extendedKeyUsages : List (List UInt32) := []
  subjectKeyIdentifier : Bytes := []
  hasSubjectKeyIdentifier : Bool := false
  authorityKeyIdentifier : Bytes := []
  hasAuthorityKeyIdentifier : Bool := false

def contextTag (constructed : Bool) (number : UInt32) : DerTag := ⟨.contextSpecific, constructed, number⟩

def setTag : DerTag := universalTag 17 true

/-- `ReadDerSequence` of a single element that is all there is. -/
def openChildren (tag : DerTag) (element : DerElement) : CryptoExpected DerReader :=
  if element.tag ≠ tag then .error parseError else enterConstructed { rest := element.encoded } element

/-- The loops `while (!reader.IsAtEnd())`; every element takes at least one byte. -/
def eachElement {σ : Type} (step : σ → DerElement → CryptoExpected σ) : Nat → DerReader → σ → CryptoExpected σ
  | 0, _, s => .ok s
  | fuel + 1, reader, s =>
    if isAtEnd reader then .ok s
    else do
      let (element, reader) ← readElement reader
      let s ← step s element
      eachElement step fuel reader s

def forElements {σ : Type} (step : σ → DerElement → CryptoExpected σ) (reader : DerReader) (s : σ) : CryptoExpected σ :=
  eachElement step reader.rest.length reader s

def ia5StringValue (value : Bytes) : Bool := value.all fun byte => byte ≤ 0x7F

def readUInt32Integer (element : DerElement) : CryptoExpected UInt32 := do
  let integer ← readInteger element
  if integer.head?.any fun first => first &&& 0x80 ≠ 0 then throw parseError
  else
    let magnitude := if 1 < integer.length ∧ integer.head? = some 0x00 then integer.drop 1 else integer
    if 4 < magnitude.length then throw parseError
    else return magnitude.foldl (fun value byte => value <<< 8 ||| byte.toUInt32) 0

def readTimeString (element : DerElement) : CryptoExpected Bytes :=
  if element.tag ≠ universalTag 23 ∧ element.tag ≠ universalTag 24 then .error parseError else .ok element.value

def parseValidity (element : DerElement) : CryptoExpected CertificateValidity := do
  let reader ← openChildren sequenceTag element
  let (notBeforeElement, reader) ← readElement reader
  let notBefore ← readTimeString notBeforeElement
  let (notAfterElement, reader) ← readElement reader
  let notAfter ← readTimeString notAfterElement
  if isAtEnd reader = false then throw parseError else return ⟨notBefore, notAfter⟩

def identifyNameAttribute (oid : List UInt32) : DistinguishedNameAttributeType :=
  if oid = [2, 5, 4, 3] then .commonName
  else if oid = [2, 5, 4, 6] then .countryName
  else if oid = [2, 5, 4, 10] then .organizationName
  else if oid = [2, 5, 4, 11] then .organizationalUnitName
  else if oid = [2, 5, 4, 7] then .localityName
  else if oid = [2, 5, 4, 8] then .stateOrProvinceName
  else if oid = [2, 5, 4, 5] then .serialNumber
  else if oid = [0, 9, 2342, 19200300, 100, 1, 25] then .domainComponent
  else if oid = [1, 2, 840, 113549, 1, 9, 1] then .emailAddress
  else .unknown

def bmpLoop : Bytes → CryptoExpected Bytes
  | high :: low :: rest =>
    if high ≠ 0 then .error parseError
    else do
      let value ← bmpLoop rest
      return low :: value
  | _ => .ok []

def readNameValueString (element : DerElement) : CryptoExpected Bytes :=
  if element.tag.tagClass ≠ .universal ∨ element.tag.constructed then .error parseError
  else if element.tag.number = 30 then
    if element.value.length % 2 ≠ 0 then .error parseError else bmpLoop element.value
  else if element.tag.number ≠ 12 ∧ element.tag.number ≠ 19 ∧ element.tag.number ≠ 20 ∧ element.tag.number ≠ 22 then
    .error parseError
  else .ok element.value

def parseNameAttribute (attributes : List DistinguishedNameAttribute) (element : DerElement) :
    CryptoExpected (List DistinguishedNameAttribute) := do
  let reader ← openChildren sequenceTag element
  let (oidElement, reader) ← readElement reader
  let oid ← readObjectIdentifier oidElement
  let (valueElement, reader) ← readElement reader
  if isAtEnd reader = false then throw parseError
  else
    let value ← readNameValueString valueElement
    return attributes ++ [⟨identifyNameAttribute oid, oid, value, valueElement.tag.number⟩]

def parseDistinguishedName (element : DerElement) : CryptoExpected (List DistinguishedNameAttribute) := do
  let name ← openChildren sequenceTag element
  forElements (fun attributes rdnSetElement => do
    let rdnSet ← openChildren setTag rdnSetElement
    forElements parseNameAttribute rdnSet attributes) name []

def nameOrEmpty (element : DerElement) : List DistinguishedNameAttribute :=
  match parseDistinguishedName element with
  | .ok name => name
  | .error _ => []

def identifySignatureAlgorithm (element : DerElement) : CryptoExpected SignatureAlgorithm := do
  let reader ← openChildren sequenceTag element
  let (oidElement, reader) ← readElement reader
  let oid ← readObjectIdentifier oidElement
  if oid = ed25519Oid then
    if isAtEnd reader = false then throw parseError else return .ed25519
  else if oid = [1, 2, 840, 10045, 4, 3, 2] then
    if isAtEnd reader = false then throw parseError else return .ecdsaP256Sha256
  else if oid = [1, 2, 840, 113549, 1, 1, 10] then return .rsaPssSha256
  else throw (.code .unsupportedAlgorithm)

/-- An unsupported algorithm is recorded as not known, any other failure ends the parse. -/
def knownSignatureAlgorithm (element : DerElement) : CryptoExpected (Option SignatureAlgorithm) :=
  match identifySignatureAlgorithm element with
  | .ok algorithm => .ok (some algorithm)
  | .error failure => if failure ≠ .code .unsupportedAlgorithm then .error failure else .ok none

def validateGeneralNameSchema (generalName : DerElement) : CryptoExpected Unit :=
  if generalName.tag.tagClass ≠ .contextSpecific then .error parseError
  else
    match generalName.tag.number with
    | 0 | 3 | 5 => if generalName.tag.constructed ∧ generalName.value ≠ [] then .ok () else .error parseError
    | 1 | 2 | 6 =>
      if generalName.tag.constructed = false ∧ generalName.value ≠ [] ∧ ia5StringValue generalName.value then .ok ()
      else .error parseError
    | 4 =>
      if generalName.tag.constructed = false then .error parseError
      else do
        let nameElement ← readSingleElement generalName.value
        let _ ← parseDistinguishedName nameElement
        return ()
    | 7 =>
      if generalName.tag.constructed = false ∧ (generalName.value.length = 4 ∨ generalName.value.length = 16) then .ok ()
      else .error parseError
    | 8 =>
      if generalName.tag.constructed ∨ generalName.value = [] then .error parseError
      else do
        let _ ← readObjectIdentifier ⟨objectIdentifierTag, generalName.value, generalName.value⟩
        return ()
    | _ => .error parseError

def openExtension (encoded : Bytes) : CryptoExpected DerReader := do
  let top ← readSingleElement encoded
  openChildren sequenceTag top

def parseSubjectAltNameExtension (encodedNames : Bytes) (names : SubjectAltNames) : CryptoExpected SubjectAltNames := do
  let generalNames ← openExtension encodedNames
  let (hasAnyGeneralName, names) ← forElements (fun (_, names) generalName => do
    let _ ← validateGeneralNameSchema generalName
    if generalName.tag = contextTag false 1 then
      return (true, { names with emailAddresses := names.emailAddresses ++ [generalName.value] })
    else if generalName.tag = contextTag false 2 then return (true, { names with dnsNames := names.dnsNames ++ [generalName.value] })
    else if generalName.tag = contextTag false 7 then
      return (true, { names with ipAddresses := names.ipAddresses ++ [generalName.value] })
    else return (true, names)) generalNames (false, names)
  if hasAnyGeneralName = false then throw parseError else return names

def parseKeyUsageExtension (encodedKeyUsage : Bytes) : CryptoExpected KeyUsage := do
  let element ← readSingleElement encodedKeyUsage
  let bits ← readBitString element
  if bits.bytes = [] ∨ 2 < bits.bytes.length then throw parseError
  else
    let usedBits := bits.bytes.length * 8 - bits.unusedBitCount.toNat
    if usedBits = 0 ∨ 9 < usedBits then throw parseError else return ⟨bits.unusedBitCount, bits.bytes⟩

def parseAuthorityFlag (sequence : DerReader) : CryptoExpected (Bool × DerReader) := do
  if isAtEnd sequence then return (false, sequence)
  else
    let (first, sequence) ← readElement sequence
    if first.tag ≠ universalTag 1 ∨ first.value ≠ [0xFF] then throw parseError else return (true, sequence)

def parseBasicConstraintsExtension (encodedBasicConstraints : Bytes) : CryptoExpected BasicConstraints := do
  let sequence ← openExtension encodedBasicConstraints
  let (certificateAuthority, sequence) ← parseAuthorityFlag sequence
  if isAtEnd sequence then return { certificateAuthority }
  else
    let (pathLengthElement, sequence) ← readElement sequence
    let pathLength ← readUInt32Integer pathLengthElement
    if certificateAuthority = false ∨ isAtEnd sequence = false then throw parseError else return ⟨true, true, pathLength⟩

def parseSubjectKeyIdentifierExtension (encodedKeyIdentifier : Bytes) : CryptoExpected Bytes := do
  let element ← readSingleElement encodedKeyIdentifier
  let keyIdentifier ← readOctetString element
  if keyIdentifier = [] then throw parseError else return keyIdentifier

def parseAuthorityKeyIdentifierExtension (encodedAuthorityKeyIdentifier : Bytes) (identifier : Option Bytes) : CryptoExpected (Option Bytes) := do
  let sequence ← openExtension encodedAuthorityKeyIdentifier
  forElements (fun identifier field => do
    if field.tag = contextTag false 0 then
      if identifier.isSome ∨ field.value = [] then throw parseError else return some field.value
    else if field.tag = contextTag true 1 then
      let _ ← forElements (fun _ generalName => validateGeneralNameSchema generalName) { rest := field.value } ()
      return identifier
    else if field.tag = contextTag false 2 then
      let _ ← readInteger ⟨integerTag, field.value, field.value⟩
      return identifier
    else throw parseError) sequence identifier

def parseExtendedKeyUsageExtension (encodedEku : Bytes) (usages : List (List UInt32)) : CryptoExpected (List (List UInt32)) := do
  let sequence ← openExtension encodedEku
  let usages ← forElements (fun usages usage => do
    let oid ← readObjectIdentifier usage
    return usages ++ [oid]) sequence usages
  if usages = [] then throw parseError else return usages

inductive KnownExtension
  | subjectAltName
  | keyUsage
  | basicConstraints
  | subjectKeyIdentifier
  | authorityKeyIdentifier
  | extendedKeyUsage
  deriving DecidableEq

def KnownExtension.oid : KnownExtension → List UInt32
  | subjectAltName => [2, 5, 29, 17]
  | keyUsage => [2, 5, 29, 15]
  | basicConstraints => [2, 5, 29, 19]
  | subjectKeyIdentifier => [2, 5, 29, 14]
  | authorityKeyIdentifier => [2, 5, 29, 35]
  | extendedKeyUsage => [2, 5, 29, 37]

/-- The comparisons at the end of the loop of `ParseExtensions`. -/
def identifyExtension (oid : List UInt32) : Option KnownExtension :=
  [.subjectAltName, .keyUsage, .basicConstraints, .subjectKeyIdentifier, .authorityKeyIdentifier, .extendedKeyUsage].find?
    fun extension => decide (oid = extension.oid)

def applyExtension (certificate : Certificate) (value : Bytes) : KnownExtension → CryptoExpected Certificate
  | .subjectAltName => do
    let subjectAltNames ← parseSubjectAltNameExtension value certificate.subjectAltNames
    return { certificate with subjectAltNames, hasSubjectAltNames := true }
  | .keyUsage => do
    let keyUsage ← parseKeyUsageExtension value
    return { certificate with keyUsage, hasKeyUsage := true }
  | .basicConstraints => do
    let basicConstraints ← parseBasicConstraintsExtension value
    return { certificate with basicConstraints, hasBasicConstraints := true }
  | .subjectKeyIdentifier => do
    let subjectKeyIdentifier ← parseSubjectKeyIdentifierExtension value
    return { certificate with subjectKeyIdentifier, hasSubjectKeyIdentifier := true }
  | .authorityKeyIdentifier => do
    let identifier ← parseAuthorityKeyIdentifierExtension value
      (if certificate.hasAuthorityKeyIdentifier then some certificate.authorityKeyIdentifier else none)
    return { certificate with authorityKeyIdentifier := identifier.getD certificate.authorityKeyIdentifier, hasAuthorityKeyIdentifier := identifier.isSome }
  | .extendedKeyUsage => do
    let extendedKeyUsages ← parseExtendedKeyUsageExtension value certificate.extendedKeyUsages
    return { certificate with extendedKeyUsages }

/-- The element after the flag that says an extension is critical, which is read and forgotten. -/
def skipCritical (next : DerElement) (reader : DerReader) : CryptoExpected (DerElement × DerReader) :=
  if next.tag = universalTag 1 then
    if next.value ≠ [0xFF] then .error parseError else readElement reader
  else .ok (next, reader)

def readExtension (extensionElement : DerElement) : CryptoExpected (List UInt32 × Bytes) := do
  let reader ← openChildren sequenceTag extensionElement
  let (oidElement, reader) ← readElement reader
  let oid ← readObjectIdentifier oidElement
  let (next, reader) ← readElement reader
  let (next, reader) ← skipCritical next reader
  let extensionValue ← readOctetString next
  if isAtEnd reader = false then throw parseError else return (oid, extensionValue)

def takeExtension (s : List KnownExtension × Certificate) (extension : List UInt32 × Bytes) :
    CryptoExpected (List KnownExtension × Certificate) :=
  match identifyExtension extension.1 with
  | none => .ok s
  | some known =>
    if known ∈ s.1 then .error parseError
    else do
      let certificate ← applyExtension s.2 extension.2 known
      return (known :: s.1, certificate)

def parseExtensions (explicitExtensions : DerElement) (certificate : Certificate) : CryptoExpected Certificate := do
  let extensionsReader ← openChildren (contextTag true 3) explicitExtensions
  let (extensionsElement, extensionsReader) ← readElement extensionsReader
  if isAtEnd extensionsReader = false then throw parseError
  else
    let extensions ← openChildren sequenceTag extensionsElement
    let (_, certificate) ← forElements (fun s extensionElement => do
      let extension ← readExtension extensionElement
      takeExtension s extension) extensions ([], certificate)
    return certificate

def parseVersionAndSerial (tbsReader : DerReader) : CryptoExpected (UInt32 × Bytes × DerReader) := do
  let (first, tbsReader) ← readElement tbsReader
  if first.tag = contextTag true 0 then
    let versionReader ← enterConstructed { rest := first.encoded } first
    let (versionElement, versionReader) ← readElement versionReader
    if isAtEnd versionReader = false then throw parseError
    else
      let version ← readInteger versionElement
      match version with
      | [v] =>
        if 2 < v then throw parseError
        else
          let (serialElement, tbsReader) ← readElement tbsReader
          let serial ← readInteger serialElement
          return (v.toUInt32 + 1, serial, tbsReader)
      | _ => throw parseError
  else
    let serial ← readInteger first
    return (1, serial, tbsReader)

def readName (tbsReader : DerReader) : CryptoExpected (DerElement × DerReader) := do
  let (name, tbsReader) ← readElement tbsReader
  if name.tag ≠ sequenceTag then throw parseError else return (name, tbsReader)

def parseOptionalField (certificate : Certificate) (field : DerElement) : CryptoExpected Certificate :=
  if field.tag = contextTag true 3 then parseExtensions field certificate
  else if field.tag ≠ contextTag false 1 ∧ field.tag ≠ contextTag false 2 then .error parseError
  else .ok certificate

/-- The fields of the TBS certificate up to the public key, and the reader after them. -/
def parseMandatoryFields (tbsReader : DerReader) : CryptoExpected (Certificate × DerReader) := do
  let (version, serialNumber, tbsReader) ← parseVersionAndSerial tbsReader
  let (_, tbsReader) ← readElement tbsReader
  let (issuer, tbsReader) ← readName tbsReader
  let (validityElement, tbsReader) ← readElement tbsReader
  let validity ← parseValidity validityElement
  let (subject, tbsReader) ← readName tbsReader
  let (spkiElement, tbsReader) ← readElement tbsReader
  let subjectPublicKeyInfo ← parseSubjectPublicKeyInfo spkiElement.encoded
  return ({
    version, serialNumber, issuerDer := issuer.encoded, issuer := nameOrEmpty issuer, validity, subjectDer := subject.encoded,
    subject := nameOrEmpty subject, subjectPublicKeyInfo, publicKeyAlgorithm := subjectPublicKeyInfo.algorithm }, tbsReader)

def parseX509Certificate (der : Bytes) : CryptoExpected Certificate := do
  let certificateElement ← readSingleElement der
  let certificateSequence ← openChildren sequenceTag certificateElement
  let (tbsElement, certificateSequence) ← readElement certificateSequence
  let (signatureAlgorithmElement, certificateSequence) ← readElement certificateSequence
  let (signatureValueElement, certificateSequence) ← readElement certificateSequence
  if isAtEnd certificateSequence = false then throw parseError
  else
    let signatureAlgorithm ← knownSignatureAlgorithm signatureAlgorithmElement
    let signatureValue ← readBitString signatureValueElement
    if signatureValue.unusedBitCount ≠ 0 then throw parseError
    else
      let tbsReader ← openChildren sequenceTag tbsElement
      let (certificate, tbsReader) ← parseMandatoryFields tbsReader
      forElements parseOptionalField tbsReader
        { certificate with
          certificateDer := certificateElement.encoded, tbsCertificateDer := tbsElement.encoded,
          signatureAlgorithmDer := signatureAlgorithmElement.encoded, signatureAlgorithm := signatureAlgorithm.getD .ed25519,
          hasKnownSignatureAlgorithm := signatureAlgorithm.isSome, signatureValue := signatureValue.bytes }

end NginBase.Crypto.Certificates
