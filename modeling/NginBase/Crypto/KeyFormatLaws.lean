import NginBase.Crypto.DerLaws
import NginBase.Crypto.KeyFormat

namespace NginBase.Crypto.Keys

open Library Der List

abbrev elementLimit : Nat := ({} : DerReadOptions).maxElementBytes.toNat

section

variable {bytes : Bytes} {tag : DerTag} {value : Bytes}

section

variable (h : encodeElement tag value = .ok bytes)

include h

theorem encodeElement_eq :
    ∃ length, lengthBytes value.length = .ok length ∧ bytes = identifierBytes tag ++ length ++ value := by
  rcases bind_ok h with ⟨length, sized, h⟩
  cases h
  exact ⟨length, sized, rfl⟩

theorem value_length_le : value.length ≤ bytes.length := by
  rcases encodeElement_eq h with ⟨length, _, rfl⟩
  rw [length_append]
  omega

theorem encoded_ne_nil : bytes ≠ [] := by
  rcases encodeElement_eq h with ⟨length, _, rfl⟩
  rcases identifierBytes_read tag with ⟨identifier, more, shape, _⟩
  rw [shape]
  simp

theorem read_encoded (fits : value.length ≤ elementLimit) (rest : Bytes) (depth : Nat) :
    readElement ⟨bytes ++ rest, {}, depth⟩ = .ok (⟨tag, value, bytes⟩, ⟨rest, {}, depth⟩) := by
  rcases readElement_encode tag value rest {} depth fits with ⟨bytes', written, read⟩
  rw [h] at written
  cases written
  exact read

end

theorem encodeElement_ok (tag : DerTag) (value : Bytes) (bound : value.length < 2 ^ 64) :
    ∃ bytes, encodeElement tag value = .ok bytes := by
  rcases lengthBytes_read bound with ⟨length, sized, _⟩
  refine ⟨identifierBytes tag ++ length ++ value, ?_⟩
  rw [encodeElement, sized]
  rfl

variable {element : DerElement}

theorem readSingleElement_sound {der : Bytes} (h : readSingleElement der = .ok element) :
    encodeElement element.tag element.value = .ok der ∧ element.encoded = der ∧ element.value.length ≤ elementLimit := by
  rcases bind_ok h with ⟨⟨element', reader⟩, read, h⟩
  dsimp only at h
  obtain ⟨more, h⟩ := guard_ok h
  cases h
  rcases readElement_sound read with ⟨written, shape, _, _, fits⟩
  have done : reader.rest = [] := by simpa [isAtEnd] using more
  dsimp only at shape
  rw [done, append_nil] at shape
  rw [shape]
  exact ⟨written, rfl, fits⟩

theorem readSingleElement_complete (h : encodeElement tag value = .ok bytes) (fits : value.length ≤ elementLimit) :
    readSingleElement bytes = .ok ⟨tag, value, bytes⟩ := by
  have read := read_encoded h fits [] 0
  rw [append_nil] at read
  rw [readSingleElement, read]
  rfl

theorem readSequence_child {parent : DerReader} {reader : DerReader} (h : readSequence parent element = .ok reader) :
    element.tag = sequenceTag ∧ reader = ⟨element.value, parent.options, parent.depth + 1⟩ := by
  unfold readSequence at h
  by_cases other : element.tag ≠ sequenceTag
  · rw [if_pos other] at h
    cases h
  rw [if_neg other, enterConstructed] at h
  obtain ⟨deep, h⟩ := guard_ok h
  cases h
  exact ⟨not_not.mp other, rfl⟩

theorem readSequence_top (rest value bytes : Bytes) :
    readSequence { rest := rest } ⟨sequenceTag, value, bytes⟩ = .ok ⟨value, {}, 1⟩ := rfl

theorem readBitString_whole {bits : DerBitString} (h : readBitString element = .ok bits)
    (whole : bits.unusedBitCount = 0) : element.tag = bitStringTag ∧ element.value = 0 :: bits.bytes := by
  unfold readBitString at h
  obtain ⟨other, h⟩ := guard_ok h
  refine ⟨not_not.mp other, ?_⟩
  cases value : element.value with
  | nil =>
    rw [value] at h
    cases h
  | cons unused bytes =>
    rw [value] at h
    dsimp only at h
    obtain ⟨invalid, h⟩ := guard_ok h
    cases h
    dsimp only at whole
    rw [whole]

theorem readInteger_value (h : readInteger element = .ok value) : element.tag = integerTag ∧ element.value = value := by
  unfold readInteger at h
  obtain ⟨bad, h⟩ := guard_ok h
  push Not at bad
  cases h
  exact ⟨bad.1, rfl⟩

end

section

theorem parameterBytes_iff (algorithm : RawAlgorithmIdentifier) (bytes : Bytes) :
    parameterBytes algorithm = .ok bytes ↔ bytes = algorithm.parameters ∧
      (algorithm.hasParameters = false ∧ algorithm.parameters = [] ∨
        algorithm.hasParameters = true ∧ ∃ element, readSingleElement algorithm.parameters = .ok element) := by
  unfold parameterBytes
  cases algorithm.hasParameters with
  | false =>
    by_cases none : algorithm.parameters = []
    · rw [none]
      simp
    · simp [none]
  | true =>
    cases h : readSingleElement algorithm.parameters with
    | error failure => simp
    | ok element => simp [eq_comm]

variable {algorithm : RawAlgorithmIdentifier}

theorem readParameters_sound {oid : List UInt32} {reader : DerReader} (options : reader.options = {})
    (h : readParameters oid reader = .ok algorithm) :
    algorithm.objectIdentifier = oid ∧ parameterBytes algorithm = .ok reader.rest := by
  unfold readParameters at h
  by_cases done : isAtEnd reader = true
  · rw [if_pos done] at h
    cases h
    have empty : reader.rest = [] := by simpa [isAtEnd] using done
    rw [empty]
    exact ⟨rfl, rfl⟩
  rw [if_neg done] at h
  rcases bind_ok h with ⟨⟨element, reader'⟩, read, h⟩
  dsimp only at h
  obtain ⟨more, h⟩ := guard_ok h
  cases h
  rcases readElement_sound read with ⟨written, shape, _, _, fits⟩
  have empty : reader'.rest = [] := by simpa [isAtEnd] using more
  rw [empty, append_nil] at shape
  rw [options] at fits
  refine ⟨rfl, (parameterBytes_iff _ _).mpr ⟨shape, .inr ⟨rfl, _, readSingleElement_complete written fits⟩⟩⟩

variable {bytes : Bytes}

theorem readParameters_complete (depth : Nat) (h : parameterBytes algorithm = .ok bytes) :
    readParameters algorithm.objectIdentifier ⟨bytes, {}, depth⟩ = .ok algorithm := by
  rcases algorithm with ⟨oid, parameters, hasParameters⟩
  rcases (parameterBytes_iff _ _).mp h with ⟨rfl, ⟨absent, none⟩ | ⟨present, element, single⟩⟩
  · dsimp only at absent none
    rw [absent, none]
    rfl
  · dsimp only at present single
    rcases readSingleElement_sound single with ⟨written, encoded, fits⟩
    have read := read_encoded written fits [] depth
    rw [append_nil] at read
    have more : isAtEnd ⟨bytes, {}, depth⟩ ≠ true := by simp [isAtEnd, encoded_ne_nil written]
    rw [readParameters, if_neg more, read, present]
    rfl

theorem parseRawAlgorithmIdentifierElement_sound {element : DerElement}
    (written : encodeElement element.tag element.value = .ok element.encoded)
    (h : parseRawAlgorithmIdentifierElement element = .ok algorithm) :
    element.tag = sequenceTag ∧ encodeRawAlgorithmIdentifier algorithm = .ok element.encoded := by
  rcases bind_ok h with ⟨reader, opened, h⟩
  rcases bind_ok h with ⟨⟨oidElement, reader'⟩, read, h⟩
  rcases bind_ok h with ⟨oid, identified, optional⟩
  rcases readSequence_child opened with ⟨tag, rfl⟩
  rcases readElement_sound read with ⟨oidWritten, shape, options, _⟩
  rcases readObjectIdentifier_sound identified with ⟨oidTag, content⟩
  rcases readParameters_sound options optional with ⟨same, parameters⟩
  dsimp only at shape
  rw [tag, shape] at written
  rw [oidTag] at oidWritten
  refine ⟨tag, ?_⟩
  rw [encodeRawAlgorithmIdentifier, encodeObjectIdentifier, same, content, ok_bind, oidWritten, parameters]
  exact written

theorem parseRawAlgorithmIdentifierElement_complete (h : encodeRawAlgorithmIdentifier algorithm = .ok bytes)
    (fits : bytes.length ≤ elementLimit) :
    ∃ value, encodeElement sequenceTag value = .ok bytes ∧
      parseRawAlgorithmIdentifierElement ⟨sequenceTag, value, bytes⟩ = .ok algorithm := by
  rcases bind_ok h with ⟨oid, identified, h⟩
  rcases bind_ok h with ⟨parameters, read, written⟩
  rcases bind_ok identified with ⟨value, content, oidWritten⟩
  have outer := value_length_le written
  have inner := value_length_le oidWritten
  rw [length_append] at outer
  refine ⟨_, written, ?_⟩
  rw [parseRawAlgorithmIdentifierElement, readSequence_top, ok_bind, read_encoded oidWritten (by omega), ok_bind]
  dsimp only
  rw [readObjectIdentifier_encode content]
  exact readParameters_complete _ read

def standardIdentifier : KeyAlgorithm → RawAlgorithmIdentifier
  | .ed25519 => ⟨ed25519Oid, [], false⟩
  | .x25519 => ⟨x25519Oid, [], false⟩
  | .ecdsaP256 => ⟨ecPublicKeyOid, [0x06, 0x08, 0x2A, 0x86, 0x48, 0xCE, 0x3D, 0x03, 0x01, 0x07], true⟩
  | .rsa => ⟨rsaEncryptionOid, [0x05, 0x00], true⟩
  | .unknown => ⟨[], [], false⟩

theorem curve_encoded : encodeObjectIdentifier secp256r1Oid = .ok (standardIdentifier .ecdsaP256).parameters := by
  decide +kernel

theorem encodeAlgorithmIdentifier_eq {algorithm : KeyAlgorithm} (known : algorithm ≠ .unknown) :
    encodeAlgorithmIdentifier algorithm = encodeRawAlgorithmIdentifier (standardIdentifier algorithm) := by
  cases algorithm with
  | unknown => exact absurd rfl known
  | ed25519 => decide +kernel
  | x25519 => decide +kernel
  | ecdsaP256 => decide +kernel
  | rsa => decide +kernel

theorem standardIdentifier_identified {algorithm : KeyAlgorithm} (known : algorithm ≠ .unknown) :
    identifyAlgorithm (standardIdentifier algorithm).objectIdentifier (standardIdentifier algorithm).hasParameters
      (standardIdentifier algorithm).parameters = .ok algorithm := by
  cases algorithm with
  | unknown => exact absurd rfl known
  | ed25519 => decide +kernel
  | x25519 => decide +kernel
  | ecdsaP256 => decide +kernel
  | rsa => decide +kernel

def Strict (algorithm : KeyAlgorithm) : Prop := algorithm = .ed25519 ∨ algorithm = .x25519 ∨ algorithm = .ecdsaP256

theorem Strict.known {algorithm : KeyAlgorithm} (strict : Strict algorithm) : algorithm ≠ .unknown := by
  rcases strict with rfl | rfl | rfl <;> decide

theorem not_strict_rsa : ¬ Strict .rsa := by simp [Strict]

theorem identifyAlgorithm_strict {identifier : RawAlgorithmIdentifier} {algorithm : KeyAlgorithm}
    (h : identifyAlgorithm identifier.objectIdentifier identifier.hasParameters identifier.parameters = .ok algorithm)
    (parameters : parameterBytes identifier = .ok bytes) (strict : Strict algorithm) :
    identifier = standardIdentifier algorithm := by
  rcases identifier with ⟨oid, encoded, hasParameters⟩
  have empty : hasParameters = false → encoded = [] := by
    intro absent
    rcases (parameterBytes_iff _ _).mp parameters with ⟨_, ⟨_, none⟩ | ⟨present, _⟩⟩
    · exact none
    · exact absurd (absent.symm.trans present) (by decide)
  dsimp only at h
  unfold identifyAlgorithm at h
  by_cases ed : oid = ed25519Oid
  · rw [if_pos ed] at h
    cases hasParameters with
    | true => cases h
    | false =>
      cases h
      rw [ed, empty rfl]
      rfl
  rw [if_neg ed] at h
  by_cases x : oid = x25519Oid
  · rw [if_pos x] at h
    cases hasParameters with
    | true => cases h
    | false =>
      cases h
      rw [x, empty rfl]
      rfl
  rw [if_neg x] at h
  by_cases ec : oid = ecPublicKeyOid
  · rw [if_pos ec] at h
    cases hasParameters with
    | false => cases h
    | true =>
      rcases bind_ok h with ⟨element, single, h⟩
      rcases bind_ok h with ⟨curve, identified, h⟩
      by_cases named : curve = secp256r1Oid
      · rw [if_pos named] at h
        cases h
        rcases readSingleElement_sound single with ⟨written, _⟩
        rcases readObjectIdentifier_sound identified with ⟨tag, content⟩
        -- the curve has one encoding, and it is the one that was read
        have curve' := curve_encoded
        rw [← named, encodeObjectIdentifier, content, ok_bind, ← tag, written] at curve'
        rw [ec, Except.ok.inj curve']
        rfl
      · rw [if_neg named] at h
        cases h
        exact absurd rfl strict.known
  rw [if_neg ec] at h
  by_cases rsa : oid = rsaEncryptionOid
  · rw [if_pos rsa] at h
    cases hasParameters with
    | false =>
      cases h
      exact absurd strict not_strict_rsa
    | true =>
      rcases bind_ok h with ⟨element, single, h⟩
      obtain ⟨other, h⟩ := guard_ok h
      cases h
      exact absurd strict not_strict_rsa
  · rw [if_neg rsa] at h
    cases h
    exact absurd rfl strict.known

theorem parameterBytes_of_encode (h : encodeRawAlgorithmIdentifier algorithm = .ok bytes) :
    ∃ parameters, parameterBytes algorithm = .ok parameters := by
  rcases bind_ok h with ⟨_, _, h⟩
  rcases bind_ok h with ⟨parameters, read, _⟩
  exact ⟨parameters, read⟩

theorem parseAlgorithmIdentifierElement_sound {element : DerElement} {identifier : KeyAlgorithmIdentifier}
    (written : encodeElement element.tag element.value = .ok element.encoded)
    (h : parseAlgorithmIdentifierElement element = .ok identifier) (strict : Strict identifier.algorithm) :
    element.tag = sequenceTag ∧ encodeAlgorithmIdentifier identifier.algorithm = .ok element.encoded := by
  rcases bind_ok h with ⟨raw, parsed, h⟩
  rcases bind_ok h with ⟨algorithm, identified, h⟩
  cases h
  rcases parseRawAlgorithmIdentifierElement_sound written parsed with ⟨tag, encoded⟩
  rcases parameterBytes_of_encode encoded with ⟨parameters, read⟩
  have standard := identifyAlgorithm_strict identified read strict
  rw [encodeAlgorithmIdentifier_eq strict.known, ← standard]
  exact ⟨tag, encoded⟩

theorem parseAlgorithmIdentifierElement_complete {algorithm : KeyAlgorithm} (known : algorithm ≠ .unknown)
    (h : encodeAlgorithmIdentifier algorithm = .ok bytes) (fits : bytes.length ≤ elementLimit) :
    ∃ value, encodeElement sequenceTag value = .ok bytes ∧
      parseAlgorithmIdentifierElement ⟨sequenceTag, value, bytes⟩ =
        .ok { standardIdentifier algorithm with algorithm } := by
  rw [encodeAlgorithmIdentifier_eq known] at h
  rcases parseRawAlgorithmIdentifierElement_complete h fits with ⟨value, written, parsed⟩
  refine ⟨value, written, ?_⟩
  rw [parseAlgorithmIdentifierElement, parsed, ok_bind, standardIdentifier_identified known]
  rfl

end

section

def WithinElementLimit (der : Bytes) : Prop := ∃ content, encodeSequence content = .ok der ∧ content.length ≤ elementLimit

variable {der : Bytes}

theorem openSequence_sound {reader : DerReader} (h : openSequence der = .ok reader) :
    encodeSequence reader.rest = .ok der ∧ reader.options = {} := by
  rcases bind_ok h with ⟨⟨top, after⟩, read, h⟩
  dsimp only at h
  obtain ⟨more, h⟩ := guard_ok h
  rcases readElement_sound read with ⟨written, shape, options, _⟩
  rcases readSequence_child h with ⟨tag, rfl⟩
  have done : after.rest = [] := by simpa [isAtEnd] using more
  rw [done, append_nil] at shape
  rw [tag, ← shape] at written
  exact ⟨written, options⟩

theorem openSequence_complete {content : Bytes} (h : encodeSequence content = .ok der)
    (fits : content.length ≤ elementLimit) : openSequence der = .ok ⟨content, {}, 1⟩ := by
  have read := read_encoded h fits [] 0
  rw [append_nil] at read
  rw [openSequence, read]
  rfl

theorem readFinalOctetString_sound {reader : DerReader} {octets : Bytes} (h : readFinalOctetString reader = .ok octets) :
    encodeOctetString octets = .ok reader.rest := by
  rcases bind_ok h with ⟨⟨element, after⟩, read, h⟩
  rcases bind_ok h with ⟨octets', value, h⟩
  obtain ⟨more, h⟩ := guard_ok h
  cases h
  unfold readOctetString at value
  obtain ⟨other, value⟩ := guard_ok value
  cases value
  rcases readElement_sound read with ⟨written, shape, _⟩
  have done : after.rest = [] := by simpa [isAtEnd] using more
  rw [shape, done, append_nil, encodeOctetString, ← not_not.mp other]
  exact written

theorem readFinalOctetString_complete {octets bytes : Bytes} (h : encodeOctetString octets = .ok bytes)
    (fits : octets.length ≤ elementLimit) (depth : Nat) : readFinalOctetString ⟨bytes, {}, depth⟩ = .ok octets := by
  have read := read_encoded h fits [] depth
  rw [append_nil] at read
  rw [readFinalOctetString, read]
  rfl

theorem lengthBytes_length {length : Nat} {bytes : Bytes} (h : lengthBytes length = .ok bytes) : bytes.length ≤ 127 := by
  unfold lengthBytes at h
  dsimp only at h
  split_ifs at h with short long
  · cases h
    simp
  · cases h
    simp only [length_cons, length_reverse]
    omega

theorem encodeSequence_injective {content content' : Bytes} (h : encodeSequence content = .ok der)
    (fits : content.length ≤ elementLimit) (h' : encodeSequence content' = .ok der) : content' = content := by
  have small : der.length < 2 ^ 64 := by
    rcases encodeElement_eq h with ⟨length, sized, rfl⟩
    have short := lengthBytes_length sized
    have limit : elementLimit = 0x100000 := rfl
    have identifier : (identifierBytes sequenceTag).length = 1 := rfl
    rw [length_append, length_append]
    omega
  have large := value_length_le h'
  have wide : content'.length ≤ (⟨0xFFFFFFFFFFFFFFFF, 16⟩ : DerReadOptions).maxElementBytes.toNat :=
    Nat.le_of_lt_succ (Nat.lt_of_le_of_lt large small)
  have wide' : content.length ≤ (⟨0xFFFFFFFFFFFFFFFF, 16⟩ : DerReadOptions).maxElementBytes.toNat :=
    fits.trans (by decide)
  rcases readElement_encode sequenceTag content' [] _ 0 wide with ⟨der', written, read⟩
  rcases readElement_encode sequenceTag content [] _ 0 wide' with ⟨der'', written', read'⟩
  cases written.symm.trans h'
  cases written'.symm.trans h
  rw [read] at read'
  cases read'
  rfl

theorem encodeBitString_whole (bytes : Bytes) : encodeBitString 0 bytes = encodeElement bitStringTag (0 :: bytes) := by
  have valid : validBitString 0 bytes = true := by
    unfold validBitString
    cases bytes.getLast? <;> simp
  rw [encodeBitString, valid]
  rfl

theorem subjectPublicKeyInfo_sound {info : SubjectPublicKeyInfo} (h : parseSubjectPublicKeyInfo der = .ok info)
    (strict : Strict info.algorithm.algorithm) :
    writeSubjectPublicKeyInfo info.algorithm.algorithm info.publicKey = .ok der := by
  rcases bind_ok h with ⟨reader, opened, h⟩
  rcases bind_ok h with ⟨⟨algorithmElement, reader₁⟩, first, h⟩
  rcases bind_ok h with ⟨algorithm, identified, h⟩
  rcases bind_ok h with ⟨⟨keyElement, reader₂⟩, second, h⟩
  dsimp only at h
  obtain ⟨more, h⟩ := guard_ok h
  rcases bind_ok h with ⟨bits, bitString, h⟩
  obtain ⟨unused, h⟩ := guard_ok h
  cases h
  rcases openSequence_sound opened with ⟨written, _⟩
  rcases readElement_sound first with ⟨written₁, shape₁, _⟩
  rcases readElement_sound second with ⟨written₂, shape₂, _⟩
  rcases parseAlgorithmIdentifierElement_sound written₁ identified strict with ⟨_, encoded⟩
  have done : reader₂.rest = [] := by simpa [isAtEnd] using more
  rcases readBitString_whole bitString (not_not.mp unused) with ⟨tag, value⟩
  rw [tag, value] at written₂
  rw [done, append_nil] at shape₂
  rw [shape₁, shape₂] at written
  rw [writeSubjectPublicKeyInfo, encoded, encodeBitString_whole, written₂]
  exact written

theorem privateKeyInfo_sound {info : PrivateKeyInfo} (h : parsePrivateKeyInfo der = .ok info)
    (strict : Strict info.algorithm.algorithm) :
    writePrivateKeyInfo info.algorithm.algorithm info.privateKey = .ok der := by
  rcases bind_ok h with ⟨reader, opened, h⟩
  rcases bind_ok h with ⟨⟨versionElement, reader₁⟩, first, h⟩
  rcases bind_ok h with ⟨version, integer, h⟩
  obtain ⟨other, h⟩ := guard_ok h
  rcases bind_ok h with ⟨⟨algorithmElement, reader₂⟩, second, h⟩
  rcases bind_ok h with ⟨algorithm, identified, h⟩
  rcases bind_ok h with ⟨key, final, h⟩
  cases h
  rcases openSequence_sound opened with ⟨written, _⟩
  rcases readElement_sound first with ⟨written₁, shape₁, _⟩
  rcases readElement_sound second with ⟨written₂, shape₂, _⟩
  rcases parseAlgorithmIdentifierElement_sound written₂ identified strict with ⟨_, encoded⟩
  have octets := readFinalOctetString_sound final
  rcases readInteger_value integer with ⟨tag, value⟩
  rw [tag, value, not_not.mp other] at written₁
  rw [shape₁, shape₂, ← append_assoc] at written
  have zero : encodeInteger [0] = encodeElement integerTag [0] := rfl
  rw [writePrivateKeyInfo, zero, written₁, encoded, octets]
  exact written

theorem encryptedPrivateKeyInfo_sound {info : EncryptedPrivateKeyInfo} (h : parseEncryptedPrivateKeyInfo der = .ok info) :
    writeEncryptedPrivateKeyInfo info.encryptionAlgorithm info.encryptedData = .ok der := by
  rcases bind_ok h with ⟨reader, opened, h⟩
  rcases bind_ok h with ⟨⟨algorithmElement, reader₁⟩, first, h⟩
  rcases bind_ok h with ⟨algorithm, identified, h⟩
  rcases bind_ok h with ⟨data, final, h⟩
  cases h
  rcases openSequence_sound opened with ⟨written, _⟩
  rcases readElement_sound first with ⟨written₁, shape₁, _⟩
  rcases parseRawAlgorithmIdentifierElement_sound written₁ identified with ⟨_, encoded⟩
  have octets := readFinalOctetString_sound final
  rw [shape₁] at written
  rw [writeEncryptedPrivateKeyInfo, encoded, octets]
  exact written

variable {algorithm : KeyAlgorithm}

theorem subjectPublicKeyInfo_complete {publicKey : Bytes} (known : algorithm ≠ .unknown)
    (h : writeSubjectPublicKeyInfo algorithm publicKey = .ok der) (within : WithinElementLimit der) :
    parseSubjectPublicKeyInfo der = .ok ⟨{ standardIdentifier algorithm with algorithm }, publicKey⟩ := by
  rcases bind_ok h with ⟨identifier, encoded, h⟩
  rcases bind_ok h with ⟨bits, bitString, written⟩
  rcases within with ⟨content, sequence, fits⟩
  cases encodeSequence_injective sequence fits written
  rw [length_append] at fits
  rw [encodeBitString_whole] at bitString
  rcases parseAlgorithmIdentifierElement_complete known encoded (by omega) with ⟨value, written₁, identified⟩
  have first := value_length_le written₁
  have second := value_length_le bitString
  have last := read_encoded bitString (by omega) [] 1
  rw [append_nil] at last
  rw [parseSubjectPublicKeyInfo, openSequence_complete written (by rw [length_append]; omega), ok_bind,
    read_encoded written₁ (by omega), ok_bind]
  dsimp only
  rw [identified, ok_bind, last, ok_bind]
  have whole : readBitString ⟨bitStringTag, 0 :: publicKey, bits⟩ = .ok ⟨0, publicKey⟩ := by
    have valid : validBitString 0 publicKey = true := by
      unfold validBitString
      cases publicKey.getLast? <;> simp
    unfold readBitString
    dsimp only
    rw [valid]
    rfl
  rw [whole]
  rfl

theorem privateKeyInfo_complete {privateKey : Bytes} (known : algorithm ≠ .unknown)
    (h : writePrivateKeyInfo algorithm privateKey = .ok der) (within : WithinElementLimit der) :
    parsePrivateKeyInfo der = .ok ⟨0, { standardIdentifier algorithm with algorithm }, privateKey⟩ := by
  rcases bind_ok h with ⟨version, integer, h⟩
  rcases bind_ok h with ⟨identifier, encoded, h⟩
  rcases bind_ok h with ⟨octets, octetString, written⟩
  rcases within with ⟨content, sequence, fits⟩
  cases encodeSequence_injective sequence fits written
  rw [length_append, length_append] at fits
  have zero : encodeElement integerTag [0] = .ok version := integer
  rcases parseAlgorithmIdentifierElement_complete known encoded (by omega) with ⟨value, written₂, identified⟩
  have first := value_length_le zero
  have second := value_length_le written₂
  have third := value_length_le octetString
  rw [parsePrivateKeyInfo,
    openSequence_complete written (by rw [length_append, length_append]; omega), ok_bind,
    append_assoc, read_encoded zero (by omega), ok_bind]
  dsimp only
  have read : readInteger ⟨integerTag, [0], version⟩ = .ok [0] := rfl
  rw [read, ok_bind, read_encoded written₂ (by omega), ok_bind]
  rw [identified, readFinalOctetString_complete octetString (by omega)]
  rfl

theorem encryptedPrivateKeyInfo_complete {algorithm : RawAlgorithmIdentifier} {encryptedData : Bytes}
    (h : writeEncryptedPrivateKeyInfo algorithm encryptedData = .ok der) (within : WithinElementLimit der) :
    parseEncryptedPrivateKeyInfo der = .ok ⟨algorithm, encryptedData⟩ := by
  rcases bind_ok h with ⟨identifier, encoded, h⟩
  rcases bind_ok h with ⟨octets, octetString, written⟩
  rcases within with ⟨content, sequence, fits⟩
  cases encodeSequence_injective sequence fits written
  rw [length_append] at fits
  rcases parseRawAlgorithmIdentifierElement_complete encoded (by omega) with ⟨value, written₁, identified⟩
  have first := value_length_le written₁
  have second := value_length_le octetString
  rw [parseEncryptedPrivateKeyInfo, openSequence_complete written (by rw [length_append]; omega), ok_bind,
    read_encoded written₁ (by omega), ok_bind]
  dsimp only
  rw [identified, readFinalOctetString_complete octetString (by omega)]
  rfl

theorem encodeAlgorithmIdentifier_ok (known : algorithm ≠ .unknown) :
    ∃ bytes, encodeAlgorithmIdentifier algorithm = .ok bytes ∧ bytes.length ≤ 32 := by
  cases algorithm with
  | unknown => exact absurd rfl known
  | ed25519 => exact ⟨[0x30, 0x05, 0x06, 0x03, 0x2B, 0x65, 0x70], by decide +kernel, by decide⟩
  | x25519 => exact ⟨[0x30, 0x05, 0x06, 0x03, 0x2B, 0x65, 0x6E], by decide +kernel, by decide⟩
  | ecdsaP256 =>
    exact ⟨[0x30, 0x13, 0x06, 0x07, 0x2A, 0x86, 0x48, 0xCE, 0x3D, 0x02, 0x01, 0x06, 0x08, 0x2A, 0x86, 0x48, 0xCE, 0x3D,
      0x03, 0x01, 0x07], by decide +kernel, by decide⟩
  | rsa =>
    exact ⟨[0x30, 0x0D, 0x06, 0x09, 0x2A, 0x86, 0x48, 0x86, 0xF7, 0x0D, 0x01, 0x01, 0x01, 0x05, 0x00], by decide +kernel,
      by decide⟩

end

/-- Key containers round-trip and are not malleable; only RSA may leave its parameters out. -/
theorem key_containers_exact :
    (∀ (algorithm : KeyAlgorithm) (key : Bytes), algorithm ≠ .unknown → key.length ≤ elementLimit →
      (∃ der, writeSubjectPublicKeyInfo algorithm key = .ok der ∧ (WithinElementLimit der →
        ∃ info, parseSubjectPublicKeyInfo der = .ok info ∧ info.algorithm.algorithm = algorithm ∧ info.publicKey = key)) ∧
      (∃ der, writePrivateKeyInfo algorithm key = .ok der ∧ (WithinElementLimit der →
        ∃ info, parsePrivateKeyInfo der = .ok info ∧ info.algorithm.algorithm = algorithm ∧ info.privateKey = key))) ∧
    (∀ (der : Bytes) (info : SubjectPublicKeyInfo), parseSubjectPublicKeyInfo der = .ok info →
      info.algorithm.algorithm = .ed25519 ∨ info.algorithm.algorithm = .x25519 ∨ info.algorithm.algorithm = .ecdsaP256 →
      writeSubjectPublicKeyInfo info.algorithm.algorithm info.publicKey = .ok der) ∧
    (∀ (der : Bytes) (info : PrivateKeyInfo), parsePrivateKeyInfo der = .ok info →
      info.algorithm.algorithm = .ed25519 ∨ info.algorithm.algorithm = .x25519 ∨ info.algorithm.algorithm = .ecdsaP256 →
      writePrivateKeyInfo info.algorithm.algorithm info.privateKey = .ok der) ∧
    (∀ (der : Bytes) (info : EncryptedPrivateKeyInfo), parseEncryptedPrivateKeyInfo der = .ok info →
      writeEncryptedPrivateKeyInfo info.encryptionAlgorithm info.encryptedData = .ok der) ∧
    (∀ (algorithm : RawAlgorithmIdentifier) (encryptedData der : Bytes),
      writeEncryptedPrivateKeyInfo algorithm encryptedData = .ok der → WithinElementLimit der →
      parseEncryptedPrivateKeyInfo der = .ok ⟨algorithm, encryptedData⟩) := by
  refine ⟨fun algorithm key known short => ?_, fun der info parsed strict => subjectPublicKeyInfo_sound parsed strict,
    fun der info parsed strict => privateKeyInfo_sound parsed strict,
    fun der info parsed => encryptedPrivateKeyInfo_sound parsed,
    fun algorithm data der written within => encryptedPrivateKeyInfo_complete written within⟩
  have limit : elementLimit = 0x100000 := rfl
  rcases encodeAlgorithmIdentifier_ok known with ⟨identifier, encoded, small⟩
  constructor
  · rcases encodeElement_ok bitStringTag (0 :: key) (by rw [length_cons]; omega) with ⟨bits, written⟩
    have bound : (identifier ++ bits).length < 2 ^ 64 := by
      rcases encodeElement_eq written with ⟨length, sized, rfl⟩
      have few := lengthBytes_length sized
      have one : (identifierBytes bitStringTag).length = 1 := rfl
      simp only [length_append, length_cons]
      omega
    rcases encodeElement_ok sequenceTag _ bound with ⟨der, outer⟩
    have result : writeSubjectPublicKeyInfo algorithm key = .ok der := by
      rw [writeSubjectPublicKeyInfo, encoded, encodeBitString_whole, written]
      exact outer
    exact ⟨der, result, fun within => ⟨_, subjectPublicKeyInfo_complete known result within, rfl, rfl⟩⟩
  · rcases encodeElement_ok octetStringTag key (by omega) with ⟨octets, written⟩
    have bound : ([0x02, 0x01, 0x00] ++ identifier ++ octets).length < 2 ^ 64 := by
      rcases encodeElement_eq written with ⟨length, sized, rfl⟩
      have few := lengthBytes_length sized
      have one : (identifierBytes octetStringTag).length = 1 := rfl
      simp only [length_append, length_cons, length_nil]
      omega
    rcases encodeElement_ok sequenceTag _ bound with ⟨der, outer⟩
    have result : writePrivateKeyInfo algorithm key = .ok der := by
      have zero : encodeInteger [0] = .ok [0x02, 0x01, 0x00] := rfl
      rw [writePrivateKeyInfo, encoded, encodeOctetString, written]
      exact outer
    exact ⟨der, result, fun within => ⟨_, privateKeyInfo_complete known result within, rfl, rfl⟩⟩

end NginBase.Crypto.Keys
