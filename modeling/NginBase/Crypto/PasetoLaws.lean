import NginBase.Crypto.Base64UrlLaws
import NginBase.Crypto.Paseto

namespace NginBase.Crypto.Tokens

open Library List Base64Url UInt8 Nat

/-- What is documented of libsodium: it can be initialised, the hash fills its output, and the
    stream cipher applied twice is the identity. -/
structure Libsodium.Lawful (sodium : Libsodium) : Prop where
  initialised : sodium.sodiumInit = true
  hash : ∀ key input : Bytes, ∀ size, 16 ≤ key.length → key.length ≤ 64 → 16 ≤ size → size ≤ 64 →
    ∃ output : Bytes, sodium.genericHash key input size = some output ∧ output.length = size
  stream : ∀ key nonce input : Bytes, key.length = 32 → nonce.length = 24 →
    ∃ output : Bytes, sodium.streamXChaCha20Xor key nonce input = some output ∧ output.length = input.length ∧
      sodium.streamXChaCha20Xor key nonce output = some input

section

variable {sodium : Libsodium} (lawful : sodium.Lawful)

include lawful

theorem blake2b_ok {key : Bytes} (input : Bytes) (size : Nat) (length : key.length = 32) (fits : input.length < 2 ^ 64)
    (low : 16 ≤ size) (high : size ≤ 64) :
    ∃ output : Bytes, blake2bLibsodium sodium key input size = .ok output ∧ output.length = size := by
  rcases lawful.hash key input size (by omega) (by omega) low high with ⟨output, hashed, filled⟩
  refine ⟨output, ?_, filled⟩
  have bound : fitsUnsignedLongLong input.length = true := by
    simp only [fitsUnsignedLongLong, decide_eq_true_eq]
    omega
  rw [blake2bLibsodium, if_neg (by simp [lawful.initialised]), if_neg (by simp [bound]; omega), hashed]

theorem xChaCha20_ok {key nonce : Bytes} (input : Bytes) (length : key.length = 32) (length' : nonce.length = 24)
    (fits : input.length < 2 ^ 64) :
    ∃ output : Bytes, output.length = input.length ∧
      xChaCha20XorLibsodium sodium key nonce input input.length = .ok output ∧
      xChaCha20XorLibsodium sodium key nonce output input.length = .ok input := by
  rcases lawful.stream key nonce input length length' with ⟨output, hidden, same, shown⟩
  refine ⟨output, same, ?_, ?_⟩
  all_goals
    have bound : fitsUnsignedLongLong input.length = true := by
      simp only [fitsUnsignedLongLong, decide_eq_true_eq]
      omega
    rw [xChaCha20XorLibsodium, if_neg (by simp [lawful.initialised])]
  · rw [if_neg (by simp [length, length', bound]), hidden]
  · rw [if_neg (by simp [length, length', same, bound]), shown]

theorem derive_ok {key nonce : Bytes} (length : key.length = 32) (length' : nonce.length = 32) :
    ∃ material authKey : Bytes, derivePasetoV4LocalKeys sodium key nonce = .ok (material, authKey) ∧
      material.length = 56 ∧ authKey.length = 32 := by
  have info : pasetoV4LocalEncryptionInfo.length = 21 := by decide +kernel
  have info' : pasetoV4LocalAuthInfo.length = 24 := by decide +kernel
  rcases blake2b_ok lawful (pasetoV4LocalEncryptionInfo ++ nonce) 56 length
    (by rw [length_append]; omega) (by decide) (by decide) with ⟨material, hashed, filled⟩
  rcases blake2b_ok lawful (pasetoV4LocalAuthInfo ++ nonce) 32 length
    (by rw [length_append]; omega) (by decide) (by decide) with ⟨authKey, hashed', filled'⟩
  refine ⟨material, authKey, ?_, filled, filled'⟩
  rw [derivePasetoV4LocalKeys, concat, if_neg (by omega), ok_bind, hashed, ok_bind, concat, if_neg (by omega), ok_bind,
    hashed']
  rfl

end

theorem constantTimeEqual_self (bytes : Bytes) : constantTimeEqual bytes bytes = true := by
  unfold constantTimeEqual
  rw [if_neg (not_not.mpr rfl)]
  induction bytes with
  | nil => rfl
  | cons b bytes ih =>
    rw [zip_cons_cons]
    simpa using ih

theorem le64Loop_length (count value : Nat) : (le64Loop count value).length = count := by
  induction count generalizing value with
  | zero => rfl
  | succ count ih => rw [le64Loop, length_cons, ih]

theorem le64Loop_injective {count value value' : Nat} (bound : value < 256 ^ count) (bound' : value' < 256 ^ count)
    (same : le64Loop count value = le64Loop count value') : value = value' := by
  induction count generalizing value value' with
  | zero =>
    simp only [pow_zero] at bound bound'
    omega
  | succ count ih =>
    rw [le64Loop, le64Loop, cons.injEq, and_two_pow_sub_one_eq_mod value 8,
      and_two_pow_sub_one_eq_mod value' 8, shiftRight_eq_div_pow, shiftRight_eq_div_pow] at same
    rw [pow_succ] at bound bound'
    have high := ih (by omega) (by omega) same.2
    have low := congrArg toNat same.1
    rw [toNat_ofNat_of_lt' (mod_lt _ (by decide)), toNat_ofNat_of_lt' (mod_lt _ (by decide))] at low
    simp only [UInt8.size] at low
    omega

theorem le64_injective {value value' : Nat} (bound : value < 2 ^ 64) (bound' : value' < 2 ^ 64)
    (same : le64 value = le64 value') : value = value' :=
  le64Loop_injective bound bound' same

theorem paeSize_bound {pieces : List Bytes} {size total : Nat} (h : paeSize pieces size = .ok total) :
    ∀ piece ∈ pieces, piece.length < 2 ^ 64 := by
  induction pieces generalizing size with
  | nil => simp
  | cons piece pieces ih =>
    unfold paeSize at h
    obtain ⟨large, h⟩ := guard_ok h
    rw [forall_mem_cons]
    exact ⟨by omega, ih h⟩

theorem paeSize_ok (pieces : List Bytes) (size : Nat) (fits : size + (pieces.map length).sum < 2 ^ 64) :
    ∃ total, paeSize pieces size = .ok total := by
  induction pieces generalizing size with
  | nil => exact ⟨size, rfl⟩
  | cons piece pieces ih =>
    rw [map_cons, sum_cons] at fits
    rw [paeSize, if_neg (by omega)]
    exact ih _ (by omega)

theorem pieces_injective {pieces pieces' : List Bytes} (small : ∀ piece ∈ pieces, piece.length < 2 ^ 64)
    (small' : ∀ piece ∈ pieces', piece.length < 2 ^ 64) (count : pieces.length = pieces'.length)
    (same : (pieces.flatMap fun piece => le64 piece.length ++ piece) = pieces'.flatMap fun piece => le64 piece.length ++ piece) :
    pieces = pieces' := by
  induction pieces generalizing pieces' with
  | nil => exact (length_eq_zero_iff.mp count.symm).symm
  | cons piece pieces ih =>
    cases pieces' with
    | nil => cases count
    | cons piece' pieces' =>
      rw [forall_mem_cons] at small small'
      rw [flatMap_cons, flatMap_cons, append_assoc, append_assoc] at same
      rcases append_inj same ((le64Loop_length 8 _).trans (le64Loop_length 8 _).symm) with ⟨size, same⟩
      rcases append_inj same (le64_injective small.1 small'.1 size) with ⟨here, rest⟩
      rw [here, ih small.2 small'.2 (succ.inj count) rest]

theorem pae_injective {pieces pieces' : List Bytes} {bytes : Bytes} (h : pae pieces = .ok bytes)
    (h' : pae pieces' = .ok bytes) : pieces = pieces' := by
  unfold pae at h h'
  by_cases many : 2 ^ 64 - 1 < pieces.length
  · rw [if_pos many] at h
    cases h
  by_cases many' : 2 ^ 64 - 1 < pieces'.length
  · rw [if_pos many'] at h'
    cases h'
  rw [if_neg many] at h
  rw [if_neg many'] at h'
  rcases bind_ok h with ⟨_, sized, h⟩
  rcases bind_ok h' with ⟨_, sized', h'⟩
  have same := Except.ok.inj (h.trans h'.symm)
  rcases append_inj same ((le64Loop_length 8 _).trans (le64Loop_length 8 _).symm) with ⟨count, same⟩
  exact pieces_injective (paeSize_bound sized) (paeSize_bound sized') (le64_injective (by omega) (by omega) count) same

theorem tag_ok {sodium : Libsodium} (lawful : sodium.Lawful) {authKey : Bytes}
    (nonce ciphertext footer implicitAssertion : Bytes) (length : authKey.length = 32)
    (fits : nonce.length + ciphertext.length + footer.length + implicitAssertion.length + 57 < 2 ^ 64) :
    ∃ tag : Bytes, computePasetoV4LocalTag sodium authKey nonce ciphertext footer implicitAssertion = .ok tag ∧
      tag.length = 32 := by
  have header : pasetoV4LocalHeader.length = 9 := by decide +kernel
  have size := paeSize_ok [pasetoV4LocalHeader, nonce, ciphertext, footer, implicitAssertion] 0
    (by simp only [map_cons, map_nil, sum_cons, sum_nil]; omega)
  rcases size with ⟨total, sized⟩
  have encoded : preAuth nonce ciphertext footer implicitAssertion = .ok (le64 5 ++
      [pasetoV4LocalHeader, nonce, ciphertext, footer, implicitAssertion].flatMap fun piece => le64 piece.length ++ piece) := by
    rw [preAuth, pae, sized]
    rfl
  rw [computePasetoV4LocalTag, encoded]
  apply blake2b_ok lawful _ 32 length _ (by decide) (by decide)
  simp only [flatMap_cons, flatMap_nil, length_append, length_nil, le64, le64Loop_length]
  omega

theorem dot_not_mem_url (padding : Base64Padding) (bytes : Bytes) :
    0x2E ∉ convertStandardToUrl (Base64.text padding bytes) := by
  have letters : ∀ n : Fin 64, toUrl (Base64.letter (.ofNat n.val)) ≠ 0x2E := by decide
  rw [convertStandardToUrl_map, mem_map]
  rintro ⟨c, mem, dot⟩
  rw [Base64.text, mem_append] at mem
  rcases mem with mem | mem
  · rcases mem_map.mp mem with ⟨q, inside, rfl⟩
    have here := letters ⟨q.toNat, (Base64.sextets_tight bytes).small q inside⟩
    rw [UInt8.ofNat_toNat] at here
    exact here dot
  · cases padding with
    | omitted => cases mem
    | required =>
      rw [eq_of_mem_replicate mem] at dot
      exact absurd dot (by decide)

theorem split_dot {body rest : Bytes} (plain : 0x2E ∉ body) : (body ++ 0x2E :: rest).takeWhile (· ≠ 0x2E) = body ∧
      ((body ++ 0x2E :: rest).dropWhile (· ≠ 0x2E)).drop 1 = rest := by
  have all : ∀ c ∈ body, decide (c ≠ 0x2E) = true := fun c mem => by
    simp only [decide_eq_true_eq]
    exact fun dot => plain (dot ▸ mem)
  rw [takeWhile_append_of_pos all, dropWhile_append_of_pos all]
  simp

theorem split_none {body : Bytes} (plain : 0x2E ∉ body) :
    body.takeWhile (· ≠ 0x2E) = body ∧ (body.dropWhile (· ≠ 0x2E)).drop 1 = [] := by
  have all : ∀ c ∈ body, decide (c ≠ 0x2E) = true := fun c mem => by
    simp only [decide_eq_true_eq]
    exact fun dot => plain (dot ▸ mem)
  rw [dropWhile_eq_nil_iff.mpr all]
  exact ⟨takeWhile_eq_self_iff.mpr all, rfl⟩

theorem tokenText_parts (body footer : Bytes) :
    ∃ token text payloadText footerText, tokenText body footer = .ok token ∧ tokenBody token = .ok text ∧
      text.takeWhile (· ≠ 0x2E) = payloadText ∧ (text.dropWhile (· ≠ 0x2E)).drop 1 = footerText ∧
      decode payloadText = .ok body ∧ decode footerText = .ok footer := by
  have whole (text : Bytes) : tokenBody (pasetoV4LocalHeader ++ text) = .ok text := by
    rw [tokenBody, if_pos ⟨by rw [length_append]; omega, take_left⟩, drop_left]
  have decoded := decode_encode body .omitted
  by_cases empty : footer = []
  · rcases split_none (dot_not_mem_url .omitted body) with ⟨first, second⟩
    refine ⟨_, _, _, _, ?_, whole _, first, second, decoded, ?_⟩
    · rw [tokenText, encode_eq, ok_bind, if_pos empty]
      rfl
    · rw [empty]
      rfl
  · rcases split_dot (dot_not_mem_url .omitted body) with ⟨first, second⟩
    refine ⟨_, _, _, _, ?_, whole _, first, second, decoded, decode_encode footer .omitted⟩
    rw [tokenText, encode_eq, ok_bind, if_neg empty, encode_eq, ok_bind, append_assoc]
    rfl

section

variable (context : CryptoContext) (lawful : context.libsodium.Lawful) (usable : isLibsodiumContext context = true)

include lawful in
theorem decrypt_body {payload key nonce : Bytes} {options : PasetoSealOptions} {policy : PasetoValidationPolicy}
    {members : List (Bytes × Json.Value)} (keySize : key.length = 32) (nonceSize : nonce.length = 32)
    (object : parseJsonObject context.json payload = .ok members)
    (total : payload.length + options.footer.length + options.implicitAssertion.length + 89 < 2 ^ 64)
    (sameAssertion : policy.implicitAssertion = options.implicitAssertion)
    (required : ∀ claim ∈ policy.requiredClaims, hasClaim members claim = true) :
    ∃ material authKey ciphertext tag : Bytes,
      derivePasetoV4LocalKeys context.libsodium key nonce = .ok (material, authKey) ∧
      xChaCha20XorLibsodium context.libsodium (material.take 32) ((material.drop 32).take 24) payload payload.length =
        .ok ciphertext ∧
      computePasetoV4LocalTag context.libsodium authKey nonce ciphertext options.footer options.implicitAssertion = .ok tag ∧
      (nonce ++ ciphertext ++ tag).length = payload.length + 64 ∧
      decryptPasetoV4Local context key policy (nonce ++ ciphertext ++ tag) options.footer payload.length =
        .ok ⟨payload, options.footer, nonce⟩ := by
  rcases derive_ok lawful keySize nonceSize with ⟨material, authKey, derived, size, authSize⟩
  have encryptionKey : (material.take 32).length = 32 := by
    rw [length_take]
    omega
  have counterNonce : ((material.drop 32).take 24).length = 24 := by
    rw [length_take, length_drop]
    omega
  rcases xChaCha20_ok lawful payload encryptionKey counterNonce (by omega) with ⟨ciphertext, same, hidden, shown⟩
  rcases tag_ok lawful nonce ciphertext options.footer options.implicitAssertion authSize (by omega) with ⟨tag, computed, tagSize⟩
  refine ⟨material, authKey, ciphertext, tag, derived, hidden, computed, ?_, ?_⟩
  · rw [length_append, length_append]
    omega
  have first : (nonce ++ ciphertext ++ tag).take 32 = nonce := by
    rw [append_assoc, ← nonceSize, take_left]
  have second : ((nonce ++ ciphertext ++ tag).drop 32).take payload.length = ciphertext := by
    rw [append_assoc, ← nonceSize, drop_left, ← same, take_left]
  have third : ((nonce ++ ciphertext ++ tag).drop (32 + payload.length)).take 32 = tag := by
    have sizes : 32 + payload.length = (nonce ++ ciphertext).length := by
      rw [length_append]
      omega
    rw [sizes, drop_left, ← tagSize, take_length]
  have claims : validateRequiredClaims context.json payload policy = .ok () := by
    rw [validateRequiredClaims, object, ok_bind, if_pos (all_eq_true.mpr required)]
    rfl
  rw [decryptPasetoV4Local, first, second, third, derived, ok_bind]
  dsimp only
  rw [sameAssertion, computed, ok_bind, if_neg (by simp [constantTimeEqual_self]), shown, ok_bind, object, claims]
  rfl

end

/-- Opening a sealed token gives back what was sealed, and no two pairs of footer and implicit
    assertion are authenticated as the same bytes. -/
theorem paseto_open_seal (context : CryptoContext) (payload key nonce : Bytes) (options : PasetoSealOptions)
    (policy : PasetoValidationPolicy) (members : List (Bytes × Json.Value))
    (lawful : context.libsodium.Lawful) (usable : isLibsodiumContext context = true) (keySize : key.length = 32)
    (object : parseJsonObject context.json payload = .ok members)
    (random : context.fillRandom 32 = .ok nonce) (nonceSize : nonce.length = 32)
    (payloadFits : payload.length ≤ options.limits.maxPayloadBytes.toNat)
    (footerFits : options.footer.length ≤ options.limits.maxFooterBytes.toNat)
    (implicitFits : options.implicitAssertion.length ≤ options.limits.maxImplicitBytes.toNat)
    (total : payload.length + options.footer.length + options.implicitAssertion.length + 89 < 2 ^ 64)
    (sameAssertion : policy.implicitAssertion = options.implicitAssertion)
    (sameLimits : policy.parseOptions = options.limits)
    (expected : policy.expectedFooter = [] ∨ policy.expectedFooter = options.footer)
    (required : ∀ claim ∈ policy.requiredClaims, ∃ value, (claim, value) ∈ members) :
    (∃ token, sealPasetoV4Local context payload key options = .ok token ∧
      openPasetoV4Local context token key policy = .ok ⟨payload, options.footer, nonce⟩) ∧
    ∀ nonce nonce' ciphertext ciphertext' footer footer' implicitAssertion implicitAssertion' bytes,
      preAuth nonce ciphertext footer implicitAssertion = .ok bytes →
      preAuth nonce' ciphertext' footer' implicitAssertion' = .ok bytes →
      nonce = nonce' ∧ ciphertext = ciphertext' ∧ footer = footer' ∧ implicitAssertion = implicitAssertion' := by
  constructor
  · have claims : ∀ claim ∈ policy.requiredClaims, hasClaim members claim = true := by
      intro claim mem
      rcases required claim mem with ⟨value, inside⟩
      exact any_eq_true.mpr ⟨(claim, value), inside, by simp⟩
    rcases decrypt_body context lawful keySize nonceSize object total sameAssertion claims with
      ⟨material, authKey, ciphertext, tag, derived, hidden, computed, size, decrypted⟩
    rcases tokenText_parts (nonce ++ ciphertext ++ tag) options.footer with
      ⟨token, text, payloadText, footerText, made, body, first, second, decoded, decoded'⟩
    refine ⟨token, ?_, ?_⟩
    · rw [sealPasetoV4Local, if_neg (not_not.mpr keySize), if_neg (by omega), if_neg (by simp [usable]), object, ok_bind,
        random, ok_bind, derived, ok_bind]
      dsimp only
      rw [hidden, ok_bind, computed, ok_bind, made]
    · have nonempty : payloadText ≠ [] := by
        rintro rfl
        have none : decode [] = .ok [] := rfl
        rw [none] at decoded
        have length := congrArg length (Except.ok.inj decoded)
        rw [size] at length
        simp at length
      have footer : ¬ (policy.expectedFooter ≠ [] ∧ constantTimeEqual options.footer policy.expectedFooter = false) := by
        rintro ⟨given, differs⟩
        rcases expected with none | same
        · exact given none
        · rw [same, constantTimeEqual_self] at differs
          cases differs
      rw [openPasetoV4Local, if_neg (not_not.mpr keySize), if_neg (by rw [sameLimits, sameAssertion]; omega), body, ok_bind]
      dsimp only
      rw [first, second, if_neg nonempty, decoded, ok_bind, if_neg (by rw [size]; omega), decoded', ok_bind,
        if_neg (by rw [sameLimits]; omega), if_neg footer, size]
      have size' : payload.length + 64 - 32 - 32 = payload.length := by omega
      rw [if_neg (by rw [sameLimits]; omega), if_neg (by simp [usable])]
      exact decrypted
  · intro nonce nonce' ciphertext ciphertext' footer footer' implicitAssertion implicitAssertion' bytes h h'
    have pieces := pae_injective h h'
    simp only [cons.injEq, true_and, and_true] at pieces
    exact pieces

def recordedKey : Bytes := (range 32).map fun i => ofNat (0x70 + i)
def recordedNonce : Bytes := (range 32).map ofNat
def recordedPayload : Bytes := [0x7B, 0x22, 0x61, 0x22, 0x3A, 0x31, 0x7D]
def recordedFooter : Bytes := [0x6B, 0x69, 0x64]

def recordedMaterial : Bytes :=
  [0xDE, 0x13, 0x52, 0x78, 0xAA, 0xA5, 0x60, 0xD3, 0xA6, 0x9E, 0xE1, 0xE9, 0x03, 0xC3, 0xF9, 0x4D,
   0x16, 0xF1, 0xE9, 0xD0, 0x87, 0xA0, 0xC1, 0x20, 0x05, 0x7F, 0xD6, 0xDC, 0x27, 0x47, 0xC2, 0x74,
   0xAB, 0x77, 0xF3, 0x9B, 0xEF, 0xD4, 0x43, 0x41, 0xD2, 0xC6, 0xBC, 0x43, 0x7F, 0x49, 0x71, 0xD7,
   0xCA, 0x63, 0xD6, 0xC9, 0xF5, 0x4B, 0xEB, 0x89]

def recordedAuthKey : Bytes :=
  [0xA1, 0xB3, 0x4C, 0x7B, 0xCA, 0x3F, 0x28, 0x3C, 0x95, 0x7F, 0x98, 0x42, 0xF9, 0x88, 0xD0, 0x00,
   0x68, 0x91, 0xCF, 0x22, 0x56, 0xE8, 0x1C, 0xCB, 0x3F, 0x99, 0x99, 0xE8, 0x83, 0x63, 0xAC, 0x6C]

def recordedTag : Bytes :=
  [0xE0, 0x7D, 0xF6, 0x2C, 0xF8, 0xE7, 0x3B, 0xDF, 0xCD, 0xF9, 0x70, 0x9D, 0xFE, 0x0E, 0xE2, 0x4A,
   0x48, 0x66, 0xBF, 0x17, 0x5A, 0x17, 0xBC, 0xF4, 0x2D, 0x5F, 0x34, 0xBA, 0xBB, 0x6F, 0xDC, 0xB8]

def recordedStream : Bytes := [0xA9, 0x3A, 0x50, 0xB6, 0x11, 0x86, 0x6A]

def recordedHash (key : Bytes) (size : Nat) : Bytes :=
  if key = recordedKey ∧ size = 56 then recordedMaterial
  else if key = recordedKey ∧ size = 32 then recordedAuthKey
  else if key = recordedAuthKey ∧ size = 32 then recordedTag
  else replicate size 0

def recordedLibsodium : Libsodium where
  sodiumInit := true
  genericHash key _ size := some (recordedHash key size)
  streamXChaCha20Xor key nonce input := some (input.mapIdx fun i b =>
    if key ++ nonce = recordedMaterial then b ^^^ recordedStream.getD i 0 else b)

def recordedContext : CryptoContext where
  kind := .externalPackage
  name := "libsodium"
  fillRandom _ := .ok recordedNonce
  libsodium := recordedLibsodium
  json := { fromChars := fun _ => ⟨⟨0⟩, 0, false⟩ }

theorem recordedLibsodium_lawful : recordedLibsodium.Lawful where
  initialised := rfl
  hash key input size _ _ _ _ := by
    refine ⟨_, rfl, ?_⟩
    unfold recordedHash
    split_ifs with first second third
    · rw [first.2]
      rfl
    · rw [second.2]
      rfl
    · rw [third.2]
      rfl
    · rw [length_replicate]
  stream key nonce input _ _ := by
    refine ⟨_, rfl, length_mapIdx, ?_⟩
    dsimp only [recordedLibsodium]
    rw [mapIdx_mapIdx]
    congr 1
    apply ext_getElem
    · rw [length_mapIdx]
    · intro i _ _
      rw [getElem_mapIdx]
      dsimp only [Function.comp]
      split_ifs
      · rw [UInt8.xor_assoc, UInt8.xor_self, UInt8.xor_zero]
      · rfl

theorem paseto_open_seal_recorded :
    (∃ token, sealPasetoV4Local recordedContext recordedPayload recordedKey ⟨recordedFooter, [], {}⟩ = .ok token ∧
      openPasetoV4Local recordedContext token recordedKey ⟨[], [], [[0x61]], {}⟩ =
        .ok ⟨recordedPayload, recordedFooter, recordedNonce⟩) := by
  have accepted : (match parseJsonObject recordedContext.json recordedPayload with
      | .ok members => hasClaim members [0x61]
      | .error _ => false) = true := by decide +kernel
  cases result : parseJsonObject recordedContext.json recordedPayload with
  | error e =>
    rw [result] at accepted
    cases accepted
  | ok members =>
    rw [result] at accepted
    rcases any_eq_true.mp accepted with ⟨⟨claim, value⟩, inside, same⟩
    have required : ∀ claim ∈ [[0x61]], ∃ value, (claim, value) ∈ members := by
      rintro claim' mem
      rw [mem_singleton.mp mem, ← of_decide_eq_true same]
      exact ⟨value, inside⟩
    exact (paseto_open_seal recordedContext recordedPayload recordedKey recordedNonce ⟨recordedFooter, [], {}⟩
      ⟨[], [], [[0x61]], {}⟩ members recordedLibsodium_lawful (by decide) (by decide) result rfl (by decide) (by decide)
      (by decide) (by decide) (by decide) rfl rfl (.inl rfl) required).1

end NginBase.Crypto.Tokens
