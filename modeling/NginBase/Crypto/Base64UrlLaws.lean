import NginBase.Crypto.Base64Laws

namespace NginBase.Crypto

open Library Base64 List

namespace Base64Url

open Base64

def toUrl (c : UInt8) : UInt8 := if c = 0x2B then 0x2D else if c = 0x2F then 0x5F else c

def toStandard (c : UInt8) : UInt8 := if c = 0x2D then 0x2B else if c = 0x5F then 0x2F else c

theorem convertStandardToUrl_map (text : Bytes) : convertStandardToUrl text = text.map toUrl := rfl

theorem toUrl_toStandard {c : UInt8} (plus : c ≠ 0x2B) (slash : c ≠ 0x2F) : toUrl (toStandard c) = c := by
  unfold toStandard
  split
  · rename_i dash
    rw [dash]
    rfl
  · split
    · rename_i underscore
      rw [underscore]
      rfl
    · rw [toUrl, if_neg plus, if_neg slash]

theorem toStandard_toUrl {c : UInt8} (dash : c ≠ 0x2D) (underscore : c ≠ 0x5F) : toStandard (toUrl c) = c := by
  unfold toUrl
  split
  · rename_i plus
    rw [plus]
    rfl
  · split
    · rename_i slash
      rw [slash]
      rfl
    · rw [toStandard, if_neg dash, if_neg underscore]

theorem letter_plain {q : UInt8} (small : q.toNat < 64) :
    letter q ≠ 0x2D ∧ letter q ≠ 0x5F ∧ toUrl (letter q) ≠ 0x3D ∧ toUrl (letter q) ≠ 0x2B ∧ toUrl (letter q) ≠ 0x2F := by
  have all : ∀ n : Fin 64, letter (.ofNat n.val) ≠ 0x2D ∧ letter (.ofNat n.val) ≠ 0x5F ∧
      toUrl (letter (.ofNat n.val)) ≠ 0x3D ∧ toUrl (letter (.ofNat n.val)) ≠ 0x2B ∧
      toUrl (letter (.ofNat n.val)) ≠ 0x2F := by decide
  have here := all ⟨q.toNat, small⟩
  rwa [UInt8.ofNat_toNat] at here

theorem normalizeLoop_ok {text normalized result : Bytes} {seen : Bool}
    (h : normalizeLoop text seen normalized = .ok result) :
    result = normalized ++ text.map toStandard ∧ ∀ c ∈ text, c ≠ 0x2B ∧ c ≠ 0x2F := by
  induction text generalizing seen normalized with
  | nil =>
    cases h
    simp
  | cons c rest ih =>
    have next {c' : UInt8} {seen' : Bool} (plain : c ≠ 0x2B ∧ c ≠ 0x2F) (same : toStandard c = c')
        (h : normalizeLoop rest seen' (normalized ++ [c']) = .ok result) :
        result = normalized ++ (c :: rest).map toStandard ∧ ∀ x ∈ c :: rest, x ≠ 0x2B ∧ x ≠ 0x2F := by
      rcases ih h with ⟨whole, clean⟩
      refine ⟨by rw [whole, map_cons, same]; simp, ?_⟩
      rw [forall_mem_cons]
      exact ⟨plain, clean⟩
    unfold normalizeLoop at h
    by_cases pad : c = 0x3D
    · subst pad
      exact next (by decide) rfl h
    rw [if_neg pad] at h
    obtain ⟨late, h⟩ := guard_ok h
    by_cases dash : c = 0x2D
    · subst dash
      exact next (by decide) rfl h
    rw [if_neg dash] at h
    by_cases underscore : c = 0x5F
    · subst underscore
      exact next (by decide) rfl h
    rw [if_neg underscore] at h
    obtain ⟨foreign, h⟩ := guard_ok h
    refine next (not_or.mp foreign) ?_ h
    rw [toStandard, if_neg dash, if_neg underscore]

theorem normalizeLoop_pads (pads : Nat) (seen : Bool) (normalized : Bytes) :
    normalizeLoop (replicate pads 0x3D) seen normalized = .ok (normalized ++ replicate pads 0x3D) := by
  induction pads generalizing seen normalized with
  | zero => simp [normalizeLoop]
  | succ pads ih =>
    rw [replicate_succ, normalizeLoop, ih]
    simp

theorem normalizeLoop_letters {v : List UInt8} (small : ∀ q ∈ v, q.toNat < 64) (pads : Nat) (normalized : Bytes) :
    normalizeLoop (v.map (toUrl ∘ letter) ++ replicate pads 0x3D) false normalized =
      .ok (normalized ++ (v.map letter ++ replicate pads 0x3D)) := by
  induction v generalizing normalized with
  | nil => exact normalizeLoop_pads pads false normalized
  | cons q rest ih =>
    rw [forall_mem_cons] at small
    rcases letter_plain small.1 with ⟨dash, underscore, pad, plus, slash⟩
    have back : toStandard (toUrl (letter q)) = letter q := toStandard_toUrl dash underscore
    have tail := ih small.2 (normalized ++ [letter q])
    rw [map_cons, cons_append, Function.comp_apply, normalizeLoop, if_neg pad]
    unfold toStandard at back
    by_cases dash' : toUrl (letter q) = 0x2D
    · rw [if_pos dash'] at back
      rw [if_pos dash', back, tail]
      simp
    · rw [if_neg dash'] at back
      rw [if_neg dash']
      by_cases underscore' : toUrl (letter q) = 0x5F
      · rw [if_pos underscore'] at back
        rw [if_pos underscore', back, tail]
        simp
      · rw [if_neg underscore'] at back
        rw [if_neg underscore', if_neg (not_or.mpr ⟨plus, slash⟩), back, tail]
        simp

theorem pad_not_letter {v : List UInt8} (small : ∀ q ∈ v, q.toNat < 64) : 0x3D ∉ v.map letter := by
  intro mem
  rcases mem_map.mp mem with ⟨q, inside, same⟩
  exact letter_ne_pad (small q inside) same

theorem encode_eq (input : Bytes) (padding : Base64Padding) :
    encode input padding = .ok (convertStandardToUrl (text padding input)) := by
  unfold encode
  rw [Base64.encode_eq]
  rfl

theorem decode_encode (input : Bytes) (padding : Base64Padding) :
    decode (convertStandardToUrl (text padding input)) = .ok input := by
  have framed : ∃ v pads, Framed (text padding input) v pads ∧ input = octets v :=
    (framed_iff _ _).mpr ⟨padding, rfl⟩
  rcases framed with ⟨v, pads, ⟨tight, shape, padded⟩, bytes⟩
  have whole := tight.whole
  have converted : convertStandardToUrl (text padding input) =
      v.map (toUrl ∘ letter) ++ replicate pads 0x3D := by
    rw [shape, convertStandardToUrl_map, map_append, map_map, map_replicate]
    rfl
  unfold decode normalizeUrlInput
  rw [converted, if_neg (by rw [length_append, length_map, length_replicate]; omega),
    normalizeLoop_letters tight.small, ok_bind, nil_append]
  rcases Nat.eq_zero_or_pos pads with none | some
  · subst none
    rw [replicate_zero, append_nil, if_pos (pad_not_letter tight.small), pure_eq_ok, ok_bind, decode_iff]
    refine ⟨v, (4 - (v.map letter).length % 4) % 4, ⟨tight, rfl, ?_⟩, bytes⟩
    rw [length_map]
    have remainder : v.length % 4 = 0 ∨ v.length % 4 = 2 ∨ v.length % 4 = 3 := by omega
    rcases remainder with h | h | h <;> rw [h] <;> omega
  · rw [if_neg (not_not.mpr (mem_append_right _ (by simp; omega))),
      if_neg (by rw [length_append, length_map, length_replicate]; omega), pure_eq_ok, ok_bind, decode_iff]
    exact ⟨v, pads, ⟨tight, rfl, padded⟩, bytes⟩

theorem decode_text (t bytes : Bytes) : decode t = .ok bytes ↔ ∃ padding, encode bytes padding = .ok t := by
  constructor
  · intro h
    rcases bind_ok h with ⟨n, normalized, decoded⟩
    unfold normalizeUrlInput at normalized
    obtain ⟨alone, normalized⟩ := guard_ok normalized
    rcases bind_ok normalized with ⟨standard, looped, finished⟩
    rcases normalizeLoop_ok looped with ⟨same, clean⟩
    rw [nil_append] at same
    have back : t = convertStandardToUrl standard := by
      rw [same, convertStandardToUrl_map, map_map]
      symm
      refine (map_congr_left fun c mem => ?_).trans (map_id t)
      exact toUrl_toStandard (clean c mem).1 (clean c mem).2
    by_cases pad : 0x3D ∈ standard
    · rw [if_neg (not_not.mpr pad)] at finished
      obtain ⟨short, finished⟩ := guard_ok finished
      cases finished
      rcases (framed_iff _ _).mp ((decode_iff _ _).mp decoded) with ⟨padding, shape⟩
      exact ⟨padding, by rw [encode_eq, back, shape]⟩
    · rw [if_pos pad] at finished
      cases finished
      rcases (decode_iff _ _).mp decoded with ⟨v, pads, ⟨tight, shape, _⟩, rfl⟩
      -- the letters end where the padding starts, in both readings of the text
      have letters : standard = v.map letter := by
        have left : (standard ++ replicate ((4 - standard.length % 4) % 4) 0x3D).takeWhile
            (fun c => decide (c ≠ (0x3D : UInt8))) = standard ++ _ := takeWhile_append_of_pos (by
          intro c mem
          simpa using fun same : c = 0x3D => pad (same ▸ mem))
        have right : (v.map letter ++ replicate pads 0x3D).takeWhile
            (fun c => decide (c ≠ (0x3D : UInt8))) = v.map letter ++ _ := takeWhile_append_of_pos (by
          rw [forall_mem_map]
          intro q mem
          simpa using letter_ne_pad (tight.small q mem))
        have stop (k : Nat) : (replicate k (0x3D : UInt8)).takeWhile (fun c => decide (c ≠ (0x3D : UInt8))) = [] := by
          cases k <;> simp
        rw [stop, append_nil] at left right
        rw [← left, shape, right]
      refine ⟨.omitted, ?_⟩
      rw [encode_eq, back, letters, text, sextets_octets tight]
      simp [Base64.pad]
  · rintro ⟨padding, encoded⟩
    rw [encode_eq] at encoded
    rw [← Except.ok.inj encoded]
    exact decode_encode bytes padding

end Base64Url

namespace Base64

open Base64Url

theorem pad_mem_text (padding : Base64Padding) (bytes : Bytes) :
    0x3D ∈ text padding bytes ↔ padding = .required ∧ bytes.length % 3 ≠ 0 := by
  have letters := pad_not_letter (sextets_tight bytes).small
  unfold text
  rw [mem_append]
  cases padding with
  | required =>
    simp only [letters, false_or, pad, mem_replicate, true_and, and_true]
    omega
  | omitted => simp [letters, pad]

theorem text_form {padding padding' : Base64Padding} {bytes : Bytes}
    (form : 0x3D ∈ text padding bytes ↔ 0x3D ∈ text padding' bytes) : text padding bytes = text padding' bytes := by
  rw [pad_mem_text, pad_mem_text] at form
  cases padding with
  | required =>
    cases padding' with
    | required => rfl
    | omitted =>
      have exact' : bytes.length % 3 = 0 := by
        by_contra other
        exact absurd (form.mp ⟨rfl, other⟩).1 nofun
      simp [text, pad, exact']
  | omitted =>
    cases padding' with
    | required =>
      have exact' : bytes.length % 3 = 0 := by
        by_contra other
        exact absurd (form.mpr ⟨rfl, other⟩).1 nofun
      simp [text, pad, exact']
    | omitted => rfl

theorem pad_mem_url (t : Bytes) : 0x3D ∈ convertStandardToUrl t ↔ 0x3D ∈ t := by
  rw [convertStandardToUrl_map, mem_map]
  constructor
  · rintro ⟨c, mem, same⟩
    unfold toUrl at same
    split at same
    · cases same
    split at same
    · cases same
    · rwa [same] at mem
  · exact fun mem => ⟨0x3D, mem, rfl⟩

/-- Base64 in both alphabets: decoding inverts encoding, only encodings are accepted, one for each
    padding form, and the decoder writes exactly the bytes of its output. -/
theorem base64_exact : (∀ bytes padding, ∃ t, encode bytes padding = .ok t ∧ decode t = .ok bytes) ∧
    (∀ bytes padding, ∃ t, Base64Url.encode bytes padding = .ok t ∧ Base64Url.decode t = .ok bytes) ∧
    (∀ t bytes, decode t = .ok bytes → ∃ padding, encode bytes padding = .ok t) ∧
    (∀ t bytes, Base64Url.decode t = .ok bytes → ∃ padding, Base64Url.encode bytes padding = .ok t) ∧
    (∀ t t' bytes, decode t = .ok bytes → decode t' = .ok bytes → (0x3D ∈ t ↔ 0x3D ∈ t') → t = t') ∧
    (∀ t t' bytes, Base64Url.decode t = .ok bytes → Base64Url.decode t' = .ok bytes → (0x3D ∈ t ↔ 0x3D ∈ t') → t = t') ∧
    ∀ t output, decodeInto t output ≠ .error .outOfBounds ∧
      ∀ n, decodedLength t = .ok n → output.length = n → ∃ bytes, bytes.length = n ∧
        decodeInto t output = .ok bytes ∧ decode t = .ok bytes := by
  refine ⟨?_, ?_, ?_, ?_, ?_, ?_, ?_⟩
  · intro bytes padding
    exact ⟨_, encode_eq bytes padding, (decode_text _ _).mpr ⟨padding, encode_eq bytes padding⟩⟩
  · intro bytes padding
    exact ⟨_, Base64Url.encode_eq bytes padding, Base64Url.decode_encode bytes padding⟩
  · exact fun t bytes => (decode_text t bytes).mp
  · exact fun t bytes => (Base64Url.decode_text t bytes).mp
  · intro t t' bytes first second form
    rcases (decode_text t bytes).mp first with ⟨padding, encoded⟩
    rcases (decode_text t' bytes).mp second with ⟨padding', encoded'⟩
    rw [encode_eq] at encoded encoded'
    cases encoded
    cases encoded'
    exact text_form form
  · intro t t' bytes first second form
    rcases (Base64Url.decode_text t bytes).mp first with ⟨padding, encoded⟩
    rcases (Base64Url.decode_text t' bytes).mp second with ⟨padding', encoded'⟩
    rw [Base64Url.encode_eq] at encoded encoded'
    cases encoded
    cases encoded'
    rw [pad_mem_url, pad_mem_url] at form
    rw [text_form form]
  · intro t output
    refine ⟨decodeInto_bounds t output, ?_⟩
    rintro n length rfl
    rcases (decodedLength_iff t _).mp length with ⟨v, pads, framed, same⟩
    exact ⟨octets v, same.symm, decodeInto_framed framed same, (decode_iff t _).mpr ⟨v, pads, framed, rfl⟩⟩

end Base64

end NginBase.Crypto
