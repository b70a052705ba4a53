import NginBase.Crypto.Certificate
import NginBase.Crypto.KeyFormatLaws

namespace NginBase.Crypto.Certificates

open Library Der Keys List

section

def elementsLoop : Nat → Bytes → List DerElement
  | 0, _ => []
  | fuel + 1, bytes =>
    match readElement { rest := bytes } with
    | .ok (element, reader) => element :: elementsLoop fuel reader.rest
    | .error _ => []

def elements (bytes : Bytes) : List DerElement := elementsLoop bytes.length bytes

def children (element : DerElement) : List DerElement := elements element.value

variable {depth : Nat} {element : DerElement} {reader : DerReader} {rest : Bytes}

theorem readElement_depth {options : DerReadOptions} (depth' : Nat)
    (h : readElement ⟨rest, options, depth⟩ = .ok (element, reader)) :
    readElement ⟨rest, options, depth'⟩ = .ok (element, ⟨reader.rest, options, depth'⟩) := by
  unfold readElement at h ⊢
  cases rest with
  | nil => cases h
  | cons identifier rest =>
    dsimp only at h ⊢
    rcases bind_ok h with ⟨⟨number, rest₁⟩, tagged, h⟩
    rcases bind_ok h with ⟨⟨length, rest₂⟩, sized, h⟩
    rw [tagged, ok_bind]
    rw [sized, ok_bind]
    split at h
    · cases h
    rename_i good
    rw [if_neg good]
    cases h
    rfl

theorem readElement_reader {options : DerReadOptions} (h : readElement ⟨rest, options, depth⟩ = .ok (element, reader)) :
    reader = ⟨reader.rest, options, depth⟩ := by
  have again := readElement_depth depth h
  rw [h] at again
  exact congrArg Prod.snd (Except.ok.inj again)

theorem readElement_shorter {reader' : DerReader} (h : readElement reader = .ok (element, reader')) :
    reader'.rest.length < reader.rest.length := by
  obtain ⟨written, shape, _⟩ := readElement_sound h
  have some := length_pos_iff.mpr (encoded_ne_nil written)
  rw [shape, length_append]
  omega

theorem elementsLoop_enough {fuel : Nat} {bytes : Bytes} (enough : bytes.length ≤ fuel) : elementsLoop fuel bytes = elements bytes := by
  have agree (fuel fuel' : Nat) : ∀ bytes : Bytes, bytes.length ≤ fuel → bytes.length ≤ fuel' → elementsLoop fuel bytes = elementsLoop fuel' bytes := by
    induction fuel generalizing fuel' with
    | zero =>
      intro bytes small _
      rw [length_eq_zero_iff.mp (Nat.le_zero.mp small)]
      cases fuel' <;> rfl
    | succ fuel ih =>
      intro bytes small small'
      cases fuel' with
      | zero =>
        rw [length_eq_zero_iff.mp (Nat.le_zero.mp small')]
        rfl
      | succ fuel' =>
        unfold elementsLoop
        cases read : readElement { rest := bytes } with
        | error failure => rfl
        | ok pair =>
          obtain ⟨element, reader⟩ := pair
          have shorter := readElement_shorter read
          dsimp only at shorter ⊢
          rw [ih fuel' reader.rest (by omega) (by omega)]
  exact agree fuel bytes.length bytes enough (Nat.le_refl _)

theorem elements_cons (h : readElement ⟨rest, {}, depth⟩ = .ok (element, reader)) :
    elements rest = element :: elements reader.rest := by
  have read := readElement_depth 0 h
  have shorter := readElement_shorter read
  dsimp only at shorter
  rw [← elementsLoop_enough (Nat.le_succ rest.length), elementsLoop, read]
  dsimp only
  rw [elementsLoop_enough (by omega)]

theorem elements_end (h : isAtEnd reader = true) : elements reader.rest = [] := by
  have done : reader.rest = [] := by simpa [isAtEnd] using h
  rw [done]
  rfl

theorem forElements_elements {σ : Type} {step : σ → DerElement → CryptoExpected σ} {s s' : σ}
    (h : forElements step ⟨rest, {}, depth⟩ s = .ok s') : (elements rest).foldlM step s = .ok s' := by
  have all (fuel : Nat) : ∀ (rest : Bytes) (s : σ), rest.length ≤ fuel → eachElement step fuel ⟨rest, {}, depth⟩ s = .ok s' →
      (elements rest).foldlM step s = .ok s' := by
    induction fuel with
    | zero =>
      intro rest s small h
      rw [length_eq_zero_iff.mp (Nat.le_zero.mp small)]
      exact h
    | succ fuel ih =>
      intro rest s small h
      unfold eachElement at h
      split at h
      · rename_i done
        rw [elements_end done]
        exact h
      · rcases bind_ok h with ⟨⟨element, reader⟩, read, h⟩
        rcases bind_ok h with ⟨s₁, stepped, h⟩
        have shorter := readElement_shorter read
        rw [readElement_reader read] at h
        dsimp only at shorter
        rw [elements_cons read, foldlM_cons, stepped]
        exact ih reader.rest s₁ (by omega) h
  exact all rest.length rest s (Nat.le_refl _) h

theorem openChildren_reader {tag : DerTag} (h : openChildren tag element = .ok reader) :
    element.tag = tag ∧ reader = ⟨element.value, {}, 1⟩ := by
  unfold openChildren at h
  split at h
  · cases h
  rename_i same
  unfold enterConstructed at h
  split at h
  · cases h
  cases h
  exact ⟨not_not.mp same, rfl⟩

end

def extension (extensionElement : DerElement) : Option (List UInt32 × Bytes) := do
  let oidElement ← (children extensionElement).head?
  let value ← (children extensionElement).getLast?
  let oid ← (readObjectIdentifier oidElement).toOption
  return (oid, value.value)

def extensionsOf (field : DerElement) : List (List UInt32 × Bytes) := ((children field).flatMap children).filterMap extension

def extensionFields (der : Bytes) : List DerElement :=
  match (elements der).flatMap children with
  | [] => []
  | tbs :: _ =>
    let mandatory := if (children tbs).head?.any fun first => first.tag = contextTag true 0 then 7 else 6
    ((children tbs).drop mandatory).filter fun field => field.tag = contextTag true 3

def extensionsIn (der : Bytes) : List (List (List UInt32 × Bytes)) := (extensionFields der).map extensionsOf

def valuesOf (known : KnownExtension) (extensions : List (List UInt32 × Bytes)) : List Bytes :=
  (extensions.filter fun extension => extension.1 = known.oid).map Prod.snd

theorem readExtension_extension {element : DerElement} {read : List UInt32 × Bytes} (h : readExtension element = .ok read) :
    extension element = some read := by
  rcases bind_ok h with ⟨reader, opened, h⟩
  obtain ⟨_, rfl⟩ := openChildren_reader opened
  rcases bind_ok h with ⟨⟨oidElement, reader₁⟩, first, h⟩
  rcases bind_ok h with ⟨oid, identified, h⟩
  rcases bind_ok h with ⟨⟨next, reader₂⟩, second, h⟩
  rcases bind_ok h with ⟨⟨last, reader₃⟩, third, h⟩
  rcases bind_ok h with ⟨value, octets, h⟩
  have done : isAtEnd reader₃ = true ∧ (oid, value) = read := by
    split at h
    · cases h
    rename_i done
    cases h
    exact ⟨by simpa using done, rfl⟩
  have lastValue : last.value = value := by
    unfold readOctetString at octets
    split at octets
    · cases octets
    · exact Except.ok.inj octets
  rw [readElement_reader first] at second
  have tail : (elements reader₁.rest).getLast? = some last := by
    dsimp only [skipCritical] at third
    split at third
    · split at third
      · cases third
      · rw [readElement_reader second] at third
        rw [elements_cons second, elements_cons third, elements_end done.1]
        rfl
    · cases third
      rw [elements_cons second, elements_end done.1]
      rfl
  have whole : children element = oidElement :: elements reader₁.rest := elements_cons first
  have last' : (children element).getLast? = some last := by
    rw [whole, getLast?_cons, tail]
    rfl
  unfold extension
  rw [last', whole, ← done.2, ← lastValue]
  show (do let oid ← (readObjectIdentifier oidElement).toOption; pure (oid, last.value)) = _
  rw [identified]
  rfl

section

theorem identifyExtension_iff {oid : List UInt32} {known : KnownExtension} : identifyExtension oid = some known ↔ oid = known.oid := by
  constructor
  · intro h
    exact of_decide_eq_true (find?_some (p := fun known : KnownExtension => decide (oid = known.oid)) h)
  · rintro rfl
    cases known <;> rfl

def knownOf (extensions : List (List UInt32 × Bytes)) : List KnownExtension := extensions.flatMap fun extension => (identifyExtension extension.1).toList

def applied (certificate : Certificate) (extension : List UInt32 × Bytes) : CryptoExpected Certificate :=
  match identifyExtension extension.1 with
  | none => .ok certificate
  | some known => applyExtension certificate extension.2 known

variable {certificate certificate' : Certificate}

theorem takeExtension_ok {saw saw' : List KnownExtension} {extension : List UInt32 × Bytes}
    (h : takeExtension (saw, certificate) extension = .ok (saw', certificate')) :
    saw' = (identifyExtension extension.1).toList ++ saw ∧ (saw.Nodup → saw'.Nodup) ∧ applied certificate extension = .ok certificate' := by
  unfold takeExtension at h
  unfold applied
  cases known : identifyExtension extension.1 with
  | none =>
    rw [known] at h
    cases h
    exact ⟨rfl, id, rfl⟩
  | some known' =>
    rw [known] at h
    dsimp only at h
    split at h
    · cases h
    rename_i fresh
    rcases bind_ok h with ⟨next, stepped, h⟩
    cases h
    exact ⟨rfl, fun distinct => nodup_cons.mpr ⟨fresh, distinct⟩, stepped⟩

theorem takeExtensions_ok {extensions : List (List UInt32 × Bytes)} {saw saw' : List KnownExtension}
    (h : extensions.foldlM takeExtension (saw, certificate) = .ok (saw', certificate')) :
    saw' = (knownOf extensions).reverse ++ saw ∧ (saw.Nodup → saw'.Nodup) ∧ extensions.foldlM applied certificate = .ok certificate' := by
  induction extensions generalizing saw certificate with
  | nil =>
    cases h
    exact ⟨rfl, id, rfl⟩
  | cons extension extensions ih =>
    rcases bind_ok h with ⟨⟨saw₁, certificate₁⟩, taken, h⟩
    obtain ⟨rfl, distinct, step⟩ := takeExtension_ok taken
    obtain ⟨rfl, distinct', steps⟩ := ih h
    have short (known : Option KnownExtension) : known.toList.reverse = known.toList := by cases known <;> rfl
    have parts : knownOf (extension :: extensions) = (identifyExtension extension.1).toList ++ knownOf extensions := flatMap_cons
    rw [parts, reverse_append, short, append_assoc, foldlM_cons, step]
    exact ⟨rfl, fun start => distinct' (distinct start), steps⟩

theorem parseExtensions_ok {field : DerElement} (h : parseExtensions field certificate = .ok certificate') :
    (knownOf (extensionsOf field)).Nodup ∧ (extensionsOf field).foldlM applied certificate = .ok certificate' := by
  rcases bind_ok h with ⟨reader, opened, h⟩
  obtain ⟨_, rfl⟩ := openChildren_reader opened
  rcases bind_ok h with ⟨⟨extensionsElement, reader₁⟩, first, h⟩
  dsimp only at h
  split at h
  · cases h
  rename_i done
  rcases bind_ok h with ⟨reader₂, opened', h⟩
  obtain ⟨_, rfl⟩ := openChildren_reader opened'
  rcases bind_ok h with ⟨⟨saw, certificate₁⟩, looped, h⟩
  cases h
  have steps := forElements_elements looped
  have only : (children field).flatMap children = elements extensionsElement.value := by
    rw [children, elements_cons first, elements_end (by simpa using done), flatMap_singleton]
    rfl
  have read (es : List DerElement) : ∀ s s', es.foldlM (fun s extensionElement => do
        let extension ← readExtension extensionElement
        takeExtension s extension) s = .ok s' → (es.filterMap extension).foldlM takeExtension s = .ok s' := by
    induction es with
    | nil => exact fun s s' h => h
    | cons e es ih =>
      intro s s' h
      rcases bind_ok h with ⟨s₁, stepped, h⟩
      rcases bind_ok stepped with ⟨x, read, taken⟩
      rw [filterMap_cons_some (readExtension_extension read), foldlM_cons, taken]
      exact ih s₁ s' h
  obtain ⟨shape, distinct, applied⟩ := takeExtensions_ok (read _ _ _ steps)
  rw [append_nil] at shape
  rw [extensionsOf, only]
  exact ⟨nodup_reverse.mp (shape ▸ distinct nodup_nil), applied⟩

end

def Bare (certificate : Certificate) : Prop :=
  certificate.subjectAltNames = {} ∧ certificate.hasSubjectAltNames = false ∧ certificate.keyUsage = {} ∧ certificate.hasKeyUsage = false ∧
    certificate.basicConstraints = {} ∧ certificate.hasBasicConstraints = false ∧ certificate.extendedKeyUsages = []

theorem parseVersionAndSerial_rest {rest : Bytes} {version : UInt32} {serial : Bytes} {reader : DerReader}
    (h : parseVersionAndSerial ⟨rest, {}, 1⟩ = .ok (version, serial, reader)) :
    ∃ before, reader = ⟨reader.rest, {}, 1⟩ ∧ elements rest = before ++ elements reader.rest ∧
      before.length = if (elements rest).head?.any fun first => first.tag = contextTag true 0 then 2 else 1 := by
  rcases bind_ok h with ⟨⟨first, reader₁⟩, read, h⟩
  dsimp only at h
  have whole := elements_cons read
  split at h
  · rename_i wrapped
    rcases bind_ok h with ⟨versionReader, _, h⟩
    rcases bind_ok h with ⟨⟨versionElement, versionReader⟩, _, h⟩
    split at h
    · cases h
    rcases bind_ok h with ⟨value, _, h⟩
    split at h
    · split at h
      · cases h
      · rcases bind_ok h with ⟨⟨serialElement, reader₂⟩, read', h⟩
        rcases bind_ok h with ⟨serial', _, h⟩
        cases h
        rw [readElement_reader read] at read'
        refine ⟨[first, serialElement], readElement_reader read', ?_, ?_⟩
        · rw [whole, elements_cons read']
          rfl
        · rw [whole, head?_cons, Option.any_some, wrapped]
          rfl
    · cases h
  · rename_i bare
    rcases bind_ok h with ⟨serial', _, h⟩
    cases h
    refine ⟨[first], readElement_reader read, whole, ?_⟩
    rw [whole, head?_cons, Option.any_some, decide_eq_false bare]
    rfl

theorem readName_ok {rest : Bytes} {name : DerElement} {reader : DerReader} (h : readName ⟨rest, {}, 1⟩ = .ok (name, reader)) :
    readElement ⟨rest, {}, 1⟩ = .ok (name, reader) := by
  rcases bind_ok h with ⟨⟨name', reader'⟩, read, h⟩
  dsimp only at h
  split at h
  · cases h
  cases h
  exact read

theorem parseMandatoryFields_ok {rest : Bytes} {certificate : Certificate} {reader : DerReader}
    (h : parseMandatoryFields ⟨rest, {}, 1⟩ = .ok (certificate, reader)) :
    Bare certificate ∧ ∃ before, reader = ⟨reader.rest, {}, 1⟩ ∧ elements rest = before ++ elements reader.rest ∧
      before.length = if (elements rest).head?.any fun first => first.tag = contextTag true 0 then 7 else 6 := by
  rcases bind_ok h with ⟨⟨version, serial, reader₁⟩, versioned, h⟩
  obtain ⟨before, same, whole, count⟩ := parseVersionAndSerial_rest versioned
  rw [same] at h
  rcases bind_ok h with ⟨⟨signature, reader₂⟩, read₂, h⟩
  rw [readElement_reader read₂] at h
  rcases bind_ok h with ⟨⟨issuer, reader₃⟩, read₃, h⟩
  rw [readElement_reader (readName_ok read₃)] at h
  rcases bind_ok h with ⟨⟨validityElement, reader₄⟩, read₄, h⟩
  rw [readElement_reader read₄] at h
  rcases bind_ok h with ⟨validity, _, h⟩
  rcases bind_ok h with ⟨⟨subject, reader₅⟩, read₅, h⟩
  rw [readElement_reader (readName_ok read₅)] at h
  rcases bind_ok h with ⟨⟨spki, reader₆⟩, read₆, h⟩
  rcases bind_ok h with ⟨info, _, h⟩
  cases h
  refine ⟨⟨rfl, rfl, rfl, rfl, rfl, rfl, rfl⟩, before ++ [signature, issuer, validityElement, subject, spki], readElement_reader read₆, ?_, ?_⟩
  · rw [whole, elements_cons read₂, elements_cons (readName_ok read₃), elements_cons read₄, elements_cons (readName_ok read₅), elements_cons read₆,
      append_assoc]
    rfl
  · rw [length_append, count]
    split <;> rfl

theorem parseX509Certificate_extensions {der : Bytes} {certificate : Certificate} (h : parseX509Certificate der = .ok certificate) :
    (∀ extensions ∈ extensionsIn der, (knownOf extensions).Nodup) ∧
      ∃ start, Bare start ∧ (extensionsIn der).flatten.foldlM applied start = .ok certificate := by
  rcases bind_ok h with ⟨certificateElement, single, h⟩
  rcases bind_ok h with ⟨sequence, opened, h⟩
  obtain ⟨_, rfl⟩ := openChildren_reader opened
  rcases bind_ok h with ⟨⟨tbs, reader₁⟩, read₁, h⟩
  rcases bind_ok h with ⟨⟨signatureAlgorithmElement, reader₂⟩, read₂, h⟩
  rcases bind_ok h with ⟨⟨signatureValueElement, reader₃⟩, read₃, h⟩
  dsimp only at h
  split at h
  · cases h
  rcases bind_ok h with ⟨algorithm, _, h⟩
  rcases bind_ok h with ⟨signatureValue, _, h⟩
  split at h
  · cases h
  rcases bind_ok h with ⟨tbsReader, opened', h⟩
  obtain ⟨_, rfl⟩ := openChildren_reader opened'
  rcases bind_ok h with ⟨⟨start, reader₄⟩, mandatory, h⟩
  obtain ⟨bare, before, same, whole, count⟩ := parseMandatoryFields_ok mandatory
  rw [same] at h
  have steps := forElements_elements h
  have top : elements der = [certificateElement] := by
    rcases bind_ok single with ⟨⟨element, reader⟩, read, single⟩
    dsimp only at single
    split at single
    · cases single
    rename_i done
    cases single
    rw [elements_cons read, elements_end (by simpa using done)]
  have fields : extensionFields der = (elements reader₄.rest).filter fun field => field.tag = contextTag true 3 := by
    unfold extensionFields
    rw [top, flatMap_singleton, children, elements_cons read₁]
    dsimp only
    rw [children, ← count, whole, drop_left]
  have run (es : List DerElement) : ∀ certificate₀, es.foldlM parseOptionalField certificate₀ = .ok certificate →
      (∀ field ∈ es.filter (fun field => field.tag = contextTag true 3), (knownOf (extensionsOf field)).Nodup) ∧
        ((es.filter fun field => field.tag = contextTag true 3).map extensionsOf).flatten.foldlM applied certificate₀ = .ok certificate := by
    induction es with
    | nil => exact fun certificate₀ h => ⟨by simp, h⟩
    | cons e es ih =>
      intro certificate₀ h
      rcases bind_ok h with ⟨certificate₁, stepped, h⟩
      obtain ⟨distinct, later⟩ := ih certificate₁ h
      unfold parseOptionalField at stepped
      split at stepped
      · rename_i tagged
        obtain ⟨distinct', now⟩ := parseExtensions_ok stepped
        rw [filter_cons_of_pos (by simpa using tagged), map_cons, flatten_cons, foldlM_append, now]
        exact ⟨forall_mem_cons.mpr ⟨distinct', distinct⟩, later⟩
      · rename_i other
        rw [filter_cons_of_neg (by simpa using other)]
        split at stepped
        · cases stepped
        cases stepped
        exact ⟨distinct, later⟩
  obtain ⟨distinct, later⟩ := run _ _ steps
  rw [extensionsIn, fields]
  refine ⟨forall_mem_map.mpr distinct, _, ?_, later⟩
  exact bare

inductive FromSingle {α : Type} (parse : Bytes → CryptoExpected α) (initial : α) : List Bytes → Bool → α → Prop
  | absent : FromSingle parse initial [] false initial
  | single {value : Bytes} {result : α} : parse value = .ok result → FromSingle parse initial [value] true result

theorem valuesOf_cons (known : KnownExtension) (extension : List UInt32 × Bytes) (extensions : List (List UInt32 × Bytes)) :
    valuesOf known (extension :: extensions) = (if extension.1 = known.oid then [extension.2] else []) ++ valuesOf known extensions := by
  unfold valuesOf
  split
  · rename_i same
    rw [filter_cons_of_pos (by simpa using same)]
    rfl
  · rename_i other
    rw [filter_cons_of_neg (by simpa using other)]
    rfl

section

variable {α : Type} {known : KnownExtension} {has : Certificate → Bool} {get : Certificate → α} {parse : Bytes → CryptoExpected α} {initial : α}
  (others : ∀ certificate certificate' value known', known' ≠ known → applyExtension certificate value known' = .ok certificate' →
    has certificate' = has certificate ∧ get certificate' = get certificate)

include others in
theorem applied_other {certificate certificate' : Certificate} {extension : List UInt32 × Bytes} (other : extension.1 ≠ known.oid)
    (h : applied certificate extension = .ok certificate') : has certificate' = has certificate ∧ get certificate' = get certificate := by
  unfold applied at h
  cases identified : identifyExtension extension.1 with
  | none =>
    rw [identified] at h
    cases h
    exact ⟨rfl, rfl⟩
  | some known' =>
    rw [identified] at h
    apply others certificate certificate' extension.2 known' _ h
    rintro rfl
    exact other (identifyExtension_iff.mp identified)

include others in
theorem applied_none {extensions : List (List UInt32 × Bytes)} {certificate certificate' : Certificate} (none : valuesOf known extensions = [])
    (h : extensions.foldlM applied certificate = .ok certificate') : has certificate' = has certificate ∧ get certificate' = get certificate := by
  induction extensions generalizing certificate with
  | nil =>
    cases h
    exact ⟨rfl, rfl⟩
  | cons extension extensions ih =>
    rw [valuesOf_cons, append_eq_nil_iff] at none
    rcases bind_ok h with ⟨certificate₁, stepped, h⟩
    have other : extension.1 ≠ known.oid := by
      intro same
      rw [if_pos same] at none
      cases none.1
    obtain ⟨has', get'⟩ := ih none.2 h
    obtain ⟨has₁, get₁⟩ := applied_other others other stepped
    exact ⟨has'.trans has₁, get'.trans get₁⟩

include others in
theorem applied_single (own : ∀ certificate certificate' value, has certificate = false → get certificate = initial →
      applyExtension certificate value known = .ok certificate' → has certificate' = true ∧ parse value = .ok (get certificate'))
    {extensions : List (List UInt32 × Bytes)} {certificate certificate' : Certificate} (once : (valuesOf known extensions).length ≤ 1)
    (start : has certificate = false) (start' : get certificate = initial) (h : extensions.foldlM applied certificate = .ok certificate') :
    FromSingle parse initial (valuesOf known extensions) (has certificate') (get certificate') := by
  induction extensions generalizing certificate with
  | nil =>
    cases h
    rw [start, start']
    exact .absent
  | cons extension extensions ih =>
    rw [valuesOf_cons] at once ⊢
    rcases bind_ok h with ⟨certificate₁, stepped, h⟩
    split
    · rename_i same
      rw [if_pos same, singleton_append, length_cons] at once
      have rest : valuesOf known extensions = [] := length_eq_zero_iff.mp (by omega)
      rw [applied, same, identifyExtension_iff.mpr rfl] at stepped
      obtain ⟨has₁, parsed⟩ := own _ _ _ start start' stepped
      obtain ⟨has', get'⟩ := applied_none others rest h
      rw [rest, has', has₁, get']
      exact .single parsed
    · rename_i other
      rw [if_neg other] at once
      obtain ⟨has₁, get₁⟩ := applied_other others other stepped
      exact ih once (has₁.trans start) (get₁.trans start') h

end

/-- Every known extension is in one place, and the fields are those of that one. -/
structure TakenOnce (der : Bytes) (certificate : Certificate) : Prop where
  once : ∀ known, (valuesOf known (extensionsIn der).flatten).length ≤ 1
  subjectAltNames : FromSingle (fun value => parseSubjectAltNameExtension value {}) {} (valuesOf .subjectAltName (extensionsIn der).flatten)
    certificate.hasSubjectAltNames certificate.subjectAltNames
  keyUsage : FromSingle parseKeyUsageExtension {} (valuesOf .keyUsage (extensionsIn der).flatten) certificate.hasKeyUsage certificate.keyUsage
  basicConstraints : FromSingle parseBasicConstraintsExtension {} (valuesOf .basicConstraints (extensionsIn der).flatten)
    certificate.hasBasicConstraints certificate.basicConstraints
  extendedKeyUsages : FromSingle (fun value => parseExtendedKeyUsageExtension value []) [] (valuesOf .extendedKeyUsage (extensionsIn der).flatten)
    (certificate.extendedKeyUsages ≠ []) certificate.extendedKeyUsages

def FieldsApart (der : Bytes) : Prop := ∀ known : KnownExtension, ((extensionsIn der).filter fun extensions => known ∈ knownOf extensions).length ≤ 1

theorem knownOf_count (known : KnownExtension) (extensions : List (List UInt32 × Bytes)) :
    (knownOf extensions).count known = (valuesOf known extensions).length := by
  induction extensions with
  | nil => rfl
  | cons extension extensions ih =>
    have parts : knownOf (extension :: extensions) = (identifyExtension extension.1).toList ++ knownOf extensions := flatMap_cons
    rw [parts, valuesOf_cons, count_append, length_append]
    congr 1
    by_cases same : extension.1 = known.oid
    · rw [if_pos same, identifyExtension_iff.mpr same]
      simp
    rw [if_neg same]
    apply count_eq_zero.mpr
    intro mem
    rw [Option.mem_toList] at mem
    exact same (identifyExtension_iff.mp mem)

theorem values_fields {fields : List (List (List UInt32 × Bytes))} (distinct : ∀ extensions ∈ fields, (knownOf extensions).Nodup)
    (known : KnownExtension) : (valuesOf known fields.flatten).length = (fields.filter fun extensions => known ∈ knownOf extensions).length := by
  induction fields with
  | nil => rfl
  | cons extensions fields ih =>
    obtain ⟨head, tail⟩ := forall_mem_cons.mp distinct
    have parts : valuesOf known (extensions ++ fields.flatten) = valuesOf known extensions ++ valuesOf known fields.flatten := by
      rw [valuesOf, filter_append, map_append]
      rfl
    rw [flatten_cons, parts, length_append, ih tail, ← knownOf_count]
    by_cases mem : known ∈ knownOf extensions
    · rw [count_eq_one_of_mem head mem, filter_cons_of_pos (by simpa using mem), length_cons, Nat.add_comm]
    · rw [count_eq_zero.mpr mem, filter_cons_of_neg (by simpa using mem), Nat.zero_add]

theorem applyExtension_others {certificate certificate' : Certificate} {value : Bytes} {known : KnownExtension}
    (h : applyExtension certificate value known = .ok certificate') :
    (known ≠ .subjectAltName → certificate'.hasSubjectAltNames = certificate.hasSubjectAltNames ∧
        certificate'.subjectAltNames = certificate.subjectAltNames) ∧
      (known ≠ .keyUsage → certificate'.hasKeyUsage = certificate.hasKeyUsage ∧ certificate'.keyUsage = certificate.keyUsage) ∧
      (known ≠ .basicConstraints → certificate'.hasBasicConstraints = certificate.hasBasicConstraints ∧
        certificate'.basicConstraints = certificate.basicConstraints) ∧
      (known ≠ .extendedKeyUsage → certificate'.extendedKeyUsages = certificate.extendedKeyUsages) := by
  cases known <;>
    · rcases bind_ok h with ⟨_, _, h⟩
      cases h
      simp

theorem parseExtendedKeyUsageExtension_some {value : Bytes} {usages usages' : List (List UInt32)}
    (h : parseExtendedKeyUsageExtension value usages = .ok usages') : usages' ≠ [] := by
  rcases bind_ok h with ⟨_, _, h⟩
  rcases bind_ok h with ⟨_, _, h⟩
  split at h
  · cases h
  rename_i some
  cases h
  exact some

/-- A certificate that is accepted takes every extension from one place if and only if its explicit fields do not share one. -/
theorem extensions_taken_once {der : Bytes} {certificate : Certificate} (h : parseX509Certificate der = .ok certificate) :
    TakenOnce der certificate ↔ FieldsApart der := by
  obtain ⟨distinct, start, ⟨names, hasNames, usage, hasUsage, constraints, hasConstraints, extended⟩, steps⟩ := parseX509Certificate_extensions h
  constructor
  · intro taken known
    rw [← values_fields distinct]
    exact taken.once known
  · intro apart
    have once (known : KnownExtension) : (valuesOf known (extensionsIn der).flatten).length ≤ 1 := by
      rw [values_fields distinct]
      exact apart known
    constructor
    · exact once
    · apply applied_single (fun c c' v k other taken => (applyExtension_others taken).1 other) _ (once _) hasNames names steps
      intro c c' v _ same taken
      rcases bind_ok taken with ⟨result, parsed, taken⟩
      cases taken
      rw [same] at parsed
      exact ⟨rfl, parsed⟩
    · apply applied_single (fun c c' v k other taken => (applyExtension_others taken).2.1 other) _ (once _) hasUsage usage steps
      intro c c' v _ _ taken
      rcases bind_ok taken with ⟨result, parsed, taken⟩
      cases taken
      exact ⟨rfl, parsed⟩
    · apply applied_single (fun c c' v k other taken => (applyExtension_others taken).2.2.1 other) _ (once _) hasConstraints constraints steps
      intro c c' v _ _ taken
      rcases bind_ok taken with ⟨result, parsed, taken⟩
      cases taken
      exact ⟨rfl, parsed⟩
    · apply applied_single _ _ (once .extendedKeyUsage) (by simp [extended]) extended steps
      · intro c c' v k other taken
        have same := (applyExtension_others taken).2.2.2 other
        rw [same]
        exact ⟨rfl, rfl⟩
      · intro c c' v _ same taken
        rcases bind_ok taken with ⟨result, parsed, taken⟩
        cases taken
        rw [same] at parsed
        exact ⟨decide_eq_true (parseExtendedKeyUsageExtension_some parsed), parsed⟩

def repeatedFields : Bytes :=
  [0x30, 0x48, 0x30, 0x3C, 0x02, 0x01, 0x01, 0x30, 0x00, 0x30, 0x00, 0x30, 0x04, 0x17, 0x00, 0x17, 0x00, 0x30, 0x00,
    0x30, 0x0A, 0x30, 0x05, 0x06, 0x03, 0x2B, 0x65, 0x70, 0x03, 0x01, 0x00,
    0xA3, 0x10, 0x30, 0x0E, 0x30, 0x0C, 0x06, 0x03, 0x55, 0x1D, 0x13, 0x04, 0x05, 0x30, 0x03, 0x01, 0x01, 0xFF,
    0xA3, 0x0D, 0x30, 0x0B, 0x30, 0x09, 0x06, 0x03, 0x55, 0x1D, 0x13, 0x04, 0x02, 0x30, 0x00,
    0x30, 0x05, 0x06, 0x03, 0x2B, 0x65, 0x70, 0x03, 0x01, 0x00]

def apartFields : Bytes :=
  [0x30, 0x4A, 0x30, 0x3E, 0x02, 0x01, 0x01, 0x30, 0x00, 0x30, 0x00, 0x30, 0x04, 0x17, 0x00, 0x17, 0x00, 0x30, 0x00,
    0x30, 0x0A, 0x30, 0x05, 0x06, 0x03, 0x2B, 0x65, 0x70, 0x03, 0x01, 0x00,
    0xA3, 0x10, 0x30, 0x0E, 0x30, 0x0C, 0x06, 0x03, 0x55, 0x1D, 0x13, 0x04, 0x05, 0x30, 0x03, 0x01, 0x01, 0xFF,
    0xA3, 0x0F, 0x30, 0x0D, 0x30, 0x0B, 0x06, 0x03, 0x55, 0x1D, 0x0F, 0x04, 0x04, 0x03, 0x02, 0x05, 0xA0,
    0x30, 0x05, 0x06, 0x03, 0x2B, 0x65, 0x70, 0x03, 0x01, 0x00]

def authority (der : Bytes) : Option Bool :=
  match parseX509Certificate der with
  | .ok certificate => some certificate.basicConstraints.certificateAuthority
  | .error _ => none

theorem authority_some {der : Bytes} {flag : Bool} (h : authority der = some flag) :
    ∃ certificate, parseX509Certificate der = .ok certificate ∧ certificate.basicConstraints.certificateAuthority = flag := by
  unfold authority at h
  cases parsed : parseX509Certificate der with
  | error failure =>
    rw [parsed] at h
    cases h
  | ok certificate =>
    rw [parsed] at h
    exact ⟨certificate, rfl, Option.some.inj h⟩

theorem extensions_taken_once_apart : ∃ certificate, parseX509Certificate apartFields = .ok certificate ∧ TakenOnce apartFields certificate := by
  have accepted : authority apartFields = some true := by decide +kernel
  obtain ⟨certificate, parsed, _⟩ := authority_some accepted
  have apart : FieldsApart apartFields := by
    intro known
    cases known <;> decide +kernel
  exact ⟨certificate, parsed, (extensions_taken_once parsed).mpr apart⟩

theorem extension_taken_twice : ¬ ∀ der certificate, parseX509Certificate der = .ok certificate → TakenOnce der certificate := by
  intro claim
  have accepted : authority repeatedFields = some false := by decide +kernel
  obtain ⟨certificate, parsed, _⟩ := authority_some accepted
  have once := (claim _ _ parsed).once .basicConstraints
  have twice : (valuesOf .basicConstraints (extensionsIn repeatedFields).flatten).length = 2 := by decide +kernel
  omega

end NginBase.Crypto.Certificates
