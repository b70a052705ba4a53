import NginBase.Net.AddressRoundTrip

namespace NginBase.Net

open Library CharConv IpAddress List

structure Endpoint where
  address : IpAddress
  port : UInt16
  scopeId : UInt32
  deriving DecidableEq

def parsePort (text : Bytes) (offset : Nat) : AddressExpected UInt16 :=
  if text = [] then .error ⟨.missingPort, offset⟩
  else
    let parsed := fromChars 10 unsignedLimit text
    if parsed.ec = .invalidArgument ∨ parsed.used ≠ text.length then .error ⟨.invalidCharacter, offset + parsed.used⟩
    else if parsed.ec = .resultOutOfRange ∨ 65535 < parsed.value then .error ⟨.portOutOfRange, offset⟩
    else .ok (.ofNat parsed.value)

def parseScope (text : Bytes) (offset : Nat) : AddressExpected UInt32 :=
  if text = [] then .error ⟨.invalidScope, offset⟩
  else
    let parsed := fromChars 10 unsignedLimit text
    if parsed.ec ≠ .none ∨ parsed.used ≠ text.length then .error ⟨.invalidScope, offset + parsed.used⟩
    else .ok (.ofNat parsed.value)

def rfind (b : UInt8) (text : Bytes) : Option Nat := (text.reverse.idxOf? b).map (text.length - 1 - ·)

structure EndpointParts where
  addressText : Bytes
  portText : Bytes
  scopeId : UInt32
  portOffset : Nat

def bracketedParts (text : Bytes) : AddressExpected EndpointParts :=
  match text.idxOf? 0x5D with
  | none => .error ⟨.invalidFormat, text.length⟩
  | some close =>
    if text[close + 1]? ≠ some 0x3A then .error ⟨.invalidFormat, close + 1⟩
    else
      let addressText := (text.drop 1).take (close - 1)
      let portText := text.drop (close + 2)
      match addressText.idxOf? 0x25 with
      | none => .ok ⟨addressText, portText, 0, close + 2⟩
      | some percent =>
        (parseScope (addressText.drop (percent + 1)) (percent + 2)).map fun scopeId =>
          ⟨addressText.take percent, portText, scopeId, close + 2⟩

def plainParts (text : Bytes) : AddressExpected EndpointParts :=
  match rfind 0x3A text with
  | none => .error ⟨.missingPort, text.length⟩
  | some separator =>
    if text.idxOf? 0x3A ≠ some separator then .error ⟨.invalidFormat, separator⟩
    else .ok ⟨text.take separator, text.drop (separator + 1), 0, separator + 1⟩

def Endpoint.parse (text : Bytes) : AddressExpected Endpoint :=
  if text = [] then .error ⟨.empty, 0⟩
  else do
    let bracketed : Bool := text.head? = some 0x5B
    let parts ← if bracketed then bracketedParts text else plainParts text
    match IpAddress.parse parts.addressText with
    | .error error => .error (if bracketed then { error with offset := error.offset + 1 } else error)
    | .ok address =>
      if (bracketed && !address.isV6) || (parts.scopeId ≠ 0 && !address.isV6) then .error ⟨.invalidScope, 1⟩
      else
        (parsePort parts.portText parts.portOffset).map fun port =>
          { address := address, port := port, scopeId := parts.scopeId }

def scopeText (scopeId : UInt32) : Bytes := if scopeId ≠ 0 then 0x25 :: toChars 10 scopeId.toNat else []

namespace Endpoint

variable (e : Endpoint)

def buffer : Nat := 96

/-- What `TryFormat` writes into its own buffer of `buffer` characters. -/
def output : Option Bytes :=
  let open_ : Bytes := if e.address.isV6 then [0x5B] else []
  let close : Bytes := if e.address.isV6 then scopeText e.scopeId ++ [0x5D] else []
  (e.address.tryFormat (buffer - open_.length)).map fun text => open_ ++ text ++ close ++ 0x3A :: toChars 10 e.port.toNat

def tryFormat (destination : Nat) : Option Bytes := e.output.filter fun text => text.length ≤ destination

def toString : Bytes := (e.tryFormat buffer).getD []

end Endpoint

section

variable {e : Endpoint}

theorem parsePort_ok (port : UInt16) (offset : Nat) : parsePort (toChars 10 port.toNat) offset = .ok port := by
  have inside := port.toNat_lt
  have nonempty : toChars 10 port.toNat ≠ [] := (numeral_toChars (by decide) (by decide)).nonempty
  have read : fromChars 10 unsignedLimit (toChars 10 port.toNat) = ⟨port.toNat, (toChars 10 port.toNat).length, .none⟩ :=
    fromChars_toChars (by decide) (by decide) (Nat.lt_trans inside (by decide))
  have small : ¬ 65535 < port.toNat := by omega
  unfold parsePort
  rw [if_neg nonempty, read]
  simp [small]

theorem parseScope_ok (scopeId : UInt32) (offset : Nat) : parseScope (toChars 10 scopeId.toNat) offset = .ok scopeId := by
  have nonempty : toChars 10 scopeId.toNat ≠ [] := (numeral_toChars (by decide) (by decide)).nonempty
  have read : fromChars 10 unsignedLimit (toChars 10 scopeId.toNat) = ⟨scopeId.toNat, (toChars 10 scopeId.toNat).length, .none⟩ :=
    fromChars_toChars (by decide) (by decide) scopeId.toNat_lt
  unfold parseScope
  rw [if_neg nonempty, read]
  simp

theorem idxOf?_first {b : UInt8} {before : Bytes} (absent : b ∉ before) (rest : Bytes) :
    (before ++ b :: rest).idxOf? b = some before.length := by
  induction before with
  | nil => simp [idxOf?_cons]
  | cons c before ih =>
    rw [mem_cons, not_or] at absent
    rw [cons_append, idxOf?_cons, if_neg (by simpa using Ne.symm absent.1), ih absent.2]
    rfl

theorem decimal_absent {b : UInt8} (number : Nat) (other : digitValue 10 b = none) : b ∉ toChars 10 number :=
  not_mem_toChars (by decide) (by decide) other

theorem plainParts_ok {addressText portText : Bytes} (address : 0x3A ∉ addressText) (port : 0x3A ∉ portText) :
    plainParts (addressText ++ 0x3A :: portText) = .ok ⟨addressText, portText, 0, addressText.length + 1⟩ := by
  have first : (addressText ++ 0x3A :: portText).idxOf? 0x3A = some addressText.length := idxOf?_first address portText
  have last : rfind 0x3A (addressText ++ 0x3A :: portText) = some addressText.length := by
    unfold rfind
    rw [reverse_append, reverse_cons, append_assoc, singleton_append,
      idxOf?_first (by simpa using port), Option.map_some, length_reverse]
    simp only [length_append, length_cons]
    congr 1
    omega
  have after : (addressText ++ 0x3A :: portText).drop (addressText.length + 1) = portText := by
    rw [append_cons]
    exact drop_left' (by simp)
  unfold plainParts
  rw [last]
  simp only [first, after]
  rw [if_neg (not_not_intro rfl), take_left]

theorem bracketedParts_ok {addressText portText : Bytes} {scopeId : UInt32} (address : ∀ b ∈ addressText, b ≠ 0x5D ∧ b ≠ 0x25) :
    ∃ offset, bracketedParts (0x5B :: (addressText ++ scopeText scopeId ++ 0x5D :: 0x3A :: portText)) =
      .ok ⟨addressText, portText, scopeId, offset⟩ := by
  have scope : 0x5D ∉ scopeText scopeId := by
    unfold scopeText
    split
    · simp [decimal_absent (b := 0x5D) scopeId.toNat (by decide)]
    · simp
  have absent : 0x5D ∉ 0x5B :: (addressText ++ scopeText scopeId) := by
    simp only [mem_cons, mem_append, not_or]
    exact ⟨by decide, fun mem => (address _ mem).1 rfl, scope⟩
  have found := idxOf?_first absent (0x3A :: portText)
  generalize same : addressText ++ scopeText scopeId = inner at *
  rw [length_cons] at found
  rw [cons_append] at found
  have colon : (0x5B :: (inner ++ 0x5D :: 0x3A :: portText))[inner.length + 1 + 1]? = some 0x3A := by
    rw [getElem?_cons_succ, getElem?_append_right (by omega), Nat.add_sub_cancel_left]
    rfl
  have after : (0x5B :: (inner ++ 0x5D :: 0x3A :: portText)).drop (inner.length + 1 + 2) = portText := by
    rw [drop_succ_cons, show inner ++ 0x5D :: 0x3A :: portText = inner ++ [0x5D, 0x3A] ++ portText by simp]
    exact drop_left' (by simp)
  have before : ((0x5B :: (inner ++ 0x5D :: 0x3A :: portText)).drop 1).take (inner.length + 1 - 1) = inner := by
    rw [drop_succ_cons, drop_zero, Nat.add_sub_cancel, take_left]
  unfold bracketedParts
  rw [found]
  simp only [colon, after, before]
  rw [if_neg (not_not_intro rfl), ← same]
  have percent : 0x25 ∉ addressText := fun mem => (address _ mem).2 rfl
  by_cases none_ : scopeId = 0
  · simp only [scopeText, none_, ne_eq, not_true_eq_false, if_false, append_nil, idxOf?_eq_none_iff.mpr percent]
    exact ⟨_, rfl⟩
  have digits : (addressText ++ 0x25 :: toChars 10 scopeId.toNat).drop (addressText.length + 1) = toChars 10 scopeId.toNat := by
    rw [append_cons]
    exact drop_left' (by simp)
  simp only [scopeText, ne_eq, none_, not_false_eq_true, if_true, idxOf?_first percent, digits, parseScope_ok, take_left]
  exact ⟨_, rfl⟩

theorem Endpoint.parse_plain {addressText : Bytes} {address : IpAddress} (read : IpAddress.parse addressText = .ok address)
    (colon : 0x3A ∉ addressText) (bracket : 0x5B ∉ addressText) (port : UInt16) :
    Endpoint.parse (addressText ++ 0x3A :: toChars 10 port.toNat) = .ok ⟨address, port, 0⟩ := by
  have front : (addressText ++ 0x3A :: toChars 10 port.toNat).head? ≠ some 0x5B := by
    intro first
    cases addressText with
    | nil => simp at first
    | cons b rest => exact bracket (by rw [← Option.some.inj first]; exact List.mem_cons_self)
  unfold Endpoint.parse
  simp only [decide_eq_false front, plainParts_ok colon (decimal_absent port.toNat (by decide))]
  simp [Bind.bind, Except.bind, read, parsePort_ok, Except.map]

theorem Endpoint.parse_bracketed {addressText : Bytes} {address : IpAddress} (read : IpAddress.parse addressText = .ok address)
    (plain : ∀ b ∈ addressText, b ≠ 0x5D ∧ b ≠ 0x25) (family : address.isV6 = true) (scopeId : UInt32) (port : UInt16) :
    Endpoint.parse (0x5B :: (addressText ++ scopeText scopeId ++ 0x5D :: 0x3A :: toChars 10 port.toNat)) =
      .ok ⟨address, port, scopeId⟩ := by
  obtain ⟨offset, parts⟩ : ∃ offset, bracketedParts
      (0x5B :: (addressText ++ scopeText scopeId ++ 0x5D :: 0x3A :: toChars 10 port.toNat)) = .ok ⟨addressText, _, scopeId, offset⟩ :=
    bracketedParts_ok plain
  unfold Endpoint.parse
  simp only [parts]
  simp [Bind.bind, Except.bind, read, family, parsePort_ok, Except.map]

theorem decimal_length (number k : Nat) (positive : 0 < k) (small : number < 10 ^ k) : (toChars 10 number).length ≤ k :=
  length_toChars (by decide) positive small

theorem Endpoint.output_eq (valid : e.address.isValid = true) : ∃ text, e.output = some text ∧ text.length ≤ buffer ∧
    text = if e.address.isV6 then 0x5B :: (e.address.output ++ scopeText e.scopeId ++ 0x5D :: 0x3A :: toChars 10 e.port.toNat)
      else e.address.output ++ 0x3A :: toChars 10 e.port.toNat := by
  have short := (output_canonical valid).length_le
  have written (destination : Nat) (room : 40 ≤ destination) : e.address.tryFormat destination = some e.address.output := by
    unfold IpAddress.tryFormat
    rw [valid, if_neg (by simp), if_neg (by omega)]
  have port := decimal_length e.port.toNat 5 (by decide) (Nat.lt_trans e.port.toNat_lt (by decide))
  have scope : (scopeText e.scopeId).length ≤ 11 := by
    unfold scopeText
    split
    · exact Nat.succ_le_succ (decimal_length e.scopeId.toNat 10 (by decide) (Nat.lt_trans e.scopeId.toNat_lt (by decide)))
    · exact Nat.zero_le _
  unfold output
  cases v6 : e.address.isV6 with
  | true =>
    simp only [if_true, length_singleton, written (buffer - 1) (by decide)]
    refine ⟨_, rfl, ?_, ?_⟩
    · simp only [length_append, length_cons, length_nil, buffer]
      omega
    · simp
  | false =>
    simp only [Bool.false_eq_true, if_false, length_nil, Nat.sub_zero, written buffer (by decide)]
    refine ⟨_, rfl, ?_, ?_⟩
    · simp only [length_append, length_cons, length_nil, buffer]
      omega
    · simp

theorem Endpoint.toString_eq {text : Bytes} (written : e.output = some text) (short : text.length ≤ buffer) : e.toString = text := by
  unfold toString tryFormat
  rw [written, Option.filter_some, if_pos (by simpa using short)]
  rfl

theorem Endpoint.parse_toString (valid : e.address.isValid = true) (scope : e.address.isV4 = true → e.scopeId = 0) :
    ∃ address, IpAddress.parse e.address.toString = .ok address ∧
      Endpoint.parse e.toString = .ok { e with address := address } := by
  have canonical := IpAddress.output_canonical valid
  obtain ⟨text, written, short, shape⟩ := Endpoint.output_eq valid
  rw [Endpoint.toString_eq written short, shape, IpAddress.toString_eq valid]
  cases v6 : e.address.isV6 with
  | true =>
    have family : e.address.family = .v6 := by simpa [IpAddress.isV6] using v6
    have address := canonical.address family
    refine ⟨_, address.parsed, ?_⟩
    apply Endpoint.parse_bracketed address.parsed _ v6
    intro b mem
    constructor
    · rintro rfl
      exact absurd (address.chars _ mem) (by decide)
    · rintro rfl
      exact absurd (address.chars _ mem) (by decide)
  | false =>
    have v4 : e.address.isV4 = true := by simpa [IpAddress.isValid, v6] using valid
    have family : e.address.family = .v4 := by simpa [IpAddress.isV4] using v4
    have quad : DottedQuad e.address.active e.address.output := canonical.dotted family
    have address : AddressText (v4Address e.address.active) e.address.output := .v4 rfl quad rfl
    refine ⟨_, address.parsed, ?_⟩
    simp only [scope v4]
    exact Endpoint.parse_plain address.parsed (fun mem => absurd (quad.chars _ mem) (by decide))
      (fun mem => absurd (quad.chars _ mem) (by decide)) e.port

structure IpAddress.RoundTrips (a : IpAddress) : Prop where
  parsed : parse a.toString = .ok a
  canonical : a.Canonical a.toString
  fits : a.output.length ≤ buffer

structure Endpoint.RoundTrips (e : Endpoint) : Prop where
  parsed : Endpoint.parse e.toString = .ok e
  fits : ∀ text ∈ e.output, text.length ≤ Endpoint.buffer

theorem IpAddress.roundTrips_iff {a : IpAddress} (valid : a.isValid = true) : a.RoundTrips ↔ a.UnusedZero := by
  have same := toString_eq valid
  have canonical := output_canonical valid
  constructor
  · intro good
    exact (parse_canonical_iff (same ▸ canonical)).mp good.parsed
  · intro unused
    rw [← same] at canonical
    exact ⟨(parse_canonical_iff canonical).mpr unused, canonical, (same ▸ canonical.length_le).trans (by decide)⟩

/-- An address and its endpoints round-trip through text exactly when the bytes that the address does not use are zeros. -/
theorem addresses_round_trip_iff (a : IpAddress) (valid : a.isValid = true) : (a.RoundTrips ↔ a.UnusedZero) ∧
      ∀ port scopeId, (a.isV4 = true → scopeId = 0) → (Endpoint.RoundTrips ⟨a, port, scopeId⟩ ↔ a.UnusedZero) := by
  apply And.intro (roundTrips_iff valid)
  intro port scopeId scope
  obtain ⟨address, read, parsed⟩ : ∃ address, parse a.toString = .ok address ∧
      Endpoint.parse (Endpoint.toString ⟨a, port, scopeId⟩) = .ok ⟨address, port, scopeId⟩ :=
    Endpoint.parse_toString (e := ⟨a, port, scopeId⟩) valid scope
  have exact_ : address = a ↔ a.UnusedZero := by
    rw [← parse_canonical_iff (toString_eq valid ▸ output_canonical valid), read]
    exact ⟨congrArg Except.ok, Except.ok.inj⟩
  rw [← exact_]
  constructor
  · intro good
    have same := Except.ok.inj (parsed.symm.trans good.parsed)
    exact congrArg Endpoint.address same
  · rintro rfl
    apply Endpoint.RoundTrips.mk parsed
    intro text written
    obtain ⟨_, same, short, _⟩ := Endpoint.output_eq (e := ⟨address, port, scopeId⟩) valid
    obtain rfl := Option.some.inj (written.symm.trans same)
    exact short

def loopbackV6 : IpAddress := { family := .v6, bytes := ⟨replicate 15 0 ++ [1], rfl⟩ }

theorem addresses_round_trip_loopback : loopbackV6.RoundTrips ∧ Endpoint.RoundTrips ⟨loopbackV6, 80, 3⟩ := by
  have unused : loopbackV6.UnusedZero := nofun
  obtain ⟨address, endpoint⟩ := addresses_round_trip_iff loopbackV6 (by decide)
  exact ⟨address.mpr unused, (endpoint 80 3 (by decide)).mpr unused⟩

def longV4 : IpAddress := { family := .v4, bytes := ⟨[1, 2, 3, 4, 5] ++ replicate 11 0, rfl⟩ }

theorem unused_byte_lost : longV4.isValid = true ∧ IpAddress.parse longV4.toString ≠ .ok longV4 ∧
    Endpoint.parse (Endpoint.toString ⟨longV4, 80, 0⟩) ≠ .ok ⟨longV4, 80, 0⟩ := by
  refine ⟨by decide, ?_, ?_⟩
  · decide +kernel
  · decide +kernel

end

end NginBase.Net
