import NginBase.Crypto.Der
import NginBase.Library.Digits

namespace NginBase.Crypto.Der

open Library List Nat UInt8

theorem more_octet {d : Nat} (small : d < 128) :
    (0x80 ||| ofNat d) &&& 0x80 ≠ 0 ∧ ((0x80 ||| ofNat d) &&& 0x7F).toNat = d := by
  have all : ∀ n : Fin 128, (0x80 ||| ofNat n.val) &&& 0x80 ≠ 0 ∧
      ((0x80 ||| ofNat n.val) &&& 0x7F).toNat = n.val := by decide
  exact all ⟨d, small⟩

theorem last_octet {d : Nat} (small : d < 128) :
    ofNat d &&& 0x80 = 0 ∧ (ofNat d &&& 0x7F).toNat = d ∧ (ofNat d).toNat = d := by
  have all : ∀ n : Fin 128, ofNat n.val &&& 0x80 = 0 ∧ (ofNat n.val &&& 0x7F).toNat = n.val ∧
      (ofNat n.val).toNat = n.val := by decide
  exact all ⟨d, small⟩

theorem octet_kinds (octet : UInt8) : (octet &&& 0x7F).toNat < 128 ∧
    (octet &&& 0x80 ≠ 0 → octet = 0x80 ||| ofNat (octet &&& 0x7F).toNat) ∧
    (octet &&& 0x80 = 0 → octet = UInt8.ofNat (octet &&& 0x7F).toNat) := by
  have all : ∀ n : Fin 256, (ofNat n.val &&& 0x7F).toNat < 128 ∧
      (ofNat n.val &&& 0x80 ≠ 0 → ofNat n.val = 0x80 ||| ofNat (ofNat n.val &&& 0x7F).toNat) ∧
      (ofNat n.val &&& 0x80 = 0 → ofNat n.val = ofNat (ofNat n.val &&& 0x7F).toNat) := by
    decide +kernel
  have here := all ⟨octet.toNat, octet.toNat_lt⟩
  rwa [UInt8.ofNat_toNat] at here

variable {value : Nat}

theorem shift_or {low k : Nat} (small : low < 2 ^ k) : value <<< k ||| low = value * 2 ^ k + low := by
  rw [← shiftLeft_add_eq_or_of_lt small, shiftLeft_eq]

theorem base128Integer_eq (value : Nat) :
    base128Integer value = (Nat.digits 128 (value / 128)).reverse.map (fun group => 0x80 ||| ofNat group) ++
      [ofNat (value % 128)] := by
  rw [base128Integer, map_reverse, Nat.shiftRight_eq_div_pow]
  congr 2
  exact congrArg ofNat (and_two_pow_sub_one_eq_mod value 7)

theorem readBase128Loop_complete (groups : List Nat) (last value : Nat) (first : Bool) (rest : Bytes)
    (small : ∀ d ∈ groups, d < 128) (small' : last < 128) (leading : first = true → groups.head? ≠ some 0)
    (bound : bigEndian 128 value (groups ++ [last]) < 2 ^ 64) :
    readBase128Loop (groups.map (fun group => 0x80 ||| ofNat group) ++ ofNat last :: rest) value first =
      .ok (bigEndian 128 value (groups ++ [last]), rest) := by
  induction groups generalizing value first with
  | nil =>
    rcases last_octet small' with ⟨ends, low, _⟩
    have room : ¬ (2 ^ 64 - 1) >>> 7 < value := by
      simp only [nil_append, bigEndian_cons, bigEndian_nil] at bound
      omega
    rw [map_nil, nil_append, readBase128Loop, if_neg (fun bad => bad.2.1 ends), if_neg room,
      if_neg (not_not.mpr ends), low, shift_or small']
    rfl
  | cons d groups ih =>
    rw [forall_mem_cons] at small
    rcases more_octet small.1 with ⟨more, low⟩
    have room : ¬ (2 ^ 64 - 1) >>> 7 < value := by
      rw [cons_append, bigEndian_cons] at bound
      have kept := le_bigEndian 128 (by decide) (value * 128 + d) (groups ++ [last])
      omega
    have nonzero : ¬ (first = true ∧ (0x80 ||| ofNat d) &&& 0x80 ≠ 0 ∧ (0x80 ||| ofNat d) &&& 0x7F = 0) := by
      rintro ⟨starts, _, zero⟩
      rw [zero] at low
      exact leading starts (by rw [← low]; rfl)
    rw [map_cons, cons_append, readBase128Loop, if_neg nonzero, if_neg room, if_pos more, low, shift_or small.1]
    exact ih _ _ small.2 nofun bound

variable {bytes rest : Bytes}

theorem readBase128Loop_sound {result : Nat} {first : Bool} (h : readBase128Loop bytes value first = .ok (result, rest)) :
    ∃ groups last, (∀ d ∈ groups, d < 128) ∧ last < 128 ∧ (first = true → groups.head? ≠ some 0) ∧
      bytes = groups.map (fun group => 0x80 ||| ofNat group) ++ ofNat last :: rest ∧
      result = bigEndian 128 value (groups ++ [last]) ∧ result < 2 ^ 64 := by
  induction bytes generalizing value first with
  | nil => cases h
  | cons octet bytes ih =>
    rcases octet_kinds octet with ⟨small, more, ends⟩
    unfold readBase128Loop at h
    obtain ⟨zero, h⟩ := guard_ok h
    obtain ⟨full, h⟩ := guard_ok h
    by_cases again : octet &&& 0x80 ≠ 0
    · rw [if_pos again, shift_or small] at h
      rcases ih h with ⟨groups, last, small', smallLast, _, shape, same, bound⟩
      refine ⟨(octet &&& 0x7F).toNat :: groups, last, ?_, smallLast, ?_, ?_, same, bound⟩
      · rw [forall_mem_cons]
        exact ⟨small, small'⟩
      · intro starts leading
        apply zero
        refine ⟨starts, again, ?_⟩
        rw [← UInt8.toNat_inj]
        exact Option.some.inj leading
      · rw [map_cons, cons_append, ← more again, shape]
    · rw [if_neg again, shift_or small] at h
      cases h
      refine ⟨[], (octet &&& 0x7F).toNat, by simp, small, by simp, ?_, rfl, ?_⟩
      · rw [map_nil, nil_append, ← ends (not_not.mp again)]
      · omega

theorem base128Integer_read (bound : value < 2 ^ 64) (rest : Bytes) :
    readBase128Integer (base128Integer value ++ rest) = .ok (value, rest) := by
  have digits : bigEndian 128 0 ((Nat.digits 128 (value / 128)).reverse ++ [value % 128]) = value := by
    rw [bigEndian_append, bigEndian_digits, bigEndian_cons, bigEndian_nil]
    omega
  have leading : (Nat.digits 128 (value / 128)).reverse.head? ≠ some 0 := by
    intro zero
    rw [head?_reverse] at zero
    rcases Nat.eq_zero_or_pos (value / 128) with none | some
    · rw [none] at zero
      cases zero
    · have nonempty : Nat.digits 128 (value / 128) ≠ [] := Nat.digits_ne_nil_iff_ne_zero.mpr (by omega)
      rw [getLast?_eq_some_getLast nonempty] at zero
      exact Nat.getLast_digit_ne_zero 128 (by omega) (Option.some.inj zero)
  have read := readBase128Loop_complete (Nat.digits 128 (value / 128)).reverse (value % 128) 0 true rest
    (fun d mem => Nat.digits_lt_base (by decide) (mem_reverse.mp mem)) (Nat.mod_lt _ (by decide))
    (fun _ => leading) (by rwa [digits])
  rw [digits] at read
  rw [base128Integer_eq, append_assoc]
  exact read

theorem readBase128Integer_sound (h : readBase128Integer bytes = .ok (value, rest)) :
    bytes = base128Integer value ++ rest ∧ value < 2 ^ 64 := by
  rcases readBase128Loop_sound h with ⟨groups, last, small, small', leading, shape, same, bound⟩
  rw [bigEndian_append, bigEndian_cons, bigEndian_nil] at same
  have high : value / 128 = bigEndian 128 0 groups := by omega
  have low : value % 128 = last := by omega
  refine ⟨?_, bound⟩
  rw [base128Integer_eq, high, digits_bigEndian (by decide) small (leading rfl), low, shape]
  simp

theorem readLengthLoop_complete (digits : List Nat) (rest : Bytes) (length : Nat) (small : ∀ d ∈ digits, d < 256)
    (bound : bigEndian 256 length digits < 2 ^ 64) :
    readLengthLoop digits.length (digits.map ofNat ++ rest) length = .ok (bigEndian 256 length digits, rest) := by
  induction digits generalizing length with
  | nil => rfl
  | cons d digits ih =>
    rw [forall_mem_cons] at small
    have room : ¬ (2 ^ 64 - 1) >>> 8 < length := by
      rw [bigEndian_cons] at bound
      have kept := le_bigEndian 256 (by decide) (length * 256 + d) digits
      omega
    have value : (ofNat d).toNat = d := toNat_ofNat_of_lt' small.1
    rw [length_cons, map_cons, cons_append, readLengthLoop, if_neg room, value, shift_or small.1]
    exact ih _ small.2 bound

theorem readLengthLoop_sound {octets : Nat} {length result : Nat}
    (h : readLengthLoop octets bytes length = .ok (result, rest)) (fits : length < 2 ^ 64) :
    ∃ digits : List Nat, digits.length = octets ∧ (∀ d ∈ digits, d < 256) ∧ bytes = digits.map ofNat ++ rest ∧
      result = bigEndian 256 length digits ∧ result < 2 ^ 64 := by
  induction octets generalizing bytes length with
  | zero =>
    cases h
    exact ⟨[], rfl, by simp, rfl, rfl, fits⟩
  | succ octets ih =>
    cases bytes with
    | nil => cases h
    | cons octet bytes =>
      have small : octet.toNat < 2 ^ 8 := octet.toNat_lt
      unfold readLengthLoop at h
      by_cases full : (2 ^ 64 - 1) >>> 8 < length
      · rw [if_pos full] at h
        cases h
      rw [if_neg full, shift_or small] at h
      rcases ih h (by omega) with ⟨digits, count, smaller, shape, same, bound⟩
      refine ⟨octet.toNat :: digits, by rw [length_cons, count], ?_, ?_, same, bound⟩
      · rw [forall_mem_cons]
        exact ⟨small, smaller⟩
      · rw [map_cons, cons_append, UInt8.ofNat_toNat, shape]

theorem lengthBytes_read {length : Nat} (bound : length < 2 ^ 64) :
    ∃ bytes, lengthBytes length = .ok bytes ∧ ∀ rest, readLength (bytes ++ rest) = .ok (length, rest) := by
  unfold lengthBytes
  by_cases short : length ≤ 127
  · rw [if_pos short]
    refine ⟨_, rfl, fun rest => ?_⟩
    rcases last_octet (show length < 128 by omega) with ⟨ends, _, value⟩
    rw [singleton_append, readLength, if_pos ends, value]
  · rw [if_neg short]
    have count : (digits 256 length).length ≤ 8 := by
      rw [digits_length_le_iff (by decide)]
      exact bound
    have nonempty : digits 256 length ≠ [] := digits_ne_nil_iff_ne_zero.mpr (by omega)
    have positive : 0 < (digits 256 length).length := length_pos_of_ne_nil nonempty
    simp only [length_map]
    rw [if_neg (by omega)]
    refine ⟨_, rfl, fun rest => ?_⟩
    rcases more_octet (show (digits 256 length).length < 128 by omega) with ⟨long, low⟩
    have shape : ((Nat.digits 256 length).map ofNat).reverse = (Nat.digits 256 length).reverse.map ofNat :=
      map_reverse.symm
    have small : ∀ d ∈ (digits 256 length).reverse, d < 256 := fun d mem =>
      digits_lt_base (by decide) (mem_reverse.mp mem)
    have loop := readLengthLoop_complete (digits 256 length).reverse rest 0 small (by rwa [bigEndian_digits])
    rw [bigEndian_digits, length_reverse] at loop
    have leading : ((Nat.digits 256 length).reverse.map ofNat ++ rest).head? ≠ some 0 := by
      rw [head?_append, head?_map, head?_reverse, getLast?_eq_some_getLast nonempty]
      intro zero
      have digit : ofNat ((digits 256 length).getLast nonempty) = 0 := Option.some.inj zero
      have value : (ofNat ((digits 256 length).getLast nonempty)).toNat = (digits 256 length).getLast nonempty :=
        toNat_ofNat_of_lt' (digits_lt_base (by decide) (getLast_mem nonempty))
      rw [digit] at value
      exact getLast_digit_ne_zero 256 (by omega) value.symm
    rw [cons_append, readLength, if_neg long, low, shape, readLongLength,
      if_neg (by simp only [length_append, length_map, length_reverse]; omega), if_neg leading, loop, ok_bind]
    dsimp only
    rw [if_neg short]
    rfl

theorem readLength_sound {length : Nat} (h : readLength bytes = .ok (length, rest)) :
    ∃ encoded, lengthBytes length = .ok encoded ∧ bytes = encoded ++ rest ∧ length < 2 ^ 64 := by
  cases bytes with
  | nil => cases h
  | cons first bytes =>
    rcases octet_kinds first with ⟨small, more, ends⟩
    unfold readLength at h
    dsimp only at h
    by_cases short : first &&& 0x80 = 0
    · rw [if_pos short] at h
      cases h
      have value : first.toNat = (first &&& 0x7F).toNat := by
        conv_lhs => rw [ends short]
        exact (last_octet small).2.2
      refine ⟨[first], ?_, rfl, by omega⟩
      rw [lengthBytes, if_pos (by omega), UInt8.ofNat_toNat]
    · rw [if_neg short] at h
      unfold readLongLength at h
      obtain ⟨bad, h⟩ := guard_ok h
      obtain ⟨zero, h⟩ := guard_ok h
      rcases bind_ok h with ⟨⟨length', rest'⟩, looped, h⟩
      dsimp only at h
      obtain ⟨low, h⟩ := guard_ok h
      cases h
      rcases readLengthLoop_sound looped (by decide) with ⟨digits, count, smaller, shape, same, bound⟩
      have leading : digits.head? ≠ some 0 := by
        intro first'
        apply zero
        rw [shape, head?_append, head?_map, first']
        rfl
      have written := digits_bigEndian (by decide) smaller leading
      rw [← same] at written
      have length' : (Nat.digits 256 length).length = digits.length := by
        rw [← length_reverse, written]
      refine ⟨first :: digits.map ofNat, ?_, by rw [shape]; rfl, bound⟩
      rw [lengthBytes, if_neg low]
      simp only [length_map]
      rw [if_neg (by omega), length', count, ← more short, ← map_reverse, written]

theorem identifier_low (tagClass : DerTagClass) (constructed : Bool) {number : UInt32} (low : number < 31) :
    let identifier := encodeTagClass tagClass ||| constructedBit constructed ||| number.toUInt8
    decodeTagClass identifier = tagClass ∧ decide (identifier &&& 0x20 ≠ 0) = constructed ∧
      identifier &&& 0x1F ≠ 0x1F ∧ (identifier &&& 0x1F).toUInt32 = number := by
  have all : ∀ (tagClass : Fin 4) (constructed : Bool) (n : Fin 31),
      let tagClass := [DerTagClass.universal, .application, .contextSpecific, .privateUse][tagClass]
      let identifier := encodeTagClass tagClass ||| constructedBit constructed ||| (UInt32.ofNat n.val).toUInt8
      decodeTagClass identifier = tagClass ∧ decide (identifier &&& 0x20 ≠ 0) = constructed ∧
        identifier &&& 0x1F ≠ 0x1F ∧ (identifier &&& 0x1F).toUInt32 = UInt32.ofNat n.val := by decide +kernel
  have small : number.toNat < 31 := UInt32.lt_iff_toNat_lt.mp low
  have here (k : Fin 4) := all k constructed ⟨number.toNat, small⟩
  simp only [UInt32.ofNat_toNat] at here
  cases tagClass with
  | universal => exact here 0
  | application => exact here 1
  | contextSpecific => exact here 2
  | privateUse => exact here 3

theorem identifier_high (tagClass : DerTagClass) (constructed : Bool) :
    let identifier := encodeTagClass tagClass ||| constructedBit constructed ||| 0x1F
    decodeTagClass identifier = tagClass ∧ decide (identifier &&& 0x20 ≠ 0) = constructed ∧
      identifier &&& 0x1F = 0x1F := by
  cases tagClass <;> cases constructed <;> decide

theorem identifier_octet (identifier : UInt8) : (identifier &&& 0x1F).toNat < 32 ∧
    identifier = encodeTagClass (decodeTagClass identifier) ||| constructedBit (decide (identifier &&& 0x20 ≠ 0)) |||
      (identifier &&& 0x1F) := by
  have all : ∀ n : Fin 256, (UInt8.ofNat n.val &&& 0x1F).toNat < 32 ∧
      UInt8.ofNat n.val = encodeTagClass (decodeTagClass (UInt8.ofNat n.val)) |||
        constructedBit (decide (UInt8.ofNat n.val &&& 0x20 ≠ 0)) ||| (UInt8.ofNat n.val &&& 0x1F) := by decide +kernel
  have here := all ⟨identifier.toNat, identifier.toNat_lt⟩
  rwa [UInt8.ofNat_toNat] at here

theorem identifierBytes_read (tag : DerTag) :
    ∃ identifier more, identifierBytes tag = identifier :: more ∧ decodeTagClass identifier = tag.tagClass ∧
      decide (identifier &&& 0x20 ≠ 0) = tag.constructed ∧
      ∀ rest, readTagNumber identifier (more ++ rest) = .ok (tag.number, rest) := by
  unfold identifierBytes
  by_cases low : tag.number < 31
  · rcases identifier_low tag.tagClass tag.constructed low with ⟨tagClass, constructed, short, number⟩
    rw [if_pos low]
    refine ⟨_, [], rfl, tagClass, constructed, fun rest => ?_⟩
    rw [readTagNumber, if_neg short, number]
    rfl
  · rcases identifier_high tag.tagClass tag.constructed with ⟨tagClass, constructed, long⟩
    rw [if_neg low]
    refine ⟨_, _, rfl, tagClass, constructed, fun rest => ?_⟩
    have bound := tag.number.toNat_lt
    have large : 31 ≤ tag.number.toNat := by
      exact not_lt.mp low
    rw [readTagNumber, if_pos long, base128Integer_read (by omega), ok_bind]
    dsimp only
    rw [if_neg (by omega), UInt32.ofNat_toNat]
    rfl

theorem readTagNumber_sound {identifier : UInt8} {number : UInt32}
    (h : readTagNumber identifier bytes = .ok (number, rest)) : identifier :: bytes =
      identifierBytes ⟨decodeTagClass identifier, decide (identifier &&& 0x20 ≠ 0), number⟩ ++ rest := by
  rcases identifier_octet identifier with ⟨small, octet⟩
  unfold readTagNumber at h
  by_cases long : identifier &&& 0x1F = 0x1F
  · rw [if_pos long] at h
    rcases bind_ok h with ⟨⟨value, rest'⟩, read, h⟩
    dsimp only at h
    obtain ⟨bad, h⟩ := guard_ok h
    cases h
    rcases readBase128Integer_sound read with ⟨shape, _⟩
    have value' : (UInt32.ofNat value).toNat = value := UInt32.toNat_ofNat_of_lt' (by simp only [UInt32.size]; omega)
    have large : ¬ UInt32.ofNat value < 31 := by
      rw [UInt32.lt_iff_toNat_lt]
      simp only [UInt32.reduceToNat]
      omega
    rw [identifierBytes, if_neg large, value', shape]
    rw [long] at octet
    rw [← octet]
    rfl
  · rw [if_neg long] at h
    cases h
    have other : (identifier &&& 0x1F).toNat ≠ 0x1F := by
      intro same
      apply long
      rw [← UInt8.toNat_inj]
      exact same
    have low : (identifier &&& 0x1F).toUInt32 < 31 := by
      rw [UInt32.lt_iff_toNat_lt, toNat_toUInt32]
      simp only [UInt32.reduceToNat]
      omega
    rw [identifierBytes, if_pos low]
    rw [toUInt8_toUInt32, ← octet]
    rfl

theorem readElement_encode (tag : DerTag) (value rest : Bytes) (options : DerReadOptions) (depth : Nat)
    (fits : value.length ≤ options.maxElementBytes.toNat) :
    ∃ bytes, encodeElement tag value = .ok bytes ∧
      readElement ⟨bytes ++ rest, options, depth⟩ = .ok (⟨tag, value, bytes⟩, ⟨rest, options, depth⟩) := by
  have bound := options.maxElementBytes.toNat_lt
  rcases lengthBytes_read (show value.length < 2 ^ 64 by omega) with ⟨length, encoded, readBack⟩
  rcases identifierBytes_read tag with ⟨identifier, more, shape, tagClass, constructed, number⟩
  refine ⟨identifierBytes tag ++ length ++ value, ?_, ?_⟩
  · rw [encodeElement, encoded]
    rfl
  · have input : identifierBytes tag ++ length ++ value ++ rest = identifier :: (more ++ (length ++ (value ++ rest))) := by
      rw [shape]
      simp
    rw [readElement, input]
    dsimp only
    rw [number, ok_bind]
    rw [readBack, ok_bind]
    rw [if_neg (by rw [length_append]; omega), take_left, drop_left, tagClass, constructed, ← input,
      length_append, Nat.add_sub_cancel, take_left]
    rfl

theorem readElement_sound {reader reader' : DerReader} {element : DerElement}
    (h : readElement reader = .ok (element, reader')) :
    encodeElement element.tag element.value = .ok element.encoded ∧ reader.rest = element.encoded ++ reader'.rest ∧
      reader'.options = reader.options ∧ reader'.depth = reader.depth ∧
      element.value.length ≤ reader.options.maxElementBytes.toNat := by
  rcases reader with ⟨input, options, depth⟩
  unfold readElement at h
  cases input with
  | nil => cases h
  | cons identifier bytes =>
    rcases bind_ok h with ⟨⟨number, bytes₁⟩, tagged, h⟩
    rcases bind_ok h with ⟨⟨length, bytes₂⟩, sized, h⟩
    dsimp only at h
    obtain ⟨bad, h⟩ := guard_ok h
    cases h
    rcases readLength_sound sized with ⟨encoded, written, shape, _⟩
    have identifier' := readTagNumber_sound tagged
    have taken : (bytes₂.take length).length = length := by
      rw [length_take]
      omega
    have whole : identifier :: bytes = (identifierBytes ⟨decodeTagClass identifier, decide (identifier &&& 0x20 ≠ 0), number⟩ ++
        encoded ++ bytes₂.take length) ++ bytes₂.drop length := by
      rw [identifier', shape, append_assoc, append_assoc, take_append_drop]
    dsimp only
    rw [whole, length_append, Nat.add_sub_cancel, take_left, encodeElement, taken, written]
    exact ⟨rfl, rfl, rfl, rfl, by omega⟩

theorem toNat_ofNat_arc (fits : ¬ 2 ^ 32 - 1 < value) : (UInt32.ofNat value).toNat = value :=
  UInt32.toNat_ofNat_of_lt' (by simp only [UInt32.size]; omega)

theorem base128Integer_ne_nil (value : Nat) : base128Integer value ≠ [] := by
  rw [base128Integer_eq]
  simp

theorem readArcs_complete (arcs : List UInt32) {fuel : Nat}
    (enough : (arcs.flatMap fun arc => base128Integer arc.toNat).length ≤ fuel) :
    readArcs fuel (arcs.flatMap fun arc => base128Integer arc.toNat) = .ok arcs := by
  induction arcs generalizing fuel with
  | nil => cases fuel <;> rfl
  | cons arc arcs ih =>
    have bound := arc.toNat_lt
    have positive : 0 < (base128Integer arc.toNat).length := length_pos_of_ne_nil (base128Integer_ne_nil _)
    rw [flatMap_cons] at enough ⊢
    rw [length_append] at enough
    cases fuel with
    | zero => omega
    | succ fuel =>
      rw [readArcs, if_neg (by simp [base128Integer_ne_nil]), base128Integer_read (by omega), ok_bind]
      dsimp only
      rw [if_neg (by omega), ih (by omega), UInt32.ofNat_toNat]
      rfl

variable {arcs : List UInt32}

theorem readArcs_sound {fuel : Nat} (enough : rest.length ≤ fuel) (h : readArcs fuel rest = .ok arcs) :
    rest = arcs.flatMap fun arc => base128Integer arc.toNat := by
  induction fuel generalizing rest arcs with
  | zero =>
    cases h
    exact length_eq_zero_iff.mp (le_zero.mp enough)
  | succ fuel ih =>
    unfold readArcs at h
    by_cases done : rest = []
    · rw [if_pos done] at h
      cases h
      exact done
    rw [if_neg done] at h
    rcases bind_ok h with ⟨⟨arc, rest'⟩, read, h⟩
    dsimp only at h
    obtain ⟨large, h⟩ := guard_ok h
    rcases bind_ok h with ⟨arcs', more, h⟩
    cases h
    rcases readBase128Integer_sound read with ⟨shape, _⟩
    have positive : 0 < (base128Integer arc).length := length_pos_of_ne_nil (base128Integer_ne_nil _)
    have shorter : rest'.length ≤ fuel := by
      rw [shape, length_append] at enough
      omega
    rw [flatMap_cons, toNat_ofNat_arc large, ← ih shorter more, shape]

theorem firstArcs_pair {first second : UInt32} (valid : ¬ (2 < first ∨ first < 2 ∧ 39 < second)) :
    firstArcs (first.toNat * 40 + second.toNat) = .ok [first, second] := by
  have bound := second.toNat_lt
  simp only [UInt32.lt_iff_toNat_lt, UInt32.reduceToNat] at valid
  have back (n : UInt32) (k : Nat) (same : k = n.toNat) : UInt32.ofNat k = n := by
    rw [same, UInt32.ofNat_toNat]
  unfold firstArcs
  by_cases low : first.toNat * 40 + second.toNat < 40
  · have zero : first.toNat = 0 := by omega
    rw [if_pos low, back second _ (by omega), ← back first 0 zero.symm]
    rfl
  rw [if_neg low]
  by_cases middle : first.toNat * 40 + second.toNat < 80
  · rw [if_pos middle, back second _ (by omega), ← back first 1 (by omega)]
    rfl
  · rw [if_neg middle, if_neg (by omega), back second _ (by omega), ← back first 2 (by omega)]
    rfl

theorem firstArcs_sound (h : firstArcs value = .ok arcs) :
    ∃ first second : UInt32, arcs = [first, second] ∧ ¬ (2 < first ∨ first < 2 ∧ 39 < second) ∧
      first.toNat * 40 + second.toNat = value := by
  unfold firstArcs at h
  by_cases low : value < 40
  · rw [if_pos low] at h
    cases h
    have arc := toNat_ofNat_arc (show ¬ 2 ^ 32 - 1 < value by omega)
    refine ⟨0, UInt32.ofNat value, rfl, ?_, ?_⟩ <;> simp only [UInt32.lt_iff_toNat_lt, UInt32.reduceToNat] <;> omega
  rw [if_neg low] at h
  by_cases middle : value < 80
  · rw [if_pos middle] at h
    cases h
    have arc := toNat_ofNat_arc (show ¬ 2 ^ 32 - 1 < value - 40 by omega)
    refine ⟨1, UInt32.ofNat (value - 40), rfl, ?_, ?_⟩ <;>
      simp only [UInt32.lt_iff_toNat_lt, UInt32.reduceToNat] <;> omega
  rw [if_neg middle] at h
  obtain ⟨large, h⟩ := guard_ok h
  cases h
  have arc := toNat_ofNat_arc large
  refine ⟨2, UInt32.ofNat (value - 80), rfl, ?_, ?_⟩ <;>
    simp only [UInt32.lt_iff_toNat_lt, UInt32.reduceToNat] <;> omega

theorem readObjectIdentifier_encode {value : Bytes} (h : objectIdentifierValue arcs = .ok value) (encoded : Bytes) :
    readObjectIdentifier ⟨objectIdentifierTag, value, encoded⟩ = .ok arcs := by
  match arcs with
  | [] => cases h
  | [_] => cases h
  | first :: second :: rest =>
    unfold objectIdentifierValue at h
    dsimp only at h
    obtain ⟨bad, h⟩ := guard_ok h
    cases h
    have large := first.toNat_lt
    have large' := second.toNat_lt
    rw [readObjectIdentifier, if_neg (by simp [base128Integer_ne_nil]), base128Integer_read (by omega), ok_bind]
    dsimp only
    rw [firstArcs_pair bad, readArcs_complete rest le_rfl]
    rfl

theorem readObjectIdentifier_sound {element : DerElement} (h : readObjectIdentifier element = .ok arcs) :
    element.tag = objectIdentifierTag ∧ objectIdentifierValue arcs = .ok element.value := by
  unfold readObjectIdentifier at h
  obtain ⟨bad, h⟩ := guard_ok h
  push Not at bad
  rcases bind_ok h with ⟨⟨value, rest⟩, read, h⟩
  rcases bind_ok h with ⟨pair, firsts, h⟩
  rcases bind_ok h with ⟨arcs', more, h⟩
  cases h
  rcases firstArcs_sound firsts with ⟨first, second, rfl, valid, same⟩
  refine ⟨bad.1, ?_⟩
  rw [cons_append, cons_append, nil_append, objectIdentifierValue, if_neg valid, same, ← readArcs_sound le_rfl more, ← (readBase128Integer_sound read).1]

/-- DER has exactly one encoding for every element and every object identifier. -/
theorem der_encoding_unique : (∀ (tag : DerTag) (value rest : Bytes) (options : DerReadOptions) (depth : Nat),
      value.length ≤ options.maxElementBytes.toNat → ∃ bytes, encodeElement tag value = .ok bytes ∧
        readElement ⟨bytes ++ rest, options, depth⟩ = .ok (⟨tag, value, bytes⟩, ⟨rest, options, depth⟩)) ∧
    (∀ (reader reader' : DerReader) (element : DerElement), readElement reader = .ok (element, reader') →
      encodeElement element.tag element.value = .ok element.encoded ∧ reader.rest = element.encoded ++ reader'.rest) ∧
    (∀ (arcs : List UInt32) (bytes : Bytes), encodeObjectIdentifier arcs = .ok bytes →
      ∃ value, encodeElement objectIdentifierTag value = .ok bytes ∧
        ∀ encoded, readObjectIdentifier ⟨objectIdentifierTag, value, encoded⟩ = .ok arcs) ∧
    (∀ (element : DerElement) (arcs : List UInt32), readObjectIdentifier element = .ok arcs →
      element.tag = objectIdentifierTag ∧ encodeObjectIdentifier arcs = encodeElement element.tag element.value) := by
  refine ⟨readElement_encode, fun reader reader' element read => ?_, fun arcs bytes written => ?_,
    fun element arcs read => ?_⟩
  · rcases readElement_sound read with ⟨written, shape, _⟩
    exact ⟨written, shape⟩
  · rcases bind_ok written with ⟨value, content, written⟩
    exact ⟨value, written, readObjectIdentifier_encode content⟩
  · rcases readObjectIdentifier_sound read with ⟨tag, content⟩
    refine ⟨tag, ?_⟩
    rw [encodeObjectIdentifier, content, tag]
    rfl

end NginBase.Crypto.Der
