import NginBase.Net.AddressText

namespace NginBase.Net

open Library CharConv IpAddress List Nat

theorem Separated.eq {base : Nat} {separator : UInt8} {numbers : List Nat} {text : Bytes}
    (separated : Separated base separator numbers text) (large : 1 < base) :
    text = [separator].intercalate (numbers.map (toChars base)) := by
  obtain ⟨parts, all, rfl⟩ := separated
  congr 1
  induction all with
  | nil => rfl
  | cons first _ ih => rw [map_cons, ← first.eq_toChars large, ih]

theorem mem_joined {separator : UInt8} {parts : List Bytes} {b : UInt8} (mem : b ∈ [separator].intercalate parts) :
    b = separator ∨ ∃ part ∈ parts, b ∈ part := by
  induction parts with
  | nil => contradiction
  | cons part rest ih =>
    cases rest with
    | nil =>
      rw [intercalate_singleton] at mem
      exact .inr ⟨part, mem_singleton_self _, mem⟩
    | cons next rest =>
      rw [intercalate_cons_cons, append_assoc, mem_append, mem_append, mem_singleton] at mem
      rcases mem with here | same | later
      · exact .inr ⟨part, mem_cons_self, here⟩
      · exact .inl same
      · rcases ih later with same | ⟨part', among, inside⟩
        · exact .inl same
        · exact .inr ⟨part', mem_cons_of_mem _ among, inside⟩

theorem Separated.mem {base : Nat} {separator : UInt8} {numbers : List Nat} {text : Bytes} {b : UInt8}
    (separated : Separated base separator numbers text) (large : 1 < base) (modest : base ≤ 36) (mem : b ∈ text) :
    b = separator ∨ (digitValue base b).isSome := by
  obtain rfl := separated.eq large
  rcases mem_joined mem with same | ⟨part, among, inside⟩
  · exact .inl same
  · obtain ⟨number, _, rfl⟩ := mem_map.mp among
    exact .inr (toChars_digits large modest b inside).1

def DottedQuad (octets : Octets v4Size) (text : Bytes) : Prop := Separated 10 0x2E (octets.val.map UInt8.toNat) text

/-- One to four hexadecimal digits in upper or lower case. -/
structure HexGroup (text : Bytes) : Prop where
  nonempty : text ≠ []
  short : text.length ≤ 4
  digits : ∀ b ∈ text, (digitValue 16 b).isSome

def groupBytes (text : Bytes) : Bytes := [.ofNat (digitsValue 16 text / 256), .ofNat (digitsValue 16 text % 256)]

/-- The bytes of some groups, of which the last may be a dotted quad where `dotted` allows it. -/
inductive Groups (dotted : Bool) : List Bytes → Bytes → Prop
  | group {text : Bytes} (hex : HexGroup text) : Groups dotted [text] (groupBytes text)
  | quad {text : Bytes} {octets : Octets v4Size} (allowed : dotted = true) (quad : DottedQuad octets text) :
      Groups dotted [text] octets.val
  | more {text : Bytes} {later : List Bytes} {bytes : Bytes} (hex : HexGroup text) (rest : Groups dotted later bytes) :
      Groups dotted (text :: later) (groupBytes text ++ bytes)

/-- One side of `::`. -/
inductive Side (dotted : Bool) : Bytes → Bytes → Prop
  | empty : Side dotted [] []
  | groups {parts : List Bytes} {bytes : Bytes} (groups : Groups dotted parts bytes) : Side dotted ([0x3A].intercalate parts) bytes

inductive AddressText (a : IpAddress) : Bytes → Prop
  | v4 {text : Bytes} {octets : Octets v4Size} (family : a.family = .v4) (quad : DottedQuad octets text)
      (bytes : a.bytes.val = octets.val ++ replicate 12 0) : AddressText a text
  | full {parts : List Bytes} (family : a.family = .v6) (groups : Groups true parts a.bytes.val) :
      AddressText a ([0x3A].intercalate parts)
  /-- At most seven groups stand beside `::`. -/
  | compressed {left right leftBytes rightBytes : Bytes} (family : a.family = .v6) (before : Side false left leftBytes)
      (after : Side true right rightBytes) (fewer : leftBytes.length + rightBytes.length ≤ 14)
      (bytes : a.bytes.val = leftBytes ++ replicate (16 - (leftBytes.length + rightBytes.length)) 0 ++ rightBytes) :
      AddressText a (left ++ [0x3A, 0x3A] ++ right)

section

variable {base limit : Nat} {text : Bytes}

theorem fromChars_digits (nonempty : text ≠ []) (digits : ∀ b ∈ text, (digitValue base b).isSome)
    (fits : digitsValue base text < limit) : fromChars base limit text = ⟨digitsValue base text, text.length, .none⟩ := by
  have all : text.takeWhile (fun b => (digitValue base b).isSome) = text := takeWhile_eq_self_iff.mpr digits
  unfold fromChars
  simp only [all]
  rw [if_neg nonempty, if_pos fits]

theorem fromChars_complete (used : (fromChars base limit text).used = text.length) (valid : (fromChars base limit text).ec ≠ .invalidArgument)
    (inside : (fromChars base limit text).ec ≠ .resultOutOfRange) :
    text ≠ [] ∧ (∀ b ∈ text, (digitValue base b).isSome) ∧ (fromChars base limit text).value = digitsValue base text := by
  by_cases nothing : text.takeWhile (fun b => (digitValue base b).isSome) = []
  · exact absurd (by simp [fromChars, nothing]) valid
  by_cases fits : digitsValue base (text.takeWhile fun b => (digitValue base b).isSome) < limit
  · simp only [fromChars, if_neg nothing, if_pos fits] at used ⊢
    have all : text.takeWhile (fun b => (digitValue base b).isSome) = text := ( takeWhile_prefix _).eq_of_length used
    rw [all] at nothing ⊢
    exact ⟨nothing, takeWhile_eq_self_iff.mp all, rfl⟩
  · exact absurd (by simp [fromChars, nothing, fits]) inside

end

section

variable {n base offset size : Nat}

theorem fromChars_octet (octet : UInt8) :
    fromChars 10 unsignedLimit (toChars 10 octet.toNat) = ⟨octet.toNat, (toChars 10 octet.toNat).length, .none⟩ :=
  fromChars_toChars (by decide) (by decide) (lt_trans octet.toNat_lt (by decide))

theorem toChars_plain (number : Nat) :
    ¬ (toChars 10 number = [] ∨ 1 < (toChars 10 number).length ∧ (toChars 10 number).head? = some 0x30) := by
  have numeral : Numeral 10 number (toChars 10 number) := numeral_toChars (by decide) (by decide)
  rintro (empty | ⟨long, zero⟩)
  · exact numeral.nonempty empty
  · exact numeral.leading long zero

theorem parseV4Components_ok {left begin : Nat} (octets : Octets (left + 1)) :
    parseV4Components size offset left (octets.val.map fun octet => toChars 10 octet.toNat) begin = .ok octets := by
  induction left generalizing begin with
  | zero =>
    obtain ⟨octets, one⟩ := octets
    match octets, one with
    | [octet], _ =>
      have small : ¬ 255 < octet.toNat := not_lt.mpr (le_of_lt_succ octet.toNat_lt)
      simp [parseV4Components, if_neg (toChars_plain _), fromChars_octet, small]
  | succ left ih =>
    obtain ⟨octets, size⟩ := octets
    match octets, size with
    | octet :: next :: rest, size =>
      have small : ¬ 255 < octet.toNat := not_lt.mpr (le_of_lt_succ octet.toNat_lt)
      have later : ∀ begin, parseV4Components _ offset left ((next :: rest).map fun octet => toChars 10 octet.toNat) begin = _ :=
        fun _ => ih ⟨next :: rest, succ.inj size⟩
      simp only [map_cons] at later
      simp only [map_cons, parseV4Components, if_neg (toChars_plain _), fromChars_octet, small, later]
      simp [Except.map, Octets.cons]

theorem dotted_ne_nil {numbers : List Nat} {separator : UInt8} (nonempty : numbers ≠ []) :
    [separator].intercalate (numbers.map (toChars 10)) ≠ [] := by
  obtain ⟨number, rest, rfl⟩ := exists_cons_of_ne_nil nonempty
  have numeral : Numeral 10 number (toChars 10 number) := numeral_toChars (by decide) (by decide)
  obtain ⟨b, more, same⟩ := exists_cons_of_ne_nil numeral.nonempty
  rw [map_cons, same, intercalate_cons_cons_left]
  exact cons_ne_nil _ _

theorem parseV4_ok (octets : Octets v4Size) (offset : Nat) :
    parseV4 ([0x2E].intercalate ((octets.val.map UInt8.toNat).map (toChars 10))) offset = .ok octets := by
  have plain : ∀ part ∈ octets.val.map fun octet => toChars 10 octet.toNat, (0x2E : UInt8) ∉ part := by
    intro part mem
    obtain ⟨octet, _, rfl⟩ := mem_map.mp mem
    exact not_mem_toChars (by decide) (by decide) (by decide)
  have some_ : (octets.val.map fun octet => toChars 10 octet.toNat) ≠ [] := by
    apply ne_nil_of_length_pos
    rw [length_map, octets.property]
    decide
  rw [map_map]
  show parseV4Components _ offset 3 ([0x2E].intercalate (octets.val.map fun octet => toChars 10 octet.toNat) |>.splitOn 0x2E) 0 = _
  rw [splitOn_intercalate _ plain some_]
  exact parseV4Components_ok octets

end

section

theorem digit_hex {b : UInt8} (digit : (digitValue 10 b).isSome) : (digitValue 16 b).isSome := by
  unfold digitValue at digit ⊢
  obtain ⟨d, found⟩ := Option.isSome_iff_exists.mp digit
  obtain ⟨known, small⟩ := Option.filter_eq_some_iff.mp found
  rw [known]
  have less : d < 16 := lt_trans (of_decide_eq_true small) (by decide)
  simp [less]

variable {octets : Octets v4Size} {text : Bytes} {offset : Nat}

theorem decimal_digit {b : UInt8} (digit : (digitValue 10 b).isSome) : ¬ (0x41 ≤ b ∧ b ≤ 0x5A) := by
  intro upper
  obtain ⟨d, found⟩ := Option.isSome_iff_exists.mp digit
  have small := digitValue_lt found
  simp only [UInt8.le_iff_toNat_le, UInt8.reduceToNat] at upper
  unfold digitValue at found
  simp only [UInt8.le_iff_toNat_le, UInt8.reduceToNat] at found
  rw [if_neg (by omega), if_neg (by omega), if_pos (by omega)] at found
  obtain ⟨same, below⟩ := Option.filter_eq_some_iff.mp found
  have := Option.some.inj same
  omega

/-- What `parseV4Components` has checked of a component that it goes past. -/
structure Checked (token : Bytes) : Prop where
  plain : ¬ (token = [] ∨ 1 < token.length ∧ token.head? = some 0x30)
  valid : ¬ ((fromChars 10 unsignedLimit token).ec = .invalidArgument ∨ (fromChars 10 unsignedLimit token).used ≠ token.length)
  inside : ¬ ((fromChars 10 unsignedLimit token).ec = .resultOutOfRange ∨ 255 < (fromChars 10 unsignedLimit token).value)

theorem Checked.numeral {token : Bytes} (checked : Checked token) :
    Numeral 10 (UInt8.ofNat (fromChars 10 unsignedLimit token).value).toNat token := by
  obtain ⟨plain, valid, inside⟩ := checked
  rw [not_or, not_not] at valid
  rw [not_or] at plain inside
  obtain ⟨nonempty, digits, value⟩ := fromChars_complete valid.2 valid.1 inside.1
  refine ⟨nonempty, fun b mem => ⟨digits b mem, decimal_digit (digits b mem)⟩, fun long zero => plain.2 ⟨long, zero⟩, ?_⟩
  rw [UInt8.toNat_ofNat_of_lt' (lt_succ_of_le (not_lt.mp inside.2)), value]

variable {size begin left : Nat}

theorem parseV4Components_checked {token : Bytes} {rest : List Bytes} {octets : Octets (left + 1)}
    (read : parseV4Components size offset left (token :: rest) begin = .ok octets) : Checked token := by
  rw [parseV4Components] at read
  refine ⟨fun bad => ?_, fun bad => ?_, fun bad => ?_⟩
  · rw [if_pos bad] at read
    cases read
  · split at read
    · cases read
    · rw [if_pos bad] at read
      cases read
  · split at read
    · cases read
    · dsimp only at read
      split at read <;> cases read

theorem parseV4Components_numerals {parts : List Bytes} {octets : Octets (left + 1)}
    (read : parseV4Components size offset left parts begin = .ok octets) :
    List.Forall₂ (Numeral 10) (octets.val.map UInt8.toNat) parts := by
  induction left generalizing parts begin with
  | zero =>
    match parts, read with
    | token :: rest, read =>
      have checked := parseV4Components_checked read
      rw [parseV4Components, if_neg checked.plain, if_neg checked.valid, if_neg checked.inside] at read
      match rest, read with
      | [], read =>
        cases read
        exact .cons checked.numeral .nil
  | succ left ih =>
    match parts, read with
    | token :: rest, read =>
      have checked := parseV4Components_checked read
      rw [parseV4Components, if_neg checked.plain, if_neg checked.valid, if_neg checked.inside] at read
      match rest, read with
      | next :: rest, read =>
        cases later : parseV4Components size offset left (next :: rest) (begin + token.length + 1) with
        | error error => simp [later, Except.map] at read
        | ok found =>
          simp only [later, Except.map, Except.ok.injEq] at read
          rw [← read]
          exact .cons checked.numeral (ih later)

theorem parseV4_iff : parseV4 text offset = .ok octets ↔ DottedQuad octets text := by
  constructor
  · intro read
    exact ⟨text.splitOn 0x2E, parseV4Components_numerals read, (intercalate_splitOn _).symm⟩
  · intro quad
    rw [Separated.eq quad (by decide)]
    exact parseV4_ok octets offset

end

section

theorem word_bytes (high low : UInt8) : wordBytes (word high low) = [high, low] := by
  have split : word high low = high.toNat * 2 ^ 8 + low.toNat := by
    unfold word
    rw [← shiftLeft_add_eq_or_of_lt low.toNat_lt, shiftLeft_eq]
  have last : word high low &&& 0xFF = word high low % 2 ^ 8 := and_two_pow_sub_one_eq_mod _ 8
  have inside := low.toNat_lt
  have lower : (high.toNat * 2 ^ 8 + low.toNat) % 2 ^ 8 = low.toNat := by omega
  have upper : (high.toNat * 2 ^ 8 + low.toNat) / 2 ^ 8 = high.toNat := by omega
  rw [wordBytes, last, shiftRight_eq_div_pow, split, lower, upper, UInt8.ofNat_toNat, UInt8.ofNat_toNat]

theorem words_bytes {n : Nat} {bytes : Bytes} (even : bytes.length = 2 * n) :
    (words bytes).length = n ∧ (words bytes).flatMap wordBytes = bytes := by
  induction n generalizing bytes with
  | zero =>
    rw [eq_nil_of_length_eq_zero even]
    exact ⟨rfl, rfl⟩
  | succ n ih =>
    match bytes, even with
    | high :: low :: rest, even =>
      have shorter : rest.length = 2 * n := by
        simp only [length_cons] at even
        omega
      obtain ⟨count, same⟩ := ih shorter
      rw [words, length_cons, count, flatMap_cons, same, word_bytes]
      exact ⟨rfl, rfl⟩

variable {dotted : Bool} {parts : List Bytes} {bytes text : Bytes} {ws : List Nat} {offset begin : Nat}

theorem HexGroup.value_lt (hex : HexGroup text) : digitsValue 16 text < 2 ^ 16 := by
  rw [digitsValue_eq, ← reverse_reverse (map _ _), bigEndian_reverse]
  have digits : ∀ d ∈ (text.map fun b => (digitValue 16 b).getD 0).reverse, d < 16 := by
    intro d mem
    obtain ⟨b, inside, rfl⟩ := mem_map.mp (mem_reverse.mp mem)
    obtain ⟨d, found⟩ := Option.isSome_iff_exists.mp (hex.digits b inside)
    rw [found]
    exact digitValue_lt found
  apply lt_of_lt_of_le (ofDigits_lt_base_pow_length (by decide) digits)
  rw [length_reverse, length_map]
  exact Nat.pow_le_pow_right (n := 16) (by decide) hex.short

theorem wordBytes_group (hex : HexGroup text) : wordBytes (digitsValue 16 text) = groupBytes text := by
  have small := hex.value_lt
  simp only [wordBytes, groupBytes, shiftRight_eq_div_pow]
  rw [show 0xFF = 2 ^ 8 - 1 by rfl, and_two_pow_sub_one_eq_mod]

theorem flatMap_words (even : bytes.length % 2 = 0) : (words bytes).flatMap wordBytes = bytes :=
  (words_bytes (n := bytes.length / 2) (by omega)).2

theorem HexGroup.plain (hex : HexGroup text) {b : UInt8} (other : digitValue 16 b = none) : b ∉ text := by
  intro mem
  have digit := hex.digits b mem
  rw [other] at digit
  contradiction

theorem parseV6Words_groups (read : parseV6Words offset dotted parts begin = .ok ws) (nonempty : parts ≠ []) :
    Groups dotted parts (ws.flatMap wordBytes) := by
  induction parts generalizing begin ws with
  | nil => contradiction
  | cons token rest ih =>
    rw [parseV6Words] at read
    by_cases some_ : token = []
    · rw [if_pos some_] at read
      cases read
    rw [if_neg some_] at read
    by_cases dot : 0x2E ∈ token
    · rw [if_pos dot] at read
      split at read
      · cases read
      rename_i last
      obtain ⟨allowed, alone⟩ : dotted = true ∧ rest = [] := by simpa using last
      cases v4 : parseV4 token (offset + begin) with
      | error error => simp [v4, Except.map] at read
      | ok octets =>
        simp only [v4, Except.map, Except.ok.injEq] at read
        rw [← read, flatMap_words (by rw [octets.property]; rfl), alone]
        exact .quad allowed (parseV4_iff.mp v4)
    · rw [if_neg dot] at read
      by_cases long : 4 < token.length
      · rw [if_pos long] at read
        cases read
      rw [if_neg long] at read
      by_cases bad : (fromChars 16 unsignedLimit token).ec ≠ .none ∨ (fromChars 16 unsignedLimit token).used ≠ token.length
      · exact absurd read (by simp [bad])
      rw [not_or, not_not, not_not] at bad
      obtain ⟨_, digits, value⟩ := fromChars_complete bad.2 (by simp [bad.1]) (by simp [bad.1])
      have hex : HexGroup token := ⟨some_, not_lt.mp long, digits⟩
      simp only [bad.1, bad.2, value, ne_eq, not_true_eq_false, or_false, if_false] at read
      cases later : parseV6Words offset dotted rest (begin + token.length + 1) with
      | error error => simp [later, Except.map] at read
      | ok found =>
        simp only [later, Except.map, Except.ok.injEq] at read
        rw [← read, flatMap_cons, wordBytes_group hex]
        cases rest with
        | nil =>
          cases later
          exact .group hex
        | cons next rest => exact .more hex (ih later (cons_ne_nil _ _))

theorem parseV6Words_group (hex : HexGroup text) (rest : List Bytes) : parseV6Words offset dotted (text :: rest) begin =
      (parseV6Words offset dotted rest (begin + text.length + 1)).map (digitsValue 16 text :: ·) := by
  have read : fromChars 16 unsignedLimit text = ⟨digitsValue 16 text, text.length, .none⟩ :=
    fromChars_digits hex.nonempty hex.digits (lt_trans hex.value_lt (by decide))
  rw [parseV6Words, if_neg hex.nonempty, if_neg (hex.plain (by decide)), if_neg (not_lt.mpr hex.short)]
  simp [read]

theorem DottedQuad.ne_nil {octets : Octets v4Size} (quad : DottedQuad octets text) : text ≠ [] := by
  obtain rfl := Separated.eq quad (by decide)
  apply dotted_ne_nil
  apply ne_nil_of_length_pos
  rw [length_map, octets.property]
  decide

theorem DottedQuad.chars {octets : Octets v4Size} (quad : DottedQuad octets text) :
    ∀ b ∈ text, b = 0x2E ∨ (digitValue 16 b).isSome := fun _ mem =>
  (Separated.mem quad (by decide) (by decide) mem).imp_right digit_hex

theorem DottedQuad.dot {octets : Octets v4Size} (quad : DottedQuad octets text) : (0x2E : UInt8) ∈ text := by
  obtain rfl := Separated.eq quad (by decide)
  obtain ⟨octets, four⟩ := octets
  match octets, four with
  | first :: second :: rest, _ => simp

section

variable (groups : Groups dotted parts bytes)

include groups

theorem Groups.read : ∃ ws, parseV6Words offset dotted parts begin = .ok ws ∧ ws.flatMap wordBytes = bytes := by
  induction groups generalizing begin with
  | @group text hex =>
    refine ⟨[digitsValue 16 text], ?_, by rw [flatMap_singleton, wordBytes_group hex]⟩
    rw [parseV6Words_group hex]
    rfl
  | @quad text octets allowed quad =>
    refine ⟨words octets.val, ?_, flatMap_words (by rw [octets.property]; rfl)⟩
    rw [parseV6Words, if_neg quad.ne_nil, if_pos quad.dot, parseV4_iff.mpr quad, allowed]
    rfl
  | @more text later bytes hex rest ih =>
    obtain ⟨ws, read, rfl⟩ := @ih (begin + text.length + 1)
    refine ⟨digitsValue 16 text :: ws, ?_, by rw [flatMap_cons, wordBytes_group hex]⟩
    rw [parseV6Words_group hex, read]
    rfl

theorem Groups.chars : parts ≠ [] ∧ ∀ part ∈ parts, part ≠ [] ∧ ∀ b ∈ part, b = 0x2E ∨ (digitValue 16 b).isSome := by
  induction groups with
  | group hex =>
    refine ⟨cons_ne_nil _ _, fun part mem => ?_⟩
    rw [mem_singleton.mp mem]
    exact ⟨hex.nonempty, fun b inside => .inr (hex.digits b inside)⟩
  | quad allowed quad =>
    refine ⟨cons_ne_nil _ _, fun part mem => ?_⟩
    rw [mem_singleton.mp mem]
    exact ⟨quad.ne_nil, quad.chars⟩
  | more hex rest ih =>
    refine ⟨cons_ne_nil _ _, fun part mem => ?_⟩
    rcases mem_cons.mp mem with rfl | mem
    · exact ⟨hex.nonempty, fun b inside => .inr (hex.digits b inside)⟩
    · exact ih.2 part mem

theorem Groups.plain : ∀ part ∈ parts, part ≠ [] ∧ (0x3A : UInt8) ∉ part := by
  intro part mem
  obtain ⟨nonempty, chars⟩ := groups.chars.2 part mem
  exact ⟨nonempty, fun colon => absurd (chars _ colon) (by decide)⟩

theorem Groups.text_ne_nil : [0x3A].intercalate parts ≠ [] := by
  obtain ⟨part, rest, rfl⟩ := exists_cons_of_ne_nil groups.chars.1
  obtain ⟨b, more, rfl⟩ := exists_cons_of_ne_nil (groups.plain part mem_cons_self).1
  rw [intercalate_cons_cons_left]
  exact cons_ne_nil _ _

end

theorem parseV6Side_iff :
    (∃ ws, parseV6Side text offset dotted = .ok ws ∧ ws.flatMap wordBytes = bytes) ↔ Side dotted text bytes := by
  constructor
  · rintro ⟨ws, read, rfl⟩
    unfold parseV6Side at read
    split at read
    · rename_i empty
      cases read
      rw [empty]
      exact .empty
    · have groups := parseV6Words_groups read (splitOn_ne_nil _ _)
      rw [← @intercalate_splitOn _ text _ _ 0x3A]
      exact .groups groups
  · intro side
    cases side with
    | empty => exact ⟨[], rfl, rfl⟩
    | groups groups =>
      unfold parseV6Side
      rw [if_neg groups.text_ne_nil, splitOn_intercalate _ (fun part mem => (groups.plain part mem).2) groups.chars.1]
      exact groups.read

theorem Side.chars (side : Side dotted text bytes) : ∀ b ∈ text, b = 0x3A ∨ b = 0x2E ∨ (digitValue 16 b).isSome := by
  intro b mem
  cases side with
  | empty => contradiction
  | groups groups =>
    rcases mem_joined mem with same | ⟨part, among, inside⟩
    · exact .inl same
    · exact .inr ((groups.chars.2 part among).2 b inside)

theorem Groups.colon (groups : Groups dotted parts bytes) (long : 4 < bytes.length) : 0x3A ∈ [0x3A].intercalate parts := by
  cases groups with
  | group hex => exact absurd long (by simp [groupBytes])
  | @quad _ octets allowed quad => exact absurd long (by rw [octets.property]; decide)
  | more hex rest =>
    obtain ⟨next, later, rfl⟩ := exists_cons_of_ne_nil rest.chars.1
    rw [intercalate_cons_cons]
    simp

theorem AddressText.chars {a : IpAddress} (address : AddressText a text) : ∀ b ∈ text, b = 0x3A ∨ b = 0x2E ∨ (digitValue 16 b).isSome := by
  cases address with
  | v4 family quad bytes => exact fun b mem => .inr (quad.chars b mem)
  | full family groups => exact (Side.groups groups).chars
  | compressed family before after =>
    intro b mem
    rcases mem_append.mp mem with first | last
    · rcases mem_append.mp first with left | middle
      · exact before.chars b left
      · exact .inl (by simpa using middle)
    · exact after.chars b last

theorem Side.find (side : Side dotted text bytes) (tail : Bytes) :
    find [0x3A, 0x3A] (text ++ tail) = (find [0x3A, 0x3A] tail).map (· + text.length) := by
  cases side with
  | empty => simp
  | groups groups => exact find_joined groups.plain tail

end

section

variable {a : IpAddress} {text : Bytes}

theorem parse_v6 (colon : 0x3A ∈ text) (percent : 0x25 ∉ text) : parse text = parseV6 text := by
  unfold parse
  rw [if_neg (ne_nil_of_mem colon), idxOf?_eq_none_iff.mpr percent]
  exact if_pos colon

def v4Address (octets : Octets v4Size) : IpAddress :=
  { family := .v4, bytes := ⟨octets.val ++ replicate 12 0, by rw [length_append, octets.property]; rfl⟩ }

theorem wordBytes_length (ws : List Nat) : (ws.flatMap wordBytes).length = 2 * ws.length := by
  induction ws with
  | nil => rfl
  | cons w ws ih =>
    rw [flatMap_cons, length_append, ih, length_cons]
    show 2 + _ = _
    omega

theorem wordBytes_zeros (n : Nat) : (replicate n 0).flatMap wordBytes = replicate (2 * n) 0 := by
  induction n with
  | zero => rfl
  | succ n ih =>
    rw [replicate_succ, flatMap_cons, ih, mul_succ, replicate_succ, replicate_succ]
    rfl

theorem assemble_iff {left right : List Nat} (fits : left.length + right.length ≤ 8) :
    assemble left right fits = a ↔ a.family = .v6 ∧ a.bytes.val = left.flatMap wordBytes ++
      replicate (16 - ((left.flatMap wordBytes).length + (right.flatMap wordBytes).length)) 0 ++ right.flatMap wordBytes := by
  have zeros : 2 * (8 - (left.length + right.length)) = 16 - (2 * left.length + 2 * right.length) := by omega
  rw [wordBytes_length, wordBytes_length, ← zeros, ← wordBytes_zeros, ← flatMap_append, ← flatMap_append]
  constructor
  · rintro rfl
    exact ⟨rfl, rfl⟩
  · obtain ⟨_, bytes, size⟩ := a
    rintro ⟨rfl, same⟩
    rw [assemble, mk.injEq]
    exact ⟨rfl, Subtype.ext same.symm⟩

theorem parseV6_text (read : parseV6 text = .ok a) : AddressText a text := by
  unfold parseV6 at read
  split at read
  · cases left : parseV6Side text 0 true with
    | error error => simp [left, Bind.bind, Except.bind] at read
    | ok ws =>
      have nothing : parseV6Side [] 0 true = .ok [] := rfl
      simp only [left, nothing, Bind.bind, Except.bind] at read
      split at read
      · rename_i eight
        obtain ⟨family, bytes⟩ := (assemble_iff _).mp (Except.ok.inj read)
        have size := wordBytes_length ws
        have side := parseV6Side_iff.mp ⟨ws, left, rfl⟩
        generalize ws.flatMap wordBytes = out at bytes size side
        have long : out.length = 16 := by rw [size, show ws.length = 8 from eight]
        cases side with
        | empty => simp at long
        | groups groups =>
          refine .full family ?_
          rw [bytes, flatMap_nil, append_nil, long, length_nil, replicate_zero, append_nil]
          exact groups
      · cases read
  · rename_i compression found
    split at read
    · cases read
    cases left : parseV6Side (text.take compression) 0 false with
    | error error => simp [left, Bind.bind, Except.bind] at read
    | ok before =>
      cases right : parseV6Side (text.drop (compression + 2)) (compression + 2) true with
      | error error => simp [left, right, Bind.bind, Except.bind] at read
      | ok after =>
        simp only [left, right, Bind.bind, Except.bind] at read
        split at read
        · rename_i fewer
          obtain ⟨family, bytes⟩ := (assemble_iff _).mp (Except.ok.inj read)
          have pieces : text = text.take compression ++ [0x3A, 0x3A] ++ text.drop (compression + 2) :=
            (find_split found).trans (append_assoc _ _ _).symm
          rw [pieces]
          refine .compressed family (parseV6Side_iff.mp ⟨before, left, rfl⟩) (parseV6Side_iff.mp ⟨after, right, rfl⟩) ?_ bytes
          rw [wordBytes_length, wordBytes_length]
          omega
        · cases read

theorem AddressText.parsed (address : AddressText a text) : parse text = .ok a := by
  have percent : 0x25 ∉ text := fun mem => absurd (address.chars _ mem) (by decide)
  cases address with
  | @v4 _ octets family quad bytes =>
    have same : v4Address octets = a := by
      obtain ⟨_, bytes', size⟩ := a
      obtain rfl := family
      rw [v4Address, mk.injEq]
      exact ⟨rfl, Subtype.ext bytes.symm⟩
    have colon : 0x3A ∉ text := fun mem => absurd (quad.chars _ mem) (by decide)
    rw [← same]
    unfold parse
    rw [if_neg quad.ne_nil, idxOf?_eq_none_iff.mpr percent]
    simp only [if_neg colon, parseV4_iff.mpr quad]
    rfl
  | @full parts family groups =>
    have side : Side true ([0x3A].intercalate parts) a.bytes.val := .groups groups
    rw [parse_v6 (groups.colon (by rw [a.bytes.property]; decide)) percent]
    obtain ⟨ws, read, bytes⟩ : ∃ ws, parseV6Side _ 0 true = .ok ws ∧ ws.flatMap wordBytes = _ := parseV6Side_iff.mpr side
    have eight : ws.length + ([] : List Nat).length = 8 := by
      have size := wordBytes_length ws
      rw [bytes, a.bytes.property] at size
      change 16 = 2 * ws.length at size
      show ws.length = 8
      omega
    have single : find [0x3A, 0x3A] ([0x3A].intercalate parts) = none := by
      have apart := side.find []
      rwa [append_nil] at apart
    unfold parseV6
    rw [single]
    simp only [read]
    refine (dif_pos eight).trans (congrArg Except.ok ((assemble_iff _).mpr ⟨family, ?_⟩))
    rw [bytes, a.bytes.property]
    show a.bytes.val = a.bytes.val ++ [] ++ []
    rw [append_nil, append_nil]
  | @compressed left right leftBytes rightBytes family before after fewer bytes =>
    have colon : 0x3A ∈ left ++ [0x3A, 0x3A] ++ right := by simp
    rw [parse_v6 colon percent]
    obtain ⟨ws, read, rfl⟩ : ∃ ws, parseV6Side left 0 false = .ok ws ∧ ws.flatMap wordBytes = _ := parseV6Side_iff.mpr before
    obtain ⟨ws', read', rfl⟩ : ∃ ws, parseV6Side right (left.length + 2) true = .ok ws ∧ ws.flatMap wordBytes = _ :=
      parseV6Side_iff.mpr after
    have first : find [0x3A, 0x3A] (left ++ [0x3A, 0x3A] ++ right) = some left.length := by
      rw [append_assoc, before.find, find_prefix, Option.map_some, zero_add]
    have single : find [0x3A, 0x3A] right = none := by
      have apart := after.find []
      rwa [append_nil] at apart
    have start : (left ++ [0x3A, 0x3A] ++ right).take left.length = left := by rw [append_assoc, take_left]
    have rest : (left ++ [0x3A, 0x3A] ++ right).drop (left.length + 2) = right := drop_left' (by simp)
    have few : ws.length + ws'.length < 8 := by
      rw [wordBytes_length, wordBytes_length] at fewer
      omega
    unfold parseV6
    rw [first]
    simp only [start, rest, single, read, read']
    exact (dif_pos few).trans (congrArg Except.ok ((assemble_iff _).mpr ⟨family, bytes⟩))

theorem parse_grammar (text : Bytes) (a : IpAddress) : parse text = .ok a ↔ AddressText a text := by
  refine ⟨fun read => ?_, AddressText.parsed⟩
  unfold parse at read
  split at read
  · cases read
  split at read
  · cases read
  split at read
  · exact parseV6_text read
  cases v4 : parseV4 text 0 with
  | error error => simp [v4, Except.map] at read
  | ok octets =>
    simp only [v4, Except.map, Except.ok.injEq] at read
    rw [← read]
    exact .v4 rfl (parseV4_iff.mp v4) rfl

end

end NginBase.Net
