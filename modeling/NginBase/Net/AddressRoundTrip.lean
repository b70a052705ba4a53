import NginBase.Net.AddressGrammar

namespace NginBase.Net

open Library CharConv IpAddress List Nat UInt8

section

variable {base k : Nat} {separator : UInt8} {numbers : List Nat}

theorem joined_length (large : 1 < base) (positive : 0 < k) (small : ∀ number ∈ numbers, number < base ^ k) :
    ([separator].intercalate (numbers.map (toChars base))).length ≤ (k + 1) * numbers.length := by
  induction numbers with
  | nil => simp
  | cons number rest ih =>
    have first := length_toChars large positive (small number mem_cons_self)
    have later := ih fun number mem => small number (mem_cons_of_mem _ mem)
    cases rest with
    | nil =>
      simp only [map_cons, map_nil, intercalate_singleton, length_singleton]
      omega
    | cons next rest =>
      rw [map_cons, map_cons, intercalate_cons_cons, ← map_cons, length_append, length_append,
        length_singleton, length_cons, mul_add]
      omega

end

section

theorem word_lt (high low : UInt8) : word high low < 2 ^ 16 := by
  apply or_lt_two_pow
  · rw [shiftLeft_eq]
    have := high.toNat_lt
    omega
  · exact lt_trans low.toNat_lt (by decide)

theorem words_lt (bytes : Bytes) : ∀ word ∈ words bytes, word < 2 ^ 16 := by
  intro w mem
  induction bytes using words.induct with
  | case1 high low rest ih =>
    rcases mem_cons.mp mem with rfl | later
    · exact word_lt high low
    · exact ih later
  | case2 bytes short =>
    rw [words] at mem
    · contradiction
    · exact short

variable {number : Nat} {numbers : List Nat} {dotted : Bool} {text : Bytes}

theorem numeral_group (numeral : Numeral 16 number text) (small : number < 2 ^ 16) :
    HexGroup text ∧ groupBytes text = wordBytes number := by
  have hex : HexGroup text := by
    refine ⟨numeral.nonempty, ?_, fun b mem => (numeral.digits b mem).1⟩
    rw [numeral.eq_toChars (by decide)]
    exact length_toChars (by decide) (by decide) small
  rw [← wordBytes_group hex, numeral.value]
  exact ⟨hex, rfl⟩

theorem numerals_groups {parts : List Bytes} (all : Forall₂ (Numeral 16) numbers parts)
    (small : ∀ number ∈ numbers, number < 2 ^ 16) (nonempty : numbers ≠ []) : Groups dotted parts (numbers.flatMap wordBytes) := by
  induction all with
  | nil => contradiction
  | cons first rest ih =>
    obtain ⟨hex, same⟩ := numeral_group first (small _ mem_cons_self)
    rw [flatMap_cons, ← same]
    cases rest with
    | nil =>
      rw [flatMap_nil, append_nil]
      exact .group hex
    | cons second rest => exact .more hex (ih (fun number mem => small number (mem_cons_of_mem _ mem)) (cons_ne_nil _ _))

theorem Separated.side (all : Separated 16 0x3A numbers text) (small : ∀ number ∈ numbers, number < 2 ^ 16) :
    Side dotted text (numbers.flatMap wordBytes) := by
  obtain ⟨parts, all, rfl⟩ := all
  cases numbers with
  | nil =>
    cases all
    exact .empty
  | cons number numbers => exact .groups (numerals_groups all small (cons_ne_nil _ _))

end

section

variable {a : IpAddress} {text : Bytes}

theorem words_length (a : IpAddress) : (words a.bytes.val).length = 8 := (words_bytes a.bytes.property).1

theorem restored {run : ZeroRun} {words : List Nat} (zeros : run.Zeros words) :
    words.take run.begin ++ replicate run.length 0 ++ words.drop (run.begin + run.length) = words := by
  have middle : replicate run.length 0 = (words.drop run.begin).take run.length := by
    apply ext_getElem?
    intro i
    by_cases low : i < run.length
    · rw [getElem?_replicate_of_lt low, getElem?_take_of_lt low, getElem?_drop]
      exact (zeros.zero _ (Nat.le_add_right _ _) (Nat.add_lt_add_left low _)).symm
    · rw [getElem?_eq_none (by rw [length_replicate]; omega), getElem?_eq_none (by simp; omega)]
  rw [middle, append_assoc, ← drop_drop, take_append_drop, take_append_drop]

def IpAddress.active (a : IpAddress) : Octets v4Size := ⟨a.bytes.val.take v4Size, by simp [a.bytes.property, v6Size, v4Size]⟩

theorem IpAddress.Canonical.dotted (canonical : a.Canonical text) (family : a.family = .v4) :
    Separated 10 0x2E (a.active.val.map toNat) text := by
  cases canonical with
  | v4 _ dotted => exact dotted
  | mapped other => rw [family] at other; contradiction
  | words other => rw [family] at other; contradiction

theorem IpAddress.Canonical.address (canonical : a.Canonical text) (family : a.family = .v6) : AddressText a text := by
  cases canonical with
  | v4 other => rw [family] at other; contradiction
  | @mapped dotted _ mapped separated =>
    let octets : Octets v4Size := ⟨a.bytes.val.drop 12, by rw [length_drop, a.bytes.property]; rfl⟩
    have quad : DottedQuad octets dotted := separated
    have hex : HexGroup [0x66, 0x66, 0x66, 0x66] := ⟨cons_ne_nil _ _, by decide, by decide +kernel⟩
    have value : groupBytes [0x66, 0x66, 0x66, 0x66] = [0xFF, 0xFF] := by decide +kernel
    have after : Side true ([0x66, 0x66, 0x66, 0x66, 0x3A] ++ dotted) ([0xFF, 0xFF] ++ octets.val) := by
      have groups := Side.groups (.more hex (.quad rfl quad))
      rwa [intercalate_cons_cons, intercalate_singleton, value] at groups
    have size : ([0xFF, 0xFF] ++ octets.val).length = 6 := by rw [length_append, octets.property]; rfl
    refine .compressed family .empty after (by rw [size]; decide) ?_
    rw [size, ← take_append_drop 12 a.bytes.val, mapped]
    rfl
  | words _ _ canonical =>
    have small := words_lt a.bytes.val
    have eight := words_length a
    have bytes : (Net.words a.bytes.val).flatMap wordBytes = a.bytes.val := flatMap_words (by rw [a.bytes.property]; rfl)
    cases canonical with
    | plain _ all =>
      obtain ⟨parts, all, rfl⟩ := all
      refine .full family ?_
      rw [← bytes]
      exact numerals_groups all small (ne_nil_of_length_pos (by rw [eight]; decide))
    | @compressed run _ _ first before after =>
      have inside := first.zeros.inside
      have two := first.zeros.two
      refine .compressed family (before.side fun w mem => small w (mem_of_mem_take mem))
        (after.side fun w mem => small w (mem_of_mem_drop mem)) ?_ ?_
      · rw [wordBytes_length, wordBytes_length, length_take, length_drop, eight]
        omega
      · have zeros : 16 - (2 * min run.begin 8 + 2 * (8 - (run.begin + run.length))) = 2 * run.length := by omega
        rw [wordBytes_length, wordBytes_length, length_take, length_drop, eight, zeros, ← wordBytes_zeros, ← flatMap_append,
          ← flatMap_append, restored first.zeros, bytes]

def IpAddress.UnusedZero (a : IpAddress) : Prop := a.family = .v4 → a.bytes.val.drop v4Size = replicate 12 0

theorem v4Address_active_iff (family : a.family = .v4) : v4Address a.active = a ↔ a.UnusedZero := by
  obtain ⟨_, bytes, size⟩ := a
  subst family
  have split := take_append_drop v4Size bytes
  constructor
  · intro same _
    have bytes_ : bytes.take v4Size ++ replicate 12 0 = bytes := congrArg (fun a => a.bytes.val) same
    exact (append_cancel_left (bytes_.trans split.symm)).symm
  · intro unused
    rw [v4Address, mk.injEq]
    apply And.intro rfl
    apply Subtype.ext
    show bytes.take v4Size ++ replicate 12 0 = bytes
    rw [← unused rfl]
    exact split

theorem parse_canonical_iff (canonical : a.Canonical text) : parse text = .ok a ↔ a.UnusedZero := by
  by_cases family : a.family = .v4
  · rw [← v4Address_active_iff family, (AddressText.v4 rfl (canonical.dotted family) rfl : AddressText (v4Address a.active) text).parsed]
    exact ⟨Except.ok.inj, congrArg Except.ok⟩
  have v6 : a.family = .v6 := by
    cases canonical with
    | v4 same => exact absurd same family
    | mapped same => exact same
    | words same => exact same
  have unused : a.UnusedZero := fun same => absurd same family
  exact iff_of_true (canonical.address v6).parsed unused

theorem IpAddress.Canonical.length_le (canonical : a.Canonical text) : text.length ≤ 40 := by
  have octets (bytes : Bytes) : ∀ number ∈ bytes.map toNat, number < 10 ^ 3 := by
    intro number mem
    obtain ⟨octet, _, rfl⟩ := mem_map.mp mem
    exact lt_trans octet.toNat_lt (by decide)
  have size := a.bytes.property
  have eight := words_length a
  cases canonical with
  | v4 _ dotted =>
    rw [dotted.eq (by decide)]
    apply (joined_length (by decide) (by decide) (octets _)).trans
    simp only [length_map, length_take, size]
    decide
  | mapped _ _ dotted =>
    rw [dotted.eq (by decide), length_append]
    have short : ([0x2E].intercalate (((a.bytes.val.drop 12).map toNat).map (toChars 10))).length ≤ _ :=
      joined_length (by decide) (by decide) (octets _)
    simp only [length_map, length_drop, size] at short ⊢
    exact (Nat.add_le_add_left short _).trans (by decide)
  | words _ _ canonical =>
    have small : ∀ word ∈ Net.words a.bytes.val, word < 16 ^ 4 := words_lt a.bytes.val
    cases canonical with
    | plain _ all =>
      rw [all.eq (by decide)]
      apply (joined_length (by decide) (by decide) small).trans
      rw [eight]
    | @compressed run _ _ first before after =>
      have inside := first.zeros.inside
      have two := first.zeros.two
      have left : ([0x3A].intercalate (((Net.words a.bytes.val).take run.begin).map (toChars 16))).length ≤ _ :=
        joined_length (by decide) (by decide) fun w mem => small w (mem_of_mem_take mem)
      have right : ([0x3A].intercalate (((Net.words a.bytes.val).drop (run.begin + run.length)).map (toChars 16))).length ≤ _ :=
        joined_length (by decide) (by decide) fun w mem => small w (mem_of_mem_drop mem)
      rw [before.eq (by decide), after.eq (by decide)]
      simp only [length_append, length_take, length_drop, length_cons, length_nil] at left right inside ⊢
      omega

theorem IpAddress.toString_eq (valid : a.isValid = true) : a.toString = a.output := by
  have short := (output_canonical valid).length_le
  unfold toString tryFormat
  rw [valid, if_neg (by simp), if_neg (by unfold buffer; omega)]
  rfl

end

end NginBase.Net
