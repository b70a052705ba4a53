import NginBase.Text.Utf8View

namespace NginBase.Unicode

open List UInt8 Nat

def Truncated (lead : UInt8) (rest : Bytes) : Prop := ∃ units least, leadShape lead = some (units, least) ∧ rest.length + 1 < units

def Swallows (input : Bytes) : Prop := ∃ before lead rest, input = before ++ lead :: rest ∧ Truncated lead rest ∧ ∃ b ∈ rest, b.toNat < 0x80

theorem leadShape_high {lead : UInt8} {shape : Nat × Nat} (h : leadShape lead = some shape) : 0xC0 ≤ lead.toNat := by
  simp only [leadShape, le_iff_toNat_le, reduceToNat] at h
  split at h
  · omega
  split at h
  · omega
  split at h
  · omega
  · cases h

theorem leadShape_bounds {lead : UInt8} {units least : Nat} (h : leadShape lead = some (units, least)) : 2 ≤ units ∧ 0x80 ≤ least := by
  unfold leadShape at h
  split at h
  · cases h; decide
  split at h
  · cases h; decide
  · split at h
    · cases h; decide
    · cases h

theorem continuations_error {count : Nat} {bytes : Bytes} {codePoint index stop : Nat} (enough : count ≤ bytes.length)
    (h : continuations count bytes codePoint index = .error stop) :
    ∃ tail rest, bytes = tail ++ rest ∧ stop = index + tail.length ∧ ∀ b ∈ tail, 0x80 ≤ b.toNat ∧ b.toNat < 0xC0 := by
  induction count generalizing bytes codePoint index with
  | zero => cases h
  | succ count ih =>
    cases bytes with
    | nil => cases enough
    | cons byte bytes =>
      unfold continuations at h
      split at h
      · cases h
        exact ⟨[], byte :: bytes, rfl, rfl, by simp⟩
      rename_i continues
      obtain ⟨tail, rest, rfl, rfl, inside⟩ := ih (le_of_succ_le_succ enough) h
      refine ⟨byte :: tail, rest, rfl, ?_, forall_mem_cons.mpr ⟨(continuation_iff byte).mp (not_not.mp continues), inside⟩⟩
      rw [length_cons]
      omega

theorem continuations_all {count : Nat} {bytes : Bytes} {codePoint index result : Nat}
    (h : continuations count bytes codePoint index = .ok result) :
    ∃ tail rest, bytes = tail ++ rest ∧ tail.length = count ∧ ∀ b ∈ tail, 0x80 ≤ b.toNat ∧ b.toNat < 0xC0 := by
  induction count generalizing bytes codePoint index with
  | zero => exact ⟨[], bytes, rfl, rfl, by simp⟩
  | succ count ih =>
    obtain ⟨byte, rest, rfl, low, high, h⟩ := continuations_ok h
    obtain ⟨tail, rest, rfl, length, inside⟩ := ih h
    exact ⟨byte :: tail, rest, rfl, by rw [length_cons, length], forall_mem_cons.mpr ⟨⟨low, high⟩, inside⟩⟩

/-- What one decoding consumes: an ASCII character, a lead byte with continuation bytes, or a truncated text as a whole. -/
inductive Consumes : Bytes → Nat → DecodeResult → Prop
  | ascii {lead : UInt8} {rest : Bytes} : lead.toNat < 0x80 → Consumes (lead :: rest) 1 ⟨lead.toNat, 1, .none⟩
  | sequence {lead : UInt8} {tail rest : Bytes} {decoded : DecodeResult} : 0x80 ≤ lead.toNat → (∀ b ∈ tail, 0x80 ≤ b.toNat ∧ b.toNat < 0xC0) →
      ¬ Truncated lead (tail ++ rest) → (decoded.error = .none → 0x80 ≤ decoded.codePoint) →
      Consumes (lead :: (tail ++ rest)) (tail.length + 1) decoded
  | truncated {lead : UInt8} {rest : Bytes} {decoded : DecodeResult} : Truncated lead rest → decoded.error ≠ .none →
      Consumes (lead :: rest) (rest.length + 1) decoded

theorem decodeUtf8_consumes {input : Bytes} (some : input ≠ []) : Consumes input (advance decodeUtf8 input) (decodeUtf8 input) := by
  cases input with
  | nil => exact absurd rfl some
  | cons lead rest =>
    by_cases ascii : lead ≤ 0x7F
    · have small : lead.toNat < 0x80 := lt_succ_of_le (le_iff_toNat_le.mp ascii)
      have decoded : decodeUtf8 (lead :: rest) = ⟨lead.toNat, 1, .none⟩ := by rw [decodeUtf8, if_pos ascii]
      rw [advance, decoded]
      exact .ascii small
    · have high : 0x80 ≤ lead.toNat := by
        exact Nat.lt_of_not_le ascii
      have unfolded := decodeUtf8.eq_2 lead rest
      rw [if_neg ascii] at unfolded
      cases shape : leadShape lead with
      | none =>
        rw [shape] at unfolded
        have whole : ¬ Truncated lead ([] ++ rest) := by
          rintro ⟨units, least, found, _⟩
          rw [shape] at found
          cases found
        rw [advance, unfolded]
        exact .sequence high (by simp) whole (by simp)
      | some shaped =>
        obtain ⟨units, least⟩ := shaped
        rw [shape] at unfolded
        dsimp only at unfolded
        by_cases short : rest.length + 1 < units
        · rw [if_pos short] at unfolded
          have consumed : advance decodeUtf8 (lead :: rest) = rest.length + 1 := by
            rw [advance, unfolded]
            exact min_self _
          rw [consumed, unfolded]
          exact .truncated ⟨units, least, shape, short⟩ (by simp)
        · rw [if_neg short] at unfolded
          have complete : ¬ Truncated lead rest := by
            rintro ⟨units', least', found, less⟩
            rw [shape] at found
            cases found
            exact short less
          obtain ⟨two, least'⟩ := leadShape_bounds shape
          cases folded : continuations (units - 1) rest (lead.toNat &&& (1 <<< (8 - units - 1) - 1)) 1 with
          | error index =>
            rw [folded] at unfolded
            obtain ⟨tail, rest', rfl, rfl, inside⟩ := continuations_error (by omega) folded
            have consumed : advance decodeUtf8 (lead :: (tail ++ rest')) = tail.length + 1 := by
              rw [advance, unfolded, length_cons, length_append]
              show clampConsumed (1 + tail.length) _ = _
              rw [clampConsumed, if_neg (by omega)]
              omega
            rw [consumed, unfolded]
            exact .sequence high inside complete (by simp)
          | ok codePoint =>
            rw [folded] at unfolded
            dsimp only at unfolded
            obtain ⟨tail, rest', rfl, length, inside⟩ := continuations_all folded
            have consumed : advance decodeUtf8 (lead :: (tail ++ rest')) = tail.length + 1 := by
              have most : min units (lead :: (tail ++ rest')).length = units := by
                rw [length_cons]
                omega
              have all : (decodeUtf8 (lead :: (tail ++ rest'))).unitsConsumed = units := by
                rw [unfolded]
                split
                · rfl
                · split
                  · rfl
                  · split <;> rfl
              have positive : ¬ units = 0 := by omega
              rw [advance, all, clampConsumed, if_neg positive, most, ite_self]
              omega
            rw [consumed]
            apply Consumes.sequence high inside complete
            intro ok
            rw [unfolded] at ok ⊢
            split at ok
            · cases ok
            rename_i longest
            rw [if_neg longest]
            split at ok
            · cases ok
            rename_i scalar
            rw [if_neg scalar]
            split at ok
            · cases ok
            rename_i bound
            rw [if_neg bound]
            exact le_trans least' (not_lt.mp longest)

theorem swallows_cons (lead : UInt8) (rest : Bytes) : Swallows (lead :: rest) ↔ (Truncated lead rest ∧ ∃ b ∈ rest, b.toNat < 0x80) ∨ Swallows rest := by
  constructor
  · rintro ⟨before, lead', rest', shape, short, low⟩
    cases before with
    | nil =>
      cases shape
      exact .inl ⟨short, low⟩
    | cons b before =>
      cases shape
      exact .inr ⟨before, lead', rest', rfl, short, low⟩
  · rintro (⟨short, low⟩ | ⟨before, lead', rest', rfl, short, low⟩)
    · exact ⟨[], lead, rest, rfl, short, low⟩
    · exact ⟨lead :: before, lead', rest', rfl, short, low⟩

theorem swallows_continuations {tail : Bytes} (inside : ∀ b ∈ tail, 0x80 ≤ b.toNat ∧ b.toNat < 0xC0) (rest : Bytes) :
    Swallows (tail ++ rest) ↔ Swallows rest := by
  induction tail with
  | nil => rfl
  | cons b tail ih =>
    obtain ⟨⟨_, low⟩, inside⟩ := forall_mem_cons.mp inside
    rw [cons_append, swallows_cons, ih inside]
    apply or_iff_right
    rintro ⟨⟨units, least, shape, _⟩, _⟩
    have high := leadShape_high shape
    omega

theorem not_swallows_nil : ¬ Swallows [] := by
  rintro ⟨before, lead, rest, shape, _⟩
  exact append_ne_nil_of_right_ne_nil before (cons_ne_nil lead rest) shape.symm

def asciiOf (values : List Nat) : List Nat := values.filter fun value => value < 0x80

theorem asciiOf_high {values : List Nat} (high : ∀ value ∈ values, 0x80 ≤ value) : asciiOf values = [] := by
  apply filter_eq_nil_iff.mpr
  intro value mem
  have above := high value mem
  simpa using above

theorem visited_lenient_cons {policy : ErrorPolicy} (lenient : policy ≠ .strict) (step : Nat × DecodeResult) (list : List (Nat × DecodeResult)) :
    visited policy (step :: list) = taken policy step.2 ++ visited policy list := by
  unfold visited
  rw [if_neg lenient, if_neg lenient, flatMap_cons]

theorem taken_high {policy : ErrorPolicy} {decoded : DecodeResult} (high : decoded.error = .none → 0x80 ≤ decoded.codePoint) :
    asciiOf (taken policy decoded) = [] := by
  apply asciiOf_high
  intro value mem
  unfold taken at mem
  split at mem
  · rename_i ok
    rw [mem_singleton.mp mem]
    exact high ok
  · split at mem
    · rw [mem_singleton.mp mem]
      decide
    · cases mem

theorem visited_ascii {policy : ErrorPolicy} (lenient : policy ≠ .strict) (input : Bytes) : ∀ offset,
    (¬ Swallows input ∧ asciiOf (visited policy (steps decodeUtf8 offset input)) = asciiOf (input.map toNat)) ∨
      (Swallows input ∧ (asciiOf (visited policy (steps decodeUtf8 offset input))).length < (asciiOf (input.map toNat)).length) := by
  induction input using steps_induct exactUtf8 with
  | nil =>
    intro offset
    refine .inl ⟨not_swallows_nil, ?_⟩
    unfold visited
    rw [if_neg lenient]
    rfl
  | step input some ih =>
    intro offset
    have later := ih (offset + advance decodeUtf8 input)
    rw [steps_cons exactUtf8 offset some, visited_lenient_cons lenient]
    unfold asciiOf at later ⊢
    rw [filter_append]
    generalize kept : visited policy (steps decodeUtf8 (offset + advance decodeUtf8 input) (input.drop (advance decodeUtf8 input))) = rest' at later ⊢
    have consumes := decodeUtf8_consumes some
    generalize advance decodeUtf8 input = size at consumes later kept
    generalize decodeUtf8 input = decoded at consumes
    cases consumes with
    | @ascii lead rest low =>
      have whole : ¬ Truncated lead rest := by
        rintro ⟨units, least, shape, _⟩
        have high := leadShape_high shape
        omega
      have first : filter (fun value => decide (value < 0x80)) (taken policy ⟨lead.toNat, 1, .none⟩) = [lead.toNat] := by
        rw [taken, if_pos rfl, filter_cons_of_pos (by simpa using low), filter_nil]
      rw [swallows_cons, first, map_cons, filter_cons_of_pos (by simpa using low)]
      rcases later with ⟨none, same⟩ | ⟨swallows, less⟩
      · exact .inl ⟨not_or.mpr ⟨fun short => whole short.1, none⟩, congrArg _ same⟩
      · exact .inr ⟨.inr swallows, succ_lt_succ less⟩
    | @sequence lead tail rest decoded high inside whole above =>
      have none : asciiOf ((lead :: tail).map toNat) = [] := by
        apply asciiOf_high
        exact forall_mem_map.mpr (forall_mem_cons.mpr ⟨high, fun b mem => (inside b mem).1⟩)
      have first : asciiOf (taken policy decoded) = [] := taken_high above
      unfold asciiOf at none first
      rw [← cons_append, map_append, filter_append, none, first, nil_append, nil_append, cons_append, swallows_cons,
        swallows_continuations inside]
      rw [drop_succ_cons, drop_left] at later
      have same : (Truncated lead (tail ++ rest) ∧ ∃ b ∈ tail ++ rest, b.toNat < 0x80) ∨ Swallows rest ↔ Swallows rest :=
        or_iff_right fun short => whole short.1
      rw [same]
      exact later
    | @truncated lead rest decoded short bad =>
      obtain ⟨units, least, shape, _⟩ := id short
      have high := leadShape_high shape
      have first : asciiOf (taken policy decoded) = [] := taken_high fun ok => absurd ok bad
      unfold asciiOf at first
      have empty : rest' = [] := by
        rw [← kept, drop_succ_cons, drop_length, visited, if_neg lenient]
        rfl
      rw [first, empty, map_cons, filter_cons_of_neg (by simpa using by omega)]
      cases low : filter (fun value => decide (value < 0x80)) (rest.map UInt8.toNat) with
      | nil =>
        refine .inl ⟨?_, rfl⟩
        rintro ⟨before, lead', rest', split, _, b, mem, small⟩
        have inside : b ∈ rest := by
          cases before with
          | nil =>
            cases split
            exact mem
          | cons _ before =>
            cases split
            exact mem_append_right before (mem_cons_of_mem lead' mem)
        have kept := filter_eq_nil_iff.mp low b.toNat (mem_map_of_mem inside)
        exact kept (decide_eq_true small)
      | cons value values =>
        refine .inr ⟨?_, succ_pos _⟩
        have mem : value ∈ filter (fun value => decide (value < 0x80)) (rest.map UInt8.toNat) := by
          rw [low]
          exact mem_cons_self
        obtain ⟨mapped, small⟩ := mem_filter.mp mem
        obtain ⟨b, inside, rfl⟩ := mem_map.mp mapped
        exact ⟨[], lead, rest, rfl, short, b, inside, of_decide_eq_true small⟩

def KeepsAscii (input : Bytes) (values : List Nat) : Prop := asciiOf values = asciiOf (input.map toNat)

theorem keepsAscii_iff {policy : ErrorPolicy} (lenient : policy ≠ .strict) (input : Bytes) :
    KeepsAscii input (visited policy (steps decodeUtf8 0 input)) ↔ ¬ Swallows input := by
  rcases visited_ascii lenient input 0 with ⟨none, same⟩ | ⟨swallows, less⟩
  · exact iff_of_true same none
  apply iff_of_false _ (not_not.mpr swallows)
  intro same
  rw [same] at less
  exact lt_irrefl _ less

theorem map_ofNat_toNat {codePoints : List Nat} (scalars : ∀ c ∈ codePoints, IsScalar c) :
    (codePoints.map UInt32.ofNat).map UInt32.toNat = codePoints := by
  induction codePoints with
  | nil => rfl
  | cons c codePoints ih =>
    obtain ⟨scalar, scalars⟩ := forall_mem_cons.mp scalars
    have limit := ((isScalar_iff c).mp scalar).1
    rw [map_cons, map_cons, ih scalars, UInt32.toNat_ofNat', mod_eq_of_lt (by omega)]

theorem encodeUtf16_ascii {c : Nat} (scalar : IsScalar c) : asciiOf ((encodeUtf16 c).map UInt16.toNat) = asciiOf [c] := by
  by_cases small : c ≤ 0xFFFF
  · rw [encodeUtf16_unit scalar small, map_singleton, toNat_ofNat_unit (by omega)]
  have limit := ((isScalar_iff c).mp scalar).1
  have none : asciiOf [c] = [] := asciiOf_high fun value mem => by rw [mem_singleton.mp mem]; omega
  have first := toNat_ofNat_unit (show 0xD800 + (c - 0x10000) / 1024 < 65536 by omega)
  have second := toNat_ofNat_unit (show 0xDC00 + (c - 0x10000) % 1024 < 65536 by omega)
  rw [encodeUtf16_pair scalar (by omega), none]
  apply asciiOf_high
  intro value mem
  rcases mem_cons.mp mem with rfl | last
  · omega
  rw [mem_singleton.mp last]
  omega

theorem encodeUtf16_asciiOf {codePoints : List Nat} (scalars : ∀ c ∈ codePoints, IsScalar c) :
    asciiOf ((codePoints.flatMap encodeUtf16).map UInt16.toNat) = asciiOf codePoints := by
  induction codePoints with
  | nil => rfl
  | cons c codePoints ih =>
    obtain ⟨scalar, scalars⟩ := forall_mem_cons.mp scalars
    have first := encodeUtf16_ascii scalar
    have later := ih scalars
    unfold asciiOf at first later ⊢
    rw [flatMap_cons, map_append, filter_append, first, later, ← filter_append]
    rfl

/-- A lenient decoding, by conversion or by iteration, keeps exactly the ASCII characters if and only if the text does not end in an
    incomplete sequence with one of them in it. -/
theorem lossy_decoding_ascii {policy : ErrorPolicy} (lenient : policy ≠ .strict) (input : Bytes) :
    ((∃ output, toUtf32FromUtf8 policy input = some (.ok output) ∧ KeepsAscii input (output.map UInt32.toNat)) ↔ ¬ Swallows input) ∧
    ((∃ output, toUtf16FromUtf8 policy input = some (.ok output) ∧ KeepsAscii input (output.map UInt16.toNat)) ↔ ¬ Swallows input) ∧
    ((∃ view codePoints, utf8View input policy = some view ∧ view.Visits codePoints ∧ KeepsAscii input codePoints) ↔ ¬ Swallows input) := by
  have scalars := visited_scalars policy input 0
  have keeps := keepsAscii_iff lenient input
  have collected := collect_lenient lenient (steps decodeUtf8 0 input)
  have converted : toUtf32FromUtf8 policy input = some (.ok ((visited policy (steps decodeUtf8 0 input)).map UInt32.ofNat)) := by
    rw [toUtf32FromUtf8_collect, collected, Except.map, encodeUtf32_scalars scalars]
  have converted' : toUtf16FromUtf8 policy input = some (.ok ((visited policy (steps decodeUtf8 0 input)).flatMap encodeUtf16)) := by
    have loop := convertLoop_collect exactUtf8 encodeUtf16 policy input.length input 0 [] (le_refl _)
    rw [collected] at loop
    exact loop
  refine ⟨?_, ?_, ?_⟩
  · rw [← keeps, converted]
    constructor
    · rintro ⟨output, same, kept⟩
      cases same
      rwa [map_ofNat_toNat scalars] at kept
    · intro kept
      exact ⟨_, rfl, by rwa [map_ofNat_toNat scalars]⟩
  · rw [← keeps, converted']
    constructor
    · rintro ⟨output, same, kept⟩
      cases same
      rwa [KeepsAscii, encodeUtf16_asciiOf scalars] at kept
    · intro kept
      exact ⟨_, rfl, (encodeUtf16_asciiOf scalars).trans kept⟩
  · rw [← keeps]
    constructor
    · rintro ⟨view, codePoints, made, visits, kept⟩
      rw [utf8View, if_neg lenient] at made
      cases made
      have same := visits.unique (Utf8View.visits_lenient lenient rfl)
      rwa [same] at kept
    · intro kept
      exact ⟨_, _, if_neg lenient, Utf8View.visits_lenient lenient rfl, kept⟩

theorem lossy_decoding_ascii_kept :
    ∃ output, toUtf32FromUtf8 .replace [0xC3, 0x28, 0x41] = some (.ok output) ∧ KeepsAscii [0xC3, 0x28, 0x41] (output.map UInt32.toNat) := by
  apply (lossy_decoding_ascii (fun same : ErrorPolicy.replace = .strict => nomatch same) [0xC3, 0x28, 0x41]).1.mpr
  simp [swallows_cons, not_swallows_nil, Truncated, leadShape]

theorem lossy_decoding_swallows : ¬ ∀ policy, policy ≠ .strict → ∀ input,
    (∃ output, toUtf32FromUtf8 policy input = some (.ok output) ∧ KeepsAscii input (output.map UInt32.toNat)) ∧
    (∃ output, toUtf16FromUtf8 policy input = some (.ok output) ∧ KeepsAscii input (output.map UInt16.toNat)) ∧
    ∃ view codePoints, utf8View input policy = some view ∧ view.Visits codePoints ∧ KeepsAscii input codePoints := by
  intro claim
  obtain ⟨⟨output, converted, kept⟩, _⟩ := claim .skip (by decide) [0xE2, 0x41]
  have nothing : toUtf32FromUtf8 .skip [0xE2, 0x41] = some (.ok []) := by decide
  cases converted
  have lost : asciiOf [] ≠ asciiOf [0xE2, 0x41] := by decide
  exact lost kept

end NginBase.Unicode
