import NginBase.Json.Grammar
import NginBase.Json.LexerBounds

namespace NginBase.Json

open Library Cursor Grammar List Nat

section

theorem isWhitespace_iff (b : UInt8) : isWhitespace b = true ↔ Blank b := by
  simp [isWhitespace, Blank, or_assoc]

theorem whitespace_ws (rest : Bytes) : Ws (rest.take (whitespaceLength rest)) := by
  rcases takeWhile_split isWhitespace rest with ⟨run, after, split, taken, blank, _⟩
  intro b member
  apply (isWhitespace_iff b).mp
  apply blank b
  rwa [whitespaceLength, taken, split, take_left] at member

theorem peekByte_stops {p : UInt8 → Bool} {rest : Bytes} (stop : p (peekByte rest) = false) :
    ∀ b ∈ rest.head?, p b = false := by
  intro b first
  cases rest with
  | nil => cases first
  | cons a rest =>
    cases first
    exact stop

theorem whitespaceLength_append {w rest : Bytes} (ws : Ws w) (stop : isWhitespace (peekByte rest) = false) :
    whitespaceLength (w ++ rest) = w.length := by
  have blank : ∀ b ∈ w, isWhitespace b = true := fun b member => (isWhitespace_iff b).mpr (ws b member)
  rw [whitespaceLength, takeWhile_stops blank (peekByte_stops stop)]

variable {profile : Profile} {c c' : Cursor}

theorem Cursor.skipTrivia_ws {u : Unit} (strict : profile.options.comments = .reject)
    (h : c.skipTrivia profile = .ok (u, c')) : ∃ w, Ws w ∧ c.rest = w ++ c'.rest := by
  unfold skipTrivia Json.skipTrivia triviaLoop at h
  rw [strict] at h
  by_cases slash : peekByte (c.rest.drop (whitespaceLength c.rest)) = 0x2F
  · simp [slash] at h
  · simp only [zero_add, ne_eq, slash, not_false_eq_true, if_true, Except.ok.injEq, Prod.mk.injEq] at h
    refine ⟨c.rest.take (whitespaceLength c.rest), whitespace_ws c.rest, ?_⟩
    rw [← h.2, advance_rest, take_append_drop]

theorem Cursor.skipTrivia_append (profile : Profile) {w rest : Bytes} (ws : Ws w) (stop : NoTrivia rest) (here : c.rest = w ++ rest) :
    c.skipTrivia profile = .ok ((), c.advance w.length) := by
  have length := whitespaceLength_append ws stop.1
  have slash := stop.2
  unfold skipTrivia Json.skipTrivia triviaLoop
  simp [here, length, slash]

end

section

/-- What the first pass accepts between the quotes, with whether there is an escape in it. -/
inductive Scanned : Bytes → Bool → Prop
  | nil : Scanned [] false
  | plain {b : UInt8} {s : Bytes} {escaped : Bool} (visible : 0x20 ≤ b) (quote : b ≠ 0x22) (backslash : b ≠ 0x5C)
    (rest : Scanned s escaped) : Scanned (b :: s) escaped
  | escape {letter : UInt8} {s : Bytes} {escaped : Bool} (rest : Scanned s escaped) : Scanned (0x5C :: letter :: s) true

def Visible (s : Bytes) : Prop := ∀ b ∈ s, 0x20 ≤ b ∧ b ≠ 0x22 ∧ b ≠ 0x5C

variable {escaped : Bool} {s : Bytes}

theorem Scanned.visible {after : Bytes} (bytes : Visible s) (rest : Scanned after escaped) :
    Scanned (s ++ after) escaped := by
  induction s with
  | nil => exact rest
  | cons b s ih =>
    rcases bytes b (by simp) with ⟨visible, quote, backslash⟩
    exact .plain visible quote backslash (ih fun b member => bytes b (by simp [member]))

theorem scanLoop_scanned {total fuel position n : Nat} {scan : Bytes} {before : Bool}
    (h : scanLoop total fuel scan position before = .ok (n, escaped)) :
    ∃ s after later, scan = s ++ 0x22 :: after ∧ n = position + s.length ∧ Scanned s later ∧
      escaped = (before || later) := by
  induction fuel generalizing scan position before with
  | zero => cases h
  | succ fuel ih =>
    rcases takeWhile_split (fun c : UInt8 => c ≠ 0x22 && c ≠ 0x5C) scan with ⟨run, rest, split, taken, inside, stop⟩
    unfold scanLoop at h
    simp only [findAnyByte, taken] at h
    rw [split, take_left, drop_left] at h
    cases control : run.findIdx? (· < 0x20) with
    | some i => simp [control] at h
    | none =>
      have visible : Visible run := by
        intro b member
        have printable := findIdx?_eq_none_iff.mp control b member
        have plain := inside b member
        simp only [decide_eq_false_iff_not] at printable
        simp only [Bool.and_eq_true, decide_eq_true_eq] at plain
        exact ⟨UInt8.not_lt.mp printable, plain⟩
      simp only [control] at h
      cases rest with
      | nil => cases h
      | cons next after =>
        dsimp only at h
        by_cases quote : next = 0x22
        · rw [if_pos quote] at h
          cases h
          exact ⟨run, after, false, by rw [split, quote], rfl, by simpa using Scanned.visible visible .nil, by simp⟩
        · rw [if_neg quote] at h
          cases after with
          | nil => cases h
          | cons letter scan' =>
            have backslash : next = 0x5C := by simpa [quote] using stop next rfl
            rcases ih h with ⟨s, after, later, split', length, scanned, flag⟩
            refine ⟨run ++ 0x5C :: letter :: s, after, true, ?_, ?_, Scanned.visible visible (.escape scanned), ?_⟩
            · rw [split, split', backslash]
              simp
            · simp only [length_append, length_cons]
              omega
            · rw [flag]
              simp

theorem Scanned.runs (scanned : Scanned s escaped) : Visible s ∧ escaped = false ∨
      ∃ run letter s' later, s = run ++ 0x5C :: letter :: s' ∧ Visible run ∧ Scanned s' later ∧ escaped = true := by
  induction scanned with
  | nil => exact .inl ⟨by simp [Visible], rfl⟩
  | @plain b s escaped visible quote backslash _ ih =>
    have extend {run : Bytes} (bytes : Visible run) : Visible (b :: run) := by
      intro a member
      rcases mem_cons.mp member with rfl | inside
      · exact ⟨visible, quote, backslash⟩
      · exact bytes a inside
    rcases ih with ⟨bytes, flag⟩ | ⟨run, letter, s', later, split, bytes, rest, flag⟩
    · exact .inl ⟨extend bytes, flag⟩
    · exact .inr ⟨b :: run, letter, s', later, by rw [split]; rfl, extend bytes, rest, flag⟩
  | escape rest => exact .inr ⟨[], _, _, _, rfl, by simp [Visible], rest, rfl⟩

theorem findAnyByte_append {run : Bytes} (rest : Bytes) (bytes : Visible run) (stop : ∀ b ∈ rest.head?, b = 0x22 ∨ b = 0x5C) :
    findAnyByte (run ++ rest) 0x22 0x5C = run.length := by
  unfold findAnyByte
  rw [takeWhile_stops]
  · intro b member
    simp [(bytes b member).2]
  · intro b first
    rcases stop b first with rfl | rfl <;> rfl

theorem Visible.noControl {run : Bytes} (bytes : Visible run) : run.findIdx? (· < 0x20) = none := by
  rw [findIdx?_eq_none_iff]
  intro b member
  simpa using (bytes b member).1

theorem scanLoop_append (total : Nat) (after : Bytes) {fuel : Nat} (position : Nat) (before : Bool)
    (scanned : Scanned s escaped) (enough : s.length < fuel) :
    scanLoop total fuel (s ++ 0x22 :: after) position before = .ok (position + s.length, before || escaped) := by
  induction fuel generalizing s position before escaped with
  | zero => omega
  | succ fuel ih =>
    rcases scanned.runs with ⟨bytes, rfl⟩ | ⟨run, letter, s', later, rfl, bytes, rest, rfl⟩
    · unfold scanLoop
      simp only [findAnyByte_append (0x22 :: after) bytes (by simp)]
      simp [bytes.noControl]
    · have length := ih (position + run.length + 2) true rest (by simp at enough; omega)
      unfold scanLoop
      simp only [append_assoc, cons_append,
        findAnyByte_append (0x5C :: letter :: (s' ++ 0x22 :: after)) bytes (by simp)]
      simp only [take_left, bytes.noControl, drop_left]
      rw [length]
      simp
      omega

theorem scanString_scanned {rest : Bytes} {n : Nat} (h : scanString rest = .ok (n, escaped)) :
    ∃ s after, rest = s ++ 0x22 :: after ∧ n = s.length ∧ Scanned s escaped := by
  rcases scanLoop_scanned h with ⟨s, after, later, split, length, scanned, flag⟩
  exact ⟨s, after, split, by simpa using length, by simpa [flag] using scanned⟩

theorem scanString_append (scanned : Scanned s escaped) (after : Bytes) :
    scanString (s ++ 0x22 :: after) = .ok (s.length, escaped) := by
  have enough : s.length < (s ++ 0x22 :: after).length + 1 := by
    rw [length_append]
    omega
  unfold scanString
  simpa only [zero_add, Bool.false_or] using scanLoop_append (s ++ 0x22 :: after).length after 0 false scanned enough

theorem hexValue_iff (b : UInt8) (n : Nat) : hexValue b = some n ↔ HexDigit b n := by
  have order (x y : UInt8) : x ≤ y ↔ x.toNat ≤ y.toNat := UInt8.le_iff_toNat_le
  unfold hexValue HexDigit
  simp only [order]
  split
  · simp at *
    omega
  split
  · simp at *
    omega
  split
  · simp only [Option.some.injEq]
    omega
  · simp at *
    omega

variable {text : Bytes} {unit : Nat}

theorem decodeHex4_hex (h : decodeHex4 text = some unit) :
    ∃ digits, text = digits ++ text.drop 4 ∧ Hex4 digits unit := by
  unfold decodeHex4 at h
  split at h
  · rename_i a b c d rest
    cases first : hexValue a with
    | none => simp [first] at h
    | some k =>
      cases second : hexValue b with
      | none => simp [second] at h
      | some l =>
        cases third : hexValue c with
        | none => simp [third] at h
        | some m =>
          cases fourth : hexValue d with
          | none => simp [fourth] at h
          | some n =>
            simp only [first, second, third, fourth, Option.bind_eq_bind, Option.bind_some, Option.pure_def,
              Option.some.injEq] at h
            rw [hexValue_iff] at first second third fourth
            exact ⟨[a, b, c, d], rfl, a, b, c, d, k, l, m, n, rfl, first, second, third, fourth, by omega⟩
  · cases h

variable {digits : Bytes}

theorem decodeHex4_append (hex : Hex4 digits unit) (rest : Bytes) : decodeHex4 (digits ++ rest) = some unit := by
  rcases hex with ⟨a, b, c, d, k, l, m, n, rfl, first, second, third, fourth, rfl⟩
  rw [← hexValue_iff] at first second third fourth
  simp only [List.cons_append, List.nil_append, decodeHex4, first, second, third, fourth, Option.bind_eq_bind,
    Option.bind_some, Option.pure_def, Option.some.injEq]
  omega

theorem simpleEscape_iff (letter b : UInt8) : simpleEscape letter = some b ↔ (letter, b) ∈ escapes := by
  unfold simpleEscape escapes
  repeat' split
  all_goals simp_all [eq_comm]

theorem Grammar.HexDigit.visible {b : UInt8} {n : Nat} (digit : HexDigit b n) : 0x20 ≤ b ∧ b ≠ 0x22 ∧ b ≠ 0x5C := by
  have order (x y : UInt8) : x ≤ y ↔ x.toNat ≤ y.toNat := UInt8.le_iff_toNat_le
  have differ (x : UInt8) (outside : b.toNat ≠ x.toNat) : b ≠ x := fun same => outside (same ▸ rfl)
  unfold HexDigit at digit
  simp only [order] at digit ⊢
  refine ⟨?_, differ _ ?_, differ _ ?_⟩ <;> simp at * <;> omega

theorem Grammar.Hex4.visible (hex : Hex4 digits unit) : Visible digits := by
  rcases hex with ⟨a, b, c, d, k, l, m, n, rfl, first, second, third, fourth, _⟩
  intro x member
  simp only [mem_cons, not_mem_nil, or_false] at member
  rcases member with rfl | rfl | rfl | rfl
  · exact first.visible
  · exact second.visible
  · exact third.visible
  · exact fourth.visible

theorem Grammar.Hex4.length (hex : Hex4 digits unit) : digits.length = 4 := by
  rcases hex with ⟨a, b, c, d, k, l, m, n, rfl, _⟩
  rfl

theorem Scanned.strip {after : Bytes} (bytes : Visible s) (scanned : Scanned (s ++ after) escaped) :
    Scanned after escaped := by
  induction s with
  | nil => exact scanned
  | cons b s ih =>
    have outside := (bytes b (by simp)).2.2
    generalize whole : b :: s ++ after = text at scanned
    cases scanned with
    | nil => cases whole
    | plain _ _ _ rest =>
      cases whole
      exact ih (fun b member => bytes b (by simp [member])) rest
    | escape =>
      simp only [cons_append, cons.injEq] at whole
      exact absurd whole.1 outside

theorem peekByte_pair {a b : UInt8} (first : peekByte text = a) (second : peekByte text 1 = b) (visible : b ≠ 0) :
    ∃ more, text = a :: b :: more := by
  cases text with
  | nil => exact absurd second.symm visible
  | cons a' text =>
    cases text with
    | nil => exact absurd second.symm visible
    | cons b' more => exact ⟨more, by rw [← first, ← second]; rfl⟩

theorem unicodeEscape_chars {rawLength escape n : Nat} {out : Bytes} (scanned : Scanned text escaped)
    (h : unicodeEscape rawLength escape text = .ok (out, n)) : (∃ later, Scanned (text.drop (n - 2)) later) ∧
      ∀ decoded, Chars (text.drop (n - 2)) decoded → Chars (0x5C :: 0x75 :: text) (out ++ decoded) := by
  unfold unicodeEscape at h
  split at h
  · cases h
  cases first : decodeHex4 text with
  | none => simp [first] at h
  | some unit =>
    rcases decodeHex4_hex first with ⟨digits, split, hex⟩
    have rest : Scanned (text.drop 4) escaped := Scanned.strip hex.visible (split ▸ scanned)
    simp only [first] at h
    split at h
    · rename_i high
      split at h
      · cases h
      rename_i follows
      push Not at follows
      rcases peekByte_pair follows.2.1 follows.2.2 (by decide) with ⟨more, after⟩
      rw [after] at h rest
      dsimp only [drop] at h
      cases second : (decodeHex4 more).filter fun low => 0xDC00 ≤ low && low ≤ 0xDFFF with
      | none => simp [second] at h
      | some unit' =>
        rcases Option.filter_eq_some_iff.mp second with ⟨value, low⟩
        rcases decodeHex4_hex value with ⟨digits', split', hex'⟩
        simp only [second, Except.ok.injEq, Prod.mk.injEq] at h
        rcases h with ⟨rfl, rfl⟩
        have behind : text.drop (12 - 2) = more.drop 4 := by
          rw [show 12 - 2 = 4 + 6 by rfl, ← drop_drop, after]
          rfl
        rw [behind]
        have rest' : ∃ later, Scanned more later := by
          cases rest with
          | plain _ _ backslash _ => exact absurd rfl backslash
          | escape rest => exact ⟨_, rest⟩
        rcases rest' with ⟨later, rest'⟩
        refine ⟨⟨later, Scanned.strip hex'.visible (split' ▸ rest')⟩, fun decoded chars => ?_⟩
        rw [split, after, split', shiftLeft_eq]
        refine .pair hex high hex' ?_ chars
        simpa [LowSurrogate] using low
    · rename_i high
      split at h
      · cases h
      rename_i low
      cases h
      refine ⟨⟨escaped, rest⟩, fun decoded chars => ?_⟩
      rw [split]
      exact .unit hex high low chars

theorem decodeStep_chars {rawLength position n : Nat} {out : Bytes} (scanned : Scanned s escaped) (nonempty : s ≠ [])
    (h : decodeStep rawLength position s = .ok (out, n)) : (∃ later, Scanned (s.drop n) later) ∧
      ∀ text, Chars (s.drop n) text → Chars s (out ++ text) := by
  cases scanned with
  | nil => exact absurd rfl nonempty
  | plain visible quote backslash rest =>
    simp only [decodeStep, ne_eq, backslash] at h
    rcases h with ⟨rfl, rfl⟩
    exact ⟨⟨_, rest⟩, fun text chars => .plain visible quote backslash chars⟩
  | @escape letter s later rest =>
    simp only [decodeStep, ne_eq, not_true_eq_false, if_false] at h
    cases simple : simpleEscape letter with
    | some byte =>
      simp only [simple] at h
      rcases h with ⟨rfl, rfl⟩
      exact ⟨⟨_, rest⟩, fun text chars => .escape ((simpleEscape_iff letter byte).mp simple) chars⟩
    | none =>
      simp only [simple] at h
      split at h
      · rename_i u
        subst u
        have long := (unicodeEscape_ok h).1
        have behind : (0x5C :: 0x75 :: s : Bytes).drop n = s.drop (n - 2) := by
          rw [show n = (n - 2) + 2 by omega]
          rfl
        rw [behind]
        exact unicodeEscape_chars rest h
      · cases h

theorem translate_chars {rawLength fuel position : Nat} (scanned : Scanned s escaped) (enough : s.length ≤ fuel)
    (h : translate (decodeStep rawLength) fuel position s = .ok text) : Chars s text := by
  induction fuel generalizing position s text escaped with
  | zero =>
    cases length_eq_zero_iff.mp (le_zero.mp enough)
    cases h
    exact .nil
  | succ fuel ih =>
    unfold Library.translate at h
    split at h
    · rename_i empty
      subst empty
      cases h
      exact .nil
    · rename_i nonempty
      split at h
      · cases h
      rename_i out n stepped
      rcases decodeStep_shrinking rawLength _ _ _ _ nonempty stepped with ⟨positive, _, _⟩
      rcases decodeStep_chars scanned nonempty stepped with ⟨⟨later, rest⟩, extend⟩
      cases tail : translate (decodeStep rawLength) fuel (position + n) (s.drop n) with
      | error e =>
        rw [tail] at h
        cases h
      | ok decoded =>
        rw [tail] at h
        cases h
        exact extend decoded (ih rest (by simp only [length_drop]; omega) tail)

theorem unicodeEscape_unit {rest : Bytes} (rawLength escape : Nat) (hex : Hex4 digits unit)
    (high : ¬ HighSurrogate unit) (low : ¬ LowSurrogate unit) :
    unicodeEscape rawLength escape (digits ++ rest) = .ok (Unicode.encodeUtf8 unit, 6) := by
  have long : ¬ (digits ++ rest).length < 4 := by
    rw [length_append, hex.length]
    omega
  unfold HighSurrogate at high
  unfold unicodeEscape
  rw [if_neg long, decodeHex4_append hex]
  dsimp only
  rw [if_neg high, if_neg (by simpa [LowSurrogate] using low)]

theorem unicodeEscape_pair {digits' : Bytes} {first second : Nat} (rest : Bytes) (rawLength escape : Nat)
    (hex : Hex4 digits first) (high : HighSurrogate first) (hex' : Hex4 digits' second) (low : LowSurrogate second) :
    unicodeEscape rawLength escape (digits ++ 0x5C :: 0x75 :: (digits' ++ rest)) =
      .ok (Unicode.encodeUtf8 (0x10000 + (first - 0xD800) * 0x400 + (second - 0xDC00)), 12) := by
  have long : ¬ (digits ++ 0x5C :: 0x75 :: (digits' ++ rest)).length < 4 := by
    rw [length_append, hex.length]
    omega
  have after : (digits ++ 0x5C :: 0x75 :: (digits' ++ rest)).drop 4 = 0x5C :: 0x75 :: (digits' ++ rest) :=
    drop_left' hex.length
  have enough : ¬ (0x5C :: 0x75 :: (digits' ++ rest)).length < 6 := by
    simp only [length_cons, length_append, hex'.length]
    omega
  have range : (0xDC00 ≤ second && second ≤ 0xDFFF) = true := by simpa [LowSurrogate] using low
  unfold HighSurrogate at high
  unfold unicodeEscape
  rw [if_neg long, decodeHex4_append hex]
  dsimp only
  rw [if_pos high, after, if_neg (by rintro (short | first | second); exacts [enough short, first rfl, second rfl])]
  have kept : (decodeHex4 (digits' ++ rest)).filter (fun low => 0xDC00 ≤ low && low ≤ 0xDFFF) = some second := by
    rw [decodeHex4_append hex', Option.filter, if_pos range]
  simp only [drop, kept, shiftLeft_eq]

theorem translate_of_chars (chars : Chars s text) (rawLength : Nat) {fuel : Nat} (position : Nat)
    (enough : s.length ≤ fuel) : translate (decodeStep rawLength) fuel position s = .ok text := by
  induction chars generalizing fuel position with
  | nil => cases fuel <;> rfl
  | @plain b s text visible quote backslash _ ih =>
    rw [length_cons] at enough
    have stepped : decodeStep rawLength position (b :: s) = .ok ([b], 1) := by simp [decodeStep, backslash]
    exact translate_step (by omega) (by simp) stepped (ih (position + 1) (by omega))
  | @escape letter b s text listed _ ih =>
    simp only [length_cons] at enough
    have stepped : decodeStep rawLength position (0x5C :: letter :: s) = .ok ([b], 2) := by
      simp [decodeStep, (simpleEscape_iff letter b).mpr listed]
    exact translate_step (by omega) (by simp) stepped (ih (position + 2) (by omega))
  | @unit digits s text unit hex high low _ ih =>
    simp only [length_cons, length_append] at enough
    have stepped : decodeStep rawLength position (0x5C :: 0x75 :: (digits ++ s)) = .ok (Unicode.encodeUtf8 unit, 6) :=
      unicodeEscape_unit rawLength (1 + position) hex high low
    have behind : (0x5C :: 0x75 :: (digits ++ s)).drop 6 = s := drop_left' hex.length
    refine translate_step (by omega) (by simp) stepped ?_
    rw [behind]
    exact ih (position + 6) (by omega)
  | @pair digits digits' s text first second hex high hex' low _ ih =>
    simp only [length_cons, length_append] at enough
    have stepped := unicodeEscape_pair s rawLength (1 + position) hex high hex' low
    have behind : (0x5C :: 0x75 :: (digits ++ 0x5C :: 0x75 :: (digits' ++ s))).drop 12 = s := by
      rw [show 12 = 6 + 6 by rfl, ← drop_drop]
      rw [show (0x5C :: 0x75 :: (digits ++ 0x5C :: 0x75 :: (digits' ++ s))).drop 6 = 0x5C :: 0x75 :: (digits' ++ s) from
        drop_left' hex.length]
      exact drop_left' hex'.length
    refine translate_step (by omega) (by simp) stepped ?_
    rw [behind]
    exact ih (position + 12) (by omega)

theorem Scanned.chars (scanned : Scanned s escaped) (plain : escaped = false) : Chars s s := by
  induction scanned with
  | nil => exact .nil
  | plain visible quote backslash _ ih => exact .plain visible quote backslash (ih plain)
  | escape => cases plain

theorem Grammar.Chars.scanned (chars : Chars s text) :
    ∃ escaped, Scanned s escaped ∧ (escaped = false → text = s) := by
  induction chars with
  | nil => exact ⟨false, .nil, fun _ => rfl⟩
  | plain visible quote backslash _ ih =>
    rcases ih with ⟨escaped, scanned, same⟩
    exact ⟨escaped, .plain visible quote backslash scanned, fun none => by rw [same none]⟩
  | escape _ _ ih =>
    rcases ih with ⟨escaped, scanned, _⟩
    exact ⟨true, .escape scanned, nofun⟩
  | unit hex _ _ _ ih =>
    rcases ih with ⟨escaped, scanned, _⟩
    exact ⟨true, .escape (.visible hex.visible scanned), nofun⟩
  | pair hex _ hex' _ _ ih =>
    rcases ih with ⟨escaped, scanned, _⟩
    exact ⟨true, .escape (.visible hex.visible (.escape (.visible hex'.visible scanned))), nofun⟩

variable {profile : Profile} {c c' : Cursor}

theorem Cursor.scanString_chars {token : StringToken} (scan : c.scanString profile = .ok (token, c'))
    (decoded : token.text profile = .ok text) : Chars token.raw text ∧ c.rest = 0x22 :: (token.raw ++ 0x22 :: c'.rest) := by
  unfold scanString at scan
  split at scan
  · cases scan
  rename_i quote
  split at scan
  · cases scan
  rename_i length escaped found
  rcases scanString_scanned found with ⟨s, after, split, rfl, scanned⟩
  have opened : c.rest = 0x22 :: (s ++ 0x22 :: after) := by
    cases rest : c.rest with
    | nil => simp [rest, peekByte] at quote
    | cons b rest' =>
      rw [rest] at split quote
      rw [show b = 0x22 by simpa [peekByte] using quote, ← split]
      rfl
  rw [split, take_left] at scan
  cases scan
  refine ⟨?_, ?_⟩
  · unfold StringToken.text at decoded
    cases escaped with
    | false =>
      cases decoded
      exact scanned.chars rfl
    | true =>
      simp only [Bool.true_eq_false, if_false] at decoded
      split at decoded
      · cases decoded
      rename_i result
      cases decoded
      exact translate_chars scanned (le_refl _) result
  · have behind : (0x22 :: (s ++ 0x22 :: after)).drop (1 + s.length + 1) = after := by
      rw [show 1 + s.length + 1 = s.length + 1 + 1 by omega, drop_succ_cons, ← drop_drop, drop_left]
      rfl
    rw [advance_rest, opened, behind]

theorem Cursor.scanString_append (profile : Profile) {after : Bytes} (chars : Chars s text)
    (here : c.rest = 0x22 :: (s ++ 0x22 :: after)) :
    ∃ escaped, c.scanString profile = .ok (⟨c.offset, s, escaped⟩, c.advance (1 + s.length + 1)) ∧
      StringToken.text profile ⟨c.offset, s, escaped⟩ = .ok text ∧ (c.advance (1 + s.length + 1)).rest = after := by
  rcases chars.scanned with ⟨escaped, scanned, same⟩
  refine ⟨escaped, ?_, ?_, ?_⟩
  · unfold scanString
    rw [here, if_neg (by simp [peekByte])]
    simp only [drop_succ_cons, drop_zero, Json.scanString_append scanned, take_left]
  · unfold StringToken.text
    cases escaped with
    | false => simp [same rfl]
    | true => simp [decodeString, translate_of_chars chars s.length 0 (le_refl _)]
  · rw [advance_rest, here, show 1 + s.length + 1 = s.length + 1 + 1 by omega, drop_succ_cons,
      ← drop_drop, drop_left]
    rfl

end

section

theorem isDigit_iff (b : UInt8) : isDigit b = true ↔ Digit b := by
  simp [isDigit, Digit]

structure Stops (rest : Bytes) : Prop where
  digit : isDigit (peekByte rest) = false
  dot : peekByte rest ≠ 0x2E
  lower : peekByte rest ≠ 0x65
  upper : peekByte rest ≠ 0x45

variable {rest : Bytes}

theorem digitsLength_split (digit : isDigit (peekByte rest) = true) :
    ∃ digits after, rest = digits ++ after ∧ digitsLength rest = digits.length ∧ Digits digits ∧
      digits.head? = some (peekByte rest) := by
  rcases takeWhile_split isDigit rest with ⟨digits, after, split, taken, inside, _⟩
  cases rest with
  | nil => cases digit
  | cons b rest =>
    have first : isDigit b = true := digit
    have head : digits.head? = some b := by
      rw [← taken]
      simp [first]
    refine ⟨digits, after, split, congrArg length taken, ⟨?_, ?_⟩, head⟩
    · rintro rfl
      cases head
    · intro b member
      exact (isDigit_iff b).mp (inside b member)

variable {after digits : Bytes}

theorem digitsLength_append (digits' : Digits digits) (stop : isDigit (peekByte after) = false) :
    digitsLength (digits ++ after) = digits.length := by
  unfold digitsLength
  rw [takeWhile_stops _ (peekByte_stops stop)]
  intro b member
  exact (isDigit_iff b).mpr (digits'.2 b member)

theorem peekByte_cons (b : UInt8) (rest : Bytes) : peekByte (b :: rest) = b := rfl

theorem peekByte_append {first : Bytes} (nonempty : first ≠ []) : peekByte (first ++ rest) = peekByte first := by
  cases first with
  | nil => exact absurd rfl nonempty
  | cons b first => rfl

theorem peekByte_eq {b : UInt8} (h : peekByte rest = b) (visible : b ≠ 0) : ∃ after, rest = b :: after := by
  cases rest with
  | nil => exact absurd h.symm visible
  | cons a after => exact ⟨after, by rw [← h]; rfl⟩

theorem Grammar.Digits.peek (digits' : Digits digits) : isDigit (peekByte digits) = true := by
  rcases digits' with ⟨nonempty, inside⟩
  cases digits with
  | nil => exact absurd rfl nonempty
  | cons b rest => exact (isDigit_iff b).mpr (inside b (by simp))

theorem scanInteger_integer {sign n : Nat} {body : Bytes} (h : scanInteger sign body = .ok n) :
    ∃ int after, body = int ++ after ∧ n = int.length ∧ Integer int := by
  unfold scanInteger at h
  split at h
  · rename_i zero
    rcases peekByte_eq zero (by decide) with ⟨after, rfl⟩
    split at h
    · cases h
    cases h
    refine ⟨[0x30], after, rfl, rfl, ⟨by simp, ?_⟩, fun _ => rfl⟩
    simp [Digit]
  · rename_i nonzero
    split at h
    · rename_i digit
      cases h
      rcases digitsLength_split digit with ⟨digits, after, split, length, inside, head⟩
      refine ⟨digits, after, split, length, inside, fun zero => ?_⟩
      rw [head] at zero
      exact absurd (Option.some.inj zero) nonzero
    · cases h

variable {int : Bytes}

theorem scanInteger_append (sign : Nat) (integer : Integer int) (stop : isDigit (peekByte after) = false) :
    scanInteger sign (int ++ after) = .ok int.length := by
  rcases integer with ⟨digits, zero⟩
  unfold scanInteger
  rw [peekByte_append digits.1]
  by_cases leading : peekByte int = 0x30
  · rcases peekByte_eq leading (by decide) with ⟨rest, rfl⟩
    cases zero rfl
    simp [peekByte_cons, stop]
  · rw [if_neg leading, if_pos digits.peek, digitsLength_append digits stop]

theorem scanFraction_frac {n : Nat} (h : scanFraction rest = .ok n) :
    ∃ frac after, rest = frac ++ after ∧ n = frac.length ∧ Frac frac := by
  unfold scanFraction at h
  split at h
  · rename_i dot
    rcases peekByte_eq dot (by decide) with ⟨body, rfl⟩
    split at h
    · rename_i digit
      cases h
      rcases digitsLength_split digit with ⟨digits, after, split, length, inside, _⟩
      have split : body = digits ++ after := split
      refine ⟨0x2E :: digits, after, by rw [split]; rfl, ?_, .inr ⟨digits, rfl, inside⟩⟩
      rw [length_cons]
      omega
    · cases h
  · cases h
    exact ⟨[], rest, rfl, rfl, .inl rfl⟩

variable {frac : Bytes}

theorem scanFraction_append (fraction : Frac frac) (stop : isDigit (peekByte after) = false)
    (dot : frac = [] → peekByte after ≠ 0x2E) : scanFraction (frac ++ after) = .ok frac.length := by
  unfold scanFraction
  rcases fraction with rfl | ⟨digits, rfl, inside⟩
  · simp [dot rfl]
  have first : isDigit (peekByte (digits ++ after)) = true := by
    rw [peekByte_append inside.1]
    exact inside.peek
  simp only [cons_append, peekByte_cons, if_true, drop_succ_cons, drop_zero, first,
    digitsLength_append inside stop, length_cons]
  rw [add_comm]

theorem exponentSign_split (rest : Bytes) :
    ∃ sign after, rest = sign ++ after ∧ exponentSign rest = sign.length ∧ (sign = [] ∨ sign = [0x2B] ∨ sign = [0x2D]) := by
  unfold exponentSign
  split
  · rename_i signed
    rcases signed with plus | minus
    · rcases peekByte_eq plus (by decide) with ⟨after, rfl⟩
      exact ⟨[0x2B], after, rfl, rfl, .inr (.inl rfl)⟩
    · rcases peekByte_eq minus (by decide) with ⟨after, rfl⟩
      exact ⟨[0x2D], after, rfl, rfl, .inr (.inr rfl)⟩
  · exact ⟨[], rest, rfl, rfl, .inl rfl⟩

theorem exponentSign_append {sign : Bytes} (signed : sign = [] ∨ sign = [0x2B] ∨ sign = [0x2D])
    (digit : isDigit (peekByte digits) = true) : exponentSign (sign ++ digits) = sign.length := by
  rcases signed with rfl | rfl | rfl
  · have unsigned : ¬ (peekByte digits = 0x2B ∨ peekByte digits = 0x2D) := by
      rintro (plus | minus)
      · rw [plus] at digit
        cases digit
      · rw [minus] at digit
        cases digit
    simp [exponentSign, unsigned]
  · rfl
  · rfl

theorem scanExponent_exp {n : Nat} (h : scanExponent rest = .ok n) :
    ∃ exp after, rest = exp ++ after ∧ n = exp.length ∧ Exp exp := by
  unfold scanExponent at h
  split at h
  · rename_i letter
    have first : ∃ e body, rest = e :: body ∧ (e = 0x65 ∨ e = 0x45) := by
      rcases letter with lower | upper
      · rcases peekByte_eq lower (by decide) with ⟨body, rfl⟩
        exact ⟨_, body, rfl, .inl rfl⟩
      · rcases peekByte_eq upper (by decide) with ⟨body, rfl⟩
        exact ⟨_, body, rfl, .inr rfl⟩
    rcases first with ⟨e, body, rfl, named⟩
    rcases exponentSign_split body with ⟨sign, number, rfl, length, signed⟩
    have behind : (e :: (sign ++ number)).drop (1 + sign.length) = number := by
      rw [add_comm, drop_succ_cons, drop_left]
    simp only [drop_succ_cons, drop_zero, length, behind] at h
    split at h
    · rename_i digit
      cases h
      rcases digitsLength_split digit with ⟨digits, after, rfl, length', inside, _⟩
      refine ⟨e :: (sign ++ digits), after, by simp, ?_, .inr ⟨e, sign, digits, rfl, named, signed, inside⟩⟩
      rw [length_cons, length_append]
      omega
    · cases h
  · cases h
    exact ⟨[], rest, rfl, rfl, .inl rfl⟩

variable {exp : Bytes}

theorem scanExponent_append (exponent : Exp exp) (stop : Stops after) : scanExponent (exp ++ after) = .ok exp.length := by
  unfold scanExponent
  rcases exponent with rfl | ⟨e, sign, digits, rfl, named, signed, inside⟩
  · simp [stop.lower, stop.upper]
  have first : isDigit (peekByte (digits ++ after)) = true := by
    rw [peekByte_append inside.1]
    exact inside.peek
  have length : exponentSign (sign ++ (digits ++ after)) = sign.length := exponentSign_append signed first
  have behind : (e :: (sign ++ (digits ++ after))).drop (1 + sign.length) = digits ++ after := by
    rw [add_comm, drop_succ_cons, drop_left]
  simp only [cons_append, append_assoc, peekByte_cons, named, if_true, drop_succ_cons, drop_zero,
    length, behind, first, digitsLength_append inside stop.digit, length_cons, length_append]
  congr 1
  omega

theorem signLength_split (rest : Bytes) :
    ∃ minus after, rest = minus ++ after ∧ signLength rest = minus.length ∧ Minus minus := by
  unfold signLength
  split
  · rename_i minus
    rcases peekByte_eq minus (by decide) with ⟨after, rfl⟩
    exact ⟨[0x2D], after, rfl, rfl, .inr rfl⟩
  · exact ⟨[], rest, rfl, rfl, .inl rfl⟩

theorem Grammar.Digits.unsigned (inside : Digits digits) : peekByte digits ≠ 0x2D := by
  intro minus
  have digit := inside.peek
  rw [minus] at digit
  cases digit

variable {minus : Bytes}

theorem signLength_append (sign : Minus minus) (integer : Integer int) :
    signLength (minus ++ (int ++ rest)) = minus.length := by
  rcases sign with rfl | rfl
  · have unsigned := integer.1.unsigned
    simp [signLength, peekByte_append integer.1.1, unsigned]
  · rfl

theorem scanNumber_parts {n : Nat} {floating : Bool} (h : scanNumber rest = .ok (n, floating)) :
    ∃ minus int frac exp after, rest = minus ++ int ++ frac ++ exp ++ after ∧
      n = (minus ++ int ++ frac ++ exp).length ∧ Minus minus ∧ Integer int ∧ Frac frac ∧
      Exp exp ∧ (floating = false ↔ frac = [] ∧ exp = []) := by
  rcases signLength_split rest with ⟨minus, body, rfl, length, sign⟩
  unfold scanNumber at h
  simp only [length, drop_left] at h
  split at h
  · cases h
  rcases bind_ok h with ⟨k, integer, h⟩
  rcases scanInteger_integer integer with ⟨int, tail, rfl, rfl, integer'⟩
  rcases bind_ok h with ⟨k, fraction, h⟩
  rw [drop_left] at fraction
  rcases scanFraction_frac fraction with ⟨frac, tail, rfl, rfl, fraction'⟩
  rcases bind_ok h with ⟨k, exponent, h⟩
  rw [← append_assoc, ← length_append, drop_left] at exponent
  rcases scanExponent_exp exponent with ⟨exp, tail, rfl, rfl, exponent'⟩
  cases h
  refine ⟨minus, int, frac, exp, tail, by simp, by simp [add_assoc], sign, integer', fraction', exponent', ?_⟩
  simp

theorem Grammar.Exp.stops (exponent : Exp exp) (stop : Stops after) :
    isDigit (peekByte (exp ++ after)) = false ∧ peekByte (exp ++ after) ≠ 0x2E := by
  rcases exponent with rfl | ⟨e, sign, digits, rfl, rfl | rfl, _⟩
  · exact ⟨stop.digit, stop.dot⟩
  · exact ⟨rfl, by simp [peekByte]⟩
  · exact ⟨rfl, by simp [peekByte]⟩

theorem Grammar.Frac.stops (fraction : Frac frac) (exponent : Exp exp) (stop : Stops after) :
    isDigit (peekByte (frac ++ (exp ++ after))) = false := by
  rcases fraction with rfl | ⟨digits, rfl, _⟩
  · exact (exponent.stops stop).1
  · rfl

theorem scanNumber_append (sign : Minus minus) (integer : Integer int) (fraction : Frac frac)
    (exponent : Exp exp) (stop : Stops after) :
    ∃ floating, scanNumber (minus ++ int ++ frac ++ exp ++ after) =
      .ok ((minus ++ int ++ frac ++ exp).length, floating) ∧ (floating = false ↔ frac = [] ∧ exp = []) := by
  have length : signLength (minus ++ (int ++ (frac ++ (exp ++ after)))) = minus.length := signLength_append sign integer
  have nonempty : int ++ (frac ++ (exp ++ after)) ≠ [] := by simp [integer.1.1]
  have first := scanInteger_append minus.length integer (fraction.stops exponent stop)
  have second := scanFraction_append fraction (exponent.stops stop).1 fun _ => (exponent.stops stop).2
  have third := scanExponent_append exponent stop
  have behind : (int ++ (frac ++ (exp ++ after))).drop (int.length + frac.length) = exp ++ after := by
    rw [← append_assoc, ← length_append, drop_left]
  refine ⟨frac.length ≠ 0 || exp.length ≠ 0, ?_, by simp⟩
  unfold scanNumber
  simp only [append_assoc, length, drop_left, nonempty, if_false, first, second, behind, third, ok_bind,
    pure_eq_ok, length_append, add_assoc]

theorem digitValue_digit {b : UInt8} (digit : Digit b) : digitValue 10 b = some (b.toNat - 0x30) := by
  have range : 0x30 ≤ b ∧ b ≤ 0x39 := digit
  have small : b.toNat - 0x30 < 10 := by
    have high : b.toNat ≤ 0x39 := UInt8.le_iff_toNat_le.mp digit.2
    omega
  simp only [digitValue, range, and_self, if_true, Option.filter, small, decide_true]

theorem digitsValue_decimal (inside : ∀ b ∈ digits, Digit b) : digitsValue 10 digits = decimal digits := by
  apply foldl_ext
  intro value b member
  rw [digitValue_digit (inside b member)]
  rfl

theorem fromCharsUnsigned_digits (limit : Nat) (inside : Digits digits) : fromCharsUnsigned 10 limit digits =
      if decimal digits < limit then some (decimal digits, digits.length) else none := by
  have all : digits.takeWhile (fun b => (digitValue 10 b).isSome) = digits := by
    rw [takeWhile_eq_self_iff]
    intro b member
    rw [digitValue_digit (inside.2 b member)]
    rfl
  unfold fromCharsUnsigned
  simp only [all, inside.1, if_false, digitsValue_decimal inside.2]

variable (fromChars : Bytes → FromCharsDouble)

theorem convertNumber_unsigned (integer : Integer int) (value : Scalar) : convertNumber fromChars int false = .ok value ↔
      decimal int < 2 ^ 64 ∧
        value = if decimal int ≤ 2 ^ 63 - 1 then .int64 (.ofNat (decimal int)) else .uint64 (.ofNat (decimal int)) := by
  have unsigned := integer.1.unsigned
  unfold convertNumber
  simp only [Bool.false_eq_true, if_false, unsigned, fromCharsUnsigned_digits _ integer.1]
  by_cases small : decimal int < 2 ^ 64
  · simp only [Option.filter, decide_true, if_true, small, true_and]
    by_cases positive : decimal int ≤ 2 ^ 63 - 1
    · rw [if_pos positive, if_pos positive, Except.ok.injEq, eq_comm]
    · rw [if_neg positive, if_neg positive, Except.ok.injEq, eq_comm]
  · rw [if_neg small]
    simp only [Option.filter, reduceCtorEq, small, false_and]

theorem convertNumber_signed (integer : Integer int) (value : Scalar) :
    convertNumber fromChars (0x2D :: int) false = .ok value ↔
      decimal int ≤ 2 ^ 63 ∧ value = .int64 (.ofInt (-(decimal int : Int))) := by
  unfold convertNumber fromCharsInt64
  simp only [Bool.false_eq_true, if_false, peekByte_cons, if_true, List.drop_succ_cons, List.drop_zero,
    fromCharsUnsigned_digits _ integer.1, Nat.lt_succ_iff]
  by_cases small : decimal int ≤ 2 ^ 63
  · simp only [Option.map_some, Option.filter, List.length_cons, decide_true, if_true, small, true_and,
      Except.ok.injEq, eq_comm]
  · rw [if_neg small]
    simp only [Option.map_none, Option.filter, reduceCtorEq, small, false_and]

theorem convertNumber_integer (sign : Minus minus) (integer : Integer int) (value : Scalar) :
    convertNumber fromChars (minus ++ int) false = .ok value ↔
      -2 ^ 63 ≤ signed minus int ∧ signed minus int ≤ 2 ^ 64 - 1 ∧
        value = if signed minus int ≤ 2 ^ 63 - 1 then .int64 (.ofInt (signed minus int))
          else .uint64 (.ofNat (signed minus int).toNat) := by
  rcases sign with rfl | rfl
  · rw [nil_append, convertNumber_unsigned fromChars integer]
    simp only [signed, if_true]
    generalize decimal int = n
    have range : (n : Int) ≤ 2 ^ 63 - 1 ↔ n ≤ 2 ^ 63 - 1 := by omega
    simp only [range]
    constructor
    · rintro ⟨small, rfl⟩
      exact ⟨by omega, by omega, rfl⟩
    · rintro ⟨_, small, rfl⟩
      exact ⟨by omega, rfl⟩
  · rw [singleton_append, convertNumber_signed fromChars integer]
    simp only [signed, cons_ne_nil, if_false]
    generalize decimal int = n
    have low : -(n : Int) ≤ 2 ^ 63 - 1 := by omega
    rw [if_pos low]
    constructor
    · rintro ⟨small, rfl⟩
      exact ⟨by omega, by omega, rfl⟩
    · rintro ⟨small, _, rfl⟩
      exact ⟨by omega, rfl⟩

theorem convertNumber_floating (s : Bytes) (value : Scalar) : convertNumber fromChars s true = .ok value ↔
      (fromChars s).ok = true ∧ (fromChars s).consumed = s.length ∧ (fromChars s).value.isFinite = true ∧
        value = .double (fromChars s).value := by
  unfold convertNumber
  simp only [if_true]
  split
  · rename_i finite
    simp [finite, eq_comm]
  · rename_i bad
    simp only [reduceCtorEq, false_iff]
    exact fun good => bad ⟨good.1, good.2.1, good.2.2.1⟩

theorem convertNumber_iff {floating : Bool} (sign : Minus minus) (integer : Integer int)
    (shape : floating = false ↔ frac = [] ∧ exp = []) (value : Scalar) :
    convertNumber fromChars (minus ++ int ++ frac ++ exp) floating = .ok value ↔
      if frac = [] ∧ exp = [] then -2 ^ 63 ≤ signed minus int ∧ signed minus int ≤ 2 ^ 64 - 1 ∧
          value = if signed minus int ≤ 2 ^ 63 - 1 then .int64 (.ofInt (signed minus int))
            else .uint64 (.ofNat (signed minus int).toNat) else (fromChars (minus ++ int ++ frac ++ exp)).ok = true ∧
        (fromChars (minus ++ int ++ frac ++ exp)).consumed = (minus ++ int ++ frac ++ exp).length ∧
        (fromChars (minus ++ int ++ frac ++ exp)).value.isFinite = true ∧
        value = .double (fromChars (minus ++ int ++ frac ++ exp)).value := by
  cases floating with
  | false =>
    have none := shape.mp rfl
    rw [none.1, none.2, append_nil, append_nil]
    exact convertNumber_integer fromChars sign integer value
  | true =>
    have some : ¬ (frac = [] ∧ exp = []) := fun none => by cases shape.mpr none
    rw [if_neg some]
    exact convertNumber_floating fromChars _ value

theorem readNumber_number {fromChars : Bytes → FromCharsDouble} {n : Nat} {value : Scalar}
    (h : readNumber fromChars rest = .ok (n, value)) :
    ∃ s after, rest = s ++ after ∧ n = s.length ∧ Number fromChars s value := by
  rcases bind_ok h with ⟨⟨length, floating⟩, scanned, h⟩
  rcases bind_ok h with ⟨scalar, converted, h⟩
  cases h
  rcases scanNumber_parts scanned with ⟨minus, int, frac, exp, after, rfl, rfl, sign, integer, fraction, exponent, shape⟩
  rw [take_left] at converted
  exact ⟨minus ++ int ++ frac ++ exp, after, rfl, rfl, minus, int, frac, exp, rfl, sign, integer, fraction, exponent,
    (convertNumber_iff fromChars sign integer shape value).mp converted⟩

theorem readNumber_append {fromChars : Bytes → FromCharsDouble} {s : Bytes} {value : Scalar}
    (number : Number fromChars s value) (stop : Stops after) :
    readNumber fromChars (s ++ after) = .ok (s.length, value) := by
  rcases number with ⟨minus, int, frac, exp, rfl, sign, integer, fraction, exponent, meaning⟩
  rcases scanNumber_append sign integer fraction exponent stop with ⟨floating, scanned, shape⟩
  have converted := (convertNumber_iff fromChars sign integer shape value).mpr meaning
  unfold readNumber
  rw [scanned]
  simp only [ok_bind, take_left, converted, pure_eq_ok]

theorem Grammar.Number.peek {fromChars : Bytes → FromCharsDouble} {s : Bytes} {value : Scalar}
    (number : Number fromChars s value) : peekByte s = 0x2D ∨ isDigit (peekByte s) = true := by
  rcases number with ⟨minus, int, frac, exp, rfl, rfl | rfl, integer, _⟩
  · refine .inr ?_
    rw [nil_append, append_assoc, peekByte_append integer.1.1]
    exact integer.1.peek
  · exact .inl rfl

end

section

theorem matchLiteral_split {rest literal : Bytes} (h : matchLiteral rest literal = true) :
    ∃ after, rest = literal ++ after := by
  simp only [matchLiteral, Bool.and_eq_true, decide_eq_true_eq] at h
  exact ⟨rest.drop literal.length, by rw [← h.2, length_take, min_eq_left h.1, take_append_drop]⟩

theorem readLiteral_denotes {rest : Bytes} {n : Nat} {value : Scalar} (fromChars : Bytes → FromCharsDouble)
    (h : readLiteral rest = .ok (n, value)) :
    ∃ s after, rest = s ++ after ∧ n = s.length ∧ Denotes fromChars s (.scalar value) := by
  unfold readLiteral at h
  split at h
  · rename_i found
    rcases matchLiteral_split found.2 with ⟨after, rfl⟩
    cases h
    exact ⟨nullText, after, rfl, rfl, .null⟩
  · split at h
    · rename_i found
      rcases matchLiteral_split found.2 with ⟨after, rfl⟩
      cases h
      exact ⟨trueText, after, rfl, rfl, .true⟩
    · split at h
      · rename_i found
        rcases matchLiteral_split found.2 with ⟨after, rfl⟩
        cases h
        exact ⟨falseText, after, rfl, rfl, .false⟩
      · split at h <;> cases h

variable {profile : Profile} {c c' : Cursor}

theorem Cursor.readScalar_denotes {value : Scalar} {span : SourceSpan}
    (h : c.readScalar profile = .ok ((value, span), c')) :
    ∃ s, c.rest = s ++ c'.rest ∧ Denotes profile.fromChars s (.scalar value) := by
  unfold readScalar at h
  dsimp only at h
  have token {n : Nat} {v : Scalar} (found : (if peekByte c.rest = 0x2D ∨ isDigit (peekByte c.rest) then
        readNumber profile.fromChars c.rest else readLiteral c.rest) = .ok (n, v)) :
      ∃ s after, c.rest = s ++ after ∧ n = s.length ∧ Denotes profile.fromChars s (.scalar v) := by
    split at found
    · rcases readNumber_number found with ⟨s, after, split, length, number⟩
      exact ⟨s, after, split, length, .number number⟩
    · exact readLiteral_denotes profile.fromChars found
  split at h
  · cases h
  rename_i n v found
  cases h
  rcases token found with ⟨s, after, split, rfl, denotes⟩
  exact ⟨s, by rw [advance_rest, split, drop_left], denotes⟩

theorem Cursor.readScalar_append {s after : Bytes} {value : Scalar}
    (token : Number profile.fromChars s value ∧ Stops after ∨
      (s, value) ∈ [(nullText, .null), (trueText, .bool true), (falseText, .bool false)]) (here : c.rest = s ++ after) :
    c.readScalar profile = .ok ((value, ⟨profile.source, c.offset, c.offset + s.length⟩), c.advance s.length) := by
  unfold readScalar
  dsimp only
  rw [here]
  rcases token with ⟨number, stop⟩ | literal
  · have first := number.peek
    have nonempty : s ≠ [] := by
      rintro rfl
      rcases first with minus | digit
      · cases minus
      · cases digit
    rw [peekByte_append nonempty, if_pos first, readNumber_append number stop]
  · simp only [mem_cons, not_mem_nil, or_false] at literal
    rcases literal with ⟨rfl, rfl⟩ | ⟨rfl, rfl⟩ | ⟨rfl, rfl⟩
    · rfl
    · rfl
    · rfl

end

theorem Stops.of_ws {w rest : Bytes} (ws : Ws w) (stop : Stops rest) : Stops (w ++ rest) := by
  cases w with
  | nil => exact stop
  | cons b w => rcases ws b (by simp) with rfl | rfl | rfl | rfl <;> exact ⟨rfl, nofun, nofun, nofun⟩

theorem Stops.bracket (rest : Bytes) : Stops (0x5D :: rest) := by constructor <;> simp [peekByte, isDigit]

theorem Stops.brace (rest : Bytes) : Stops (0x7D :: rest) := by constructor <;> simp [peekByte, isDigit]

theorem Stops.of_structural {comma rest : Bytes} (separator : Structural 0x2C comma) : Stops (comma ++ rest) := by
  rcases separator with ⟨w, w', rfl, ws, _⟩
  rw [append_assoc]
  apply Stops.of_ws ws
  constructor <;> simp [peekByte, isDigit]

theorem noTrivia_cons {b : UInt8} (blank : isWhitespace b = false) (slash : b ≠ 0x2F) (rest : Bytes) :
    NoTrivia (b :: rest) := ⟨blank, slash⟩

theorem digit_noTrivia {b : UInt8} (digit : isDigit b = true) : isWhitespace b = false ∧ b ≠ 0x2F := by
  constructor
  · by_contra blank
    rw [Bool.not_eq_false, isWhitespace_iff] at blank
    rcases blank with rfl | rfl | rfl | rfl <;> cases digit
  · rintro rfl
    cases digit

theorem denotes_noTrivia {fromChars : Bytes → FromCharsDouble} {s : Bytes} {v : Value}
    (denotes : Denotes fromChars s v) (rest : Bytes) : NoTrivia (s ++ rest) ∧ s ≠ [] := by
  cases denotes with
  | number number =>
    have nonempty : s ≠ [] := by
      rintro rfl
      rcases number.peek with minus | digit
      · cases minus
      · cases digit
    refine ⟨?_, nonempty⟩
    unfold NoTrivia
    rw [peekByte_append nonempty]
    rcases number.peek with minus | digit
    · rw [minus]
      exact ⟨rfl, nofun⟩
    · exact digit_noTrivia digit
  | _ => exact ⟨⟨rfl, nofun⟩, nofun⟩

end NginBase.Json
