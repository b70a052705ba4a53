import NginBase.Json.Lexer
import NginBase.Library.Simulation

namespace NginBase.Json

open Library List

theorem encodeUtf8_length_le (c : Nat) : (Unicode.encodeUtf8 c).length ≤ 4 :=
  (Unicode.encodeUnits_length _).2

theorem unicodeEscape_ok {rawLength escape n : Nat} {text out : Bytes}
    (h : unicodeEscape rawLength escape text = .ok (out, n)) : 6 ≤ n ∧ n ≤ text.length + 2 ∧ out.length ≤ 4 := by
  unfold unicodeEscape at h
  split at h
  · cases h
  split at h
  · cases h
  split at h
  · dsimp only at h
    split at h
    · cases h
    rename_i present
    simp only [length_drop] at present
    split at h
    · cases h
    simp only [Except.ok.injEq, Prod.mk.injEq] at h
    obtain ⟨rfl, rfl⟩ := h
    exact ⟨by omega, by omega, encodeUtf8_length_le _⟩
  · split at h
    · cases h
    · obtain ⟨rfl, rfl⟩ := h
      exact ⟨by omega, by omega, encodeUtf8_length_le _⟩

theorem decodeStep_shrinking (rawLength : Nat) : Shrinking (decodeStep rawLength) := by
  intro read text out n nonempty h
  cases text with
  | nil => exact absurd rfl nonempty
  | cons value rest =>
    simp only [decodeStep] at h
    split at h
    · obtain ⟨rfl, rfl⟩ := h
      simp
    cases rest with
    | nil => cases h
    | cons letter text =>
      dsimp only at h
      split at h
      · obtain ⟨rfl, rfl⟩ := h
        simp
      split at h
      · obtain ⟨least, most, short⟩ := unicodeEscape_ok h
        simp only [length_cons]
        omega
      · cases h

theorem takeWhile_length_le {α : Type} (p : α → Bool) (l : List α) : (l.takeWhile p).length ≤ l.length :=
  (takeWhile_sublist p).length_le

theorem scanLoop_ok {total fuel position n : Nat} {scan : Bytes} {hasEscapes escaped : Bool}
    (h : scanLoop total fuel scan position hasEscapes = .ok (n, escaped)) :
    position ≤ n ∧ n < position + scan.length ∧ (escaped = true → hasEscapes = true ∨ position + 2 ≤ n) := by
  induction fuel generalizing scan position hasEscapes with
  | zero => cases h
  | succ fuel ih =>
    unfold scanLoop at h
    dsimp only at h
    split at h
    · cases h
    split at h
    · cases h
    rename_i next after found
    have length := congrArg length found
    simp only [length_drop, length_cons] at length
    split at h
    · cases h
      exact ⟨by omega, by omega, fun yes => .inl yes⟩
    split at h
    · cases h
    simp only [length_cons] at length
    obtain ⟨low, high, _⟩ := ih h
    exact ⟨by omega, by omega, fun _ => .inr (by omega)⟩

theorem scanString_ok {rest : Bytes} {n : Nat} {escaped : Bool} (h : scanString rest = .ok (n, escaped)) :
    n < rest.length ∧ (escaped = true → 2 ≤ n) := by
  obtain ⟨_, high, long⟩ := scanLoop_ok h
  exact ⟨by omega, fun yes => by simpa using long yes⟩

section

variable {rest : Bytes}

theorem skipComment_ok {n : Nat} (slash : peekByte rest = 0x2F) (h : skipComment rest = .ok n) :
    2 ≤ n ∧ n ≤ rest.length := by
  have two {b : UInt8} (second : peekByte rest 1 = b) (visible : b ≠ 0) : 2 ≤ rest.length := by
    by_contra short
    have missing : rest[1]? = none := getElem?_eq_none (by omega)
    simp only [peekByte, missing] at second
    exact visible second.symm
  unfold skipComment at h
  split at h
  · contradiction
  split at h
  · rename_i second
    cases h
    have := takeWhile_length_le (fun b => b ≠ 0x0D && b ≠ 0x0A) (rest.drop 2)
    have := two second (by decide)
    simp only [length_drop] at *
    omega
  · split at h
    · split at h
      · rename_i second _ close found
        cases h
        have := find_bound found
        simp only [length_drop, length_cons] at this
        omega
      · cases h
    · cases h

def NoTrivia (rest : Bytes) : Prop := isWhitespace (peekByte rest) = false ∧ peekByte rest ≠ 0x2F

theorem whitespaceLength_le (rest : Bytes) : whitespaceLength rest ≤ rest.length := takeWhile_length_le _ _

theorem whitespace_stops (rest : Bytes) : isWhitespace (peekByte (rest.drop (whitespaceLength rest))) = false := by
  induction rest with
  | nil => rfl
  | cons b rest ih =>
    by_cases blank : isWhitespace b = true
    · simpa [whitespaceLength, blank] using ih
    · simp [whitespaceLength, blank, peekByte]

theorem whitespaceLength_zero (stop : isWhitespace (peekByte rest) = false) : whitespaceLength rest = 0 := by
  cases rest with
  | nil => rfl
  | cons b rest =>
    have solid : isWhitespace b = false := by simpa [peekByte] using stop
    simp [whitespaceLength, solid]

theorem triviaLoop_ok {comments : CommentPolicy} {fuel consumed n : Nat} (enough : rest.length < fuel)
    (h : triviaLoop comments fuel rest consumed = .ok n) :
    consumed ≤ n ∧ n ≤ consumed + rest.length ∧ NoTrivia (rest.drop (n - consumed)) := by
  induction fuel generalizing rest consumed with
  | zero => omega
  | succ fuel ih =>
    have blank := whitespaceLength_le rest
    unfold triviaLoop at h
    dsimp only at h
    split at h
    · rename_i stop
      cases h
      refine ⟨by omega, by omega, ?_⟩
      rw [Nat.add_sub_cancel_left]
      exact ⟨whitespace_stops rest, stop⟩
    · rename_i slash
      split at h
      · cases h
      split at h
      · cases h
      rename_i length comment
      obtain ⟨least, most⟩ := skipComment_ok (not_not.mp slash) comment
      have shorter : ((rest.drop (whitespaceLength rest)).drop length).length < fuel := by
        simp only [length_drop] at *
        omega
      obtain ⟨low, high, stop⟩ := ih shorter h
      simp only [length_drop] at high most
      refine ⟨by omega, by omega, ?_⟩
      have position : whitespaceLength rest + (length + (n - (consumed + whitespaceLength rest + length))) =
          n - consumed := by omega
      rwa [drop_drop, drop_drop, position] at stop

theorem skipTrivia_ok {comments : CommentPolicy} {n : Nat} (h : skipTrivia comments rest = .ok n) :
    n ≤ rest.length ∧ NoTrivia (rest.drop n) := by
  obtain ⟨_, high, stop⟩ := triviaLoop_ok (Nat.lt_succ_self _) h
  exact ⟨by omega, by simpa using stop⟩

theorem skipTrivia_noTrivia (comments : CommentPolicy) (stop : NoTrivia rest) : skipTrivia comments rest = .ok 0 := by
  have solid := whitespaceLength_zero stop.1
  unfold skipTrivia triviaLoop
  simp [solid, stop.2]

end

section

variable {rest : Bytes}

theorem peekByte_some {b : UInt8} (h : peekByte rest = b) (visible : b ≠ 0) : 0 < rest.length := by
  cases rest with
  | nil => exact absurd h.symm visible
  | cons => simp

theorem digitsLength_le (rest : Bytes) : digitsLength rest ≤ rest.length := takeWhile_length_le _ _

theorem digitsLength_pos (digit : isDigit (peekByte rest) = true) : 0 < digitsLength rest := by
  cases rest with
  | nil => exact absurd digit (by decide)
  | cons b rest =>
    have first : isDigit b = true := by simpa [peekByte] using digit
    simp [digitsLength, first]

variable {n : Nat}

theorem scanInteger_ok {sign : Nat} {body : Bytes} (h : scanInteger sign body = .ok n) : 0 < n ∧ n ≤ body.length := by
  unfold scanInteger at h
  split at h
  · rename_i zero
    have := peekByte_some zero (by decide)
    split at h
    · cases h
    cases h
    omega
  · split at h
    · rename_i digit
      cases h
      exact ⟨digitsLength_pos digit, digitsLength_le body⟩
    · cases h

theorem scanFraction_ok (h : scanFraction rest = .ok n) : n ≤ rest.length := by
  unfold scanFraction at h
  split at h
  · rename_i dot
    have := peekByte_some dot (by decide)
    split at h
    · cases h
      have := digitsLength_le (rest.drop 1)
      simp only [length_drop] at this
      omega
    · cases h
  · cases h
    omega

theorem scanExponent_ok (h : scanExponent rest = .ok n) : n ≤ rest.length := by
  unfold scanExponent at h
  split at h
  · dsimp only at h
    split at h
    · rename_i digit
      cases h
      have positive := digitsLength_pos digit
      have := digitsLength_le (rest.drop (1 + exponentSign (rest.drop 1)))
      simp only [length_drop] at this
      omega
    · cases h
  · cases h
    omega

theorem scanNumber_ok {floating : Bool} (h : scanNumber rest = .ok (n, floating)) : 0 < n ∧ n ≤ rest.length := by
  unfold scanNumber at h
  dsimp only at h
  split at h
  · cases h
  obtain ⟨integer, first, h⟩ := bind_ok h
  obtain ⟨fraction, second, h⟩ := bind_ok h
  obtain ⟨exponent, third, h⟩ := bind_ok h
  cases h
  have one := scanInteger_ok first
  have two := scanFraction_ok second
  have three := scanExponent_ok third
  simp only [length_drop] at one two three
  omega

theorem readNumber_ok {fromChars : Bytes → FromCharsDouble} {value : Scalar}
    (h : readNumber fromChars rest = .ok (n, value)) : 0 < n ∧ n ≤ rest.length := by
  obtain ⟨⟨length, floating⟩, scanned, h⟩ := bind_ok h
  obtain ⟨scalar, _, h⟩ := bind_ok h
  cases h
  exact scanNumber_ok scanned

theorem matchLiteral_length {literal : Bytes} (h : matchLiteral rest literal = true) : literal.length ≤ rest.length := by
  simp only [matchLiteral, Bool.and_eq_true, decide_eq_true_eq] at h
  exact h.1

theorem readLiteral_ok {value : Scalar} (h : readLiteral rest = .ok (n, value)) : 0 < n ∧ n ≤ rest.length := by
  unfold readLiteral at h
  split at h
  · rename_i found
    cases h
    exact ⟨by decide, matchLiteral_length found.2⟩
  · split at h
    · rename_i found
      cases h
      exact ⟨by decide, matchLiteral_length found.2⟩
    · split at h
      · rename_i found
        cases h
        exact ⟨by decide, matchLiteral_length found.2⟩
      · split at h <;> cases h

end

namespace Cursor

@[simp] theorem advance_rest (c : Cursor) (n : Nat) : (c.advance n).rest = c.rest.drop n := rfl

@[simp] theorem advance_offset (c : Cursor) (n : Nat) : (c.advance n).offset = c.offset + n := rfl

theorem advance_zero (c : Cursor) : c.advance 0 = c := rfl

theorem advance_advance (c : Cursor) (m n : Nat) : (c.advance m).advance n = c.advance (m + n) := by
  simp [advance, Nat.add_assoc]

/-- The cursor `c'` is `c` moved over `n` bytes that are there. -/
def Over (c c' : Cursor) (n : Nat) : Prop := n ≤ c.rest.length ∧ c' = c.advance n

theorem Over.trans {c c' c'' : Cursor} {m n : Nat} (first : c.Over c' m) (second : c'.Over c'' n) : c.Over c'' (m + n) := by
  obtain ⟨inside, rfl⟩ := first
  obtain ⟨inside', rfl⟩ := second
  simp only [advance_rest, length_drop] at inside'
  exact ⟨by omega, advance_advance _ _ _⟩

variable {profile : Profile} {c c' : Cursor}

theorem skipTrivia_over {u : Unit} (h : c.skipTrivia profile = .ok (u, c')) :
    ∃ n, c.Over c' n ∧ NoTrivia c'.rest := by
  unfold skipTrivia at h
  split at h
  · cases h
  rename_i n skipped
  cases h
  obtain ⟨inside, stop⟩ := skipTrivia_ok skipped
  exact ⟨n, ⟨inside, rfl⟩, stop⟩

theorem skipTrivia_noTrivia (stop : NoTrivia c.rest) : c.skipTrivia profile = .ok ((), c) := by
  simp [skipTrivia, Json.skipTrivia_noTrivia _ stop, advance_zero]

theorem separator_over {close : UInt8} {expected trailing : String} {closed : Bool}
    (h : c.separator profile close expected trailing = .ok (closed, c')) :
    ∃ n, c.Over c' n ∧ NoTrivia c'.rest ∧ (closed = true → peekByte c'.rest = close) ∧ (closed = false → 0 < n) := by
  obtain ⟨⟨u, c₁⟩, skipped, h⟩ := bind_ok h
  obtain ⟨m, past, stop⟩ := skipTrivia_over skipped
  dsimp only at h
  split at h
  · rename_i found
    cases h
    exact ⟨m, past, stop, fun _ => found, by simp⟩
  · split at h
    · cases h
    · rename_i comma
      obtain ⟨⟨v, c₂⟩, skipped', h⟩ := bind_ok h
      obtain ⟨k, over', stop'⟩ := skipTrivia_over skipped'
      have present := peekByte_some (not_not.mp comma) (by decide)
      have all : c.Over c₂ (m + (1 + k)) := past.trans (Over.trans ⟨present, rfl⟩ over')
      split at h
      · rename_i found
        split at h
        · cases h
        cases h
        exact ⟨_, all, stop', fun _ => found, by simp⟩
      · cases h
        exact ⟨_, all, stop', by simp, fun _ => by omega⟩

theorem colon_over {expected : String} {u : Unit} (h : c.colon profile expected = .ok (u, c')) :
    ∃ n, c.Over c' n ∧ 0 < n := by
  obtain ⟨⟨v, c₁⟩, skipped, h⟩ := bind_ok h
  obtain ⟨m, past, _⟩ := skipTrivia_over skipped
  dsimp only at h
  split at h
  · cases h
  rename_i found
  cases h
  have present := peekByte_some (not_not.mp found) (by decide)
  exact ⟨m + 1, past.trans ⟨present, rfl⟩, by omega⟩

theorem scanString_over {token : StringToken} (h : c.scanString profile = .ok (token, c')) :
    c.Over c' (1 + token.raw.length + 1) ∧ token.first = c.offset ∧
      token.raw = (c.rest.drop 1).take token.raw.length ∧ (token.escaped = true → 2 ≤ token.raw.length) := by
  unfold scanString at h
  split at h
  · cases h
  split at h
  · cases h
  rename_i n escaped scanned
  obtain ⟨rfl, rfl⟩ := h
  obtain ⟨inside, long⟩ := scanString_ok scanned
  have size : ((c.rest.drop 1).take n).length = n := by
    rw [length_take]
    omega
  simp only [size]
  simp only [length_drop] at inside
  exact ⟨⟨by omega, rfl⟩, trivial, trivial, long⟩

theorem readScalar_over {value : Scalar × SourceSpan} (h : c.readScalar profile = .ok (value, c')) :
    ∃ n, c.Over c' n ∧ 0 < n := by
  unfold readScalar at h
  dsimp only at h
  split at h
  · cases h
  rename_i n scalar read
  obtain ⟨_, rfl⟩ := h
  have bounds : 0 < n ∧ n ≤ c.rest.length := by
    split at read
    · exact readNumber_ok read
    · exact readLiteral_ok read
  exact ⟨n, ⟨bounds.2, rfl⟩, bounds.1⟩

end Cursor

end NginBase.Json
