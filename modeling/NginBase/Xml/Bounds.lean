import NginBase.Xml.Lexer

namespace NginBase.Xml

open Library List Nat

namespace Cursor

/-- The cursor `c'` is `n` bytes after `c`. -/
structure Over (c c' : Cursor) (n : Nat) : Prop where
  offset : c'.offset = c.offset + n
  rest : c'.rest = c.rest.drop n
  inside : n ≤ c.rest.length

/-- The bytes of a slice stand in the text between two cursors. -/
structure Passes (c : Cursor) (s : Slice) (c' : Cursor) : Prop where
  first : c.offset ≤ s.first
  last : s.last ≤ c'.offset
  bytes : (c.rest.drop (s.first - c.offset)).take s.bytes.length = s.bytes

variable {c c' c'' : Cursor} {m n : Nat} {s : Slice}

theorem Over.refl (c : Cursor) : c.Over c 0 := ⟨rfl, rfl, zero_le _⟩

theorem Over.trans (first : c.Over c' m) (second : c'.Over c'' n) : c.Over c'' (m + n) := by
  have inside := second.inside
  rw [first.rest, length_drop] at inside
  constructor
  · rw [second.offset, first.offset, add_assoc]
  · rw [second.rest, first.rest, drop_drop]
  · have := first.inside
    omega

theorem advance_over (c : Cursor) (n : Nat) : c.Over (c.advance n) (min n c.rest.length) := by
  constructor
  · rfl
  · show c.rest.drop n = _
    rcases le_total n c.rest.length with small | large
    · rw [min_eq_left small]
    · rw [min_eq_right large, drop_eq_nil_of_le large, drop_eq_nil_of_le (le_refl _)]
  · exact min_le_right _ _

theorem advance_over_of_le (c : Cursor) (inside : n ≤ c.rest.length) : c.Over (c.advance n) n := by
  have over' := c.advance_over n
  rwa [min_eq_left inside] at over'

theorem skipWhitespace_over (c : Cursor) : ∃ n, c.Over c.skipWhitespace n := ⟨_, c.advance_over _⟩

theorem Passes.after (over' : c.Over c' n) (passes : c'.Passes s c'') : c.Passes s c'' := by
  have first := passes.first
  have bytes := passes.bytes
  rw [over'.rest, drop_drop] at bytes
  have offset := over'.offset
  constructor
  · omega
  · exact passes.last
  · rw [show s.first - c.offset = n + (s.first - c'.offset) by omega]
    exact bytes

theorem passes_take (c : Cursor) (inside : n ≤ c.rest.length) (behind : c.offset + n ≤ c'.offset) :
    c.Passes ⟨c.offset, c.rest.take n⟩ c' := by
  constructor
  · exact le_refl _
  · simpa [Slice.last, min_eq_left inside] using behind
  · simp

theorem peek_some (visible : c.peek ≠ 0) : 0 < c.rest.length := by
  rcases c with ⟨offset, rest⟩
  cases rest with
  | nil => exact absurd rfl visible
  | cons b rest => exact succ_pos _

theorem startsWith_iff (value : Bytes) : c.startsWith value = true ↔ value <+: c.rest := isPrefixOf_iff_prefix

section

variable {profile : Profile}

theorem takeWhile_le {α : Type} (p : α → Bool) (l : List α) : (l.takeWhile p).length ≤ l.length :=
  (takeWhile_sublist p).length_le

theorem parseName_over (h : c.parseName profile = .ok (s, c')) :
    ∃ n, 0 < n ∧ c.Over c' n ∧ s = ⟨c.offset, c.rest.take n⟩ := by
  unfold parseName at h
  split at h
  · cases h
  rename_i start
  obtain ⟨rfl, rfl⟩ := h
  have visible : c.peek ≠ 0 := by
    intro none
    rw [none] at start
    exact start rfl
  have present := peek_some visible
  have run := takeWhile_le isNameContinue (c.rest.drop 1)
  rw [length_drop] at run
  exact ⟨_, by omega, c.advance_over_of_le (by omega), rfl⟩

theorem scanComment_over (h : c.scanComment profile = .ok (s, c')) :
    ∃ n, 0 < n ∧ c.Over c' n ∧ c.Passes s c' := by
  unfold scanComment at h
  dsimp only at h
  split at h
  · cases h
  rename_i close found
  have bound := find_bound found
  split at h
  · cases h
  obtain ⟨rfl, rfl⟩ := h
  have start := c.advance_over 4
  have finish := (c.advance 4).advance_over_of_le (n := close + 3) (by omega)
  refine ⟨_, ?_, start.trans finish, ?_⟩
  · omega
  · apply Passes.after start
    apply passes_take
    · omega
    · rw [finish.offset]
      omega

theorem scanInstruction_over {declaration : Bool} {target body : Slice}
    (h : c.scanInstruction profile declaration = .ok ((target, body), c')) :
    ∃ n, 0 < n ∧ c.Over c' n ∧ c.Passes target c' ∧ c.Passes body c' := by
  unfold scanInstruction at h
  split at h
  · cases h
  rename_i name after named
  obtain ⟨n, positive, over', rfl⟩ := parseName_over named
  have start := c.advance_over 2
  split at h
  · cases h
  split at h
  · cases h
  rename_i close found
  have bound := find_bound found
  dsimp only at h
  split at h
  · cases h
  obtain ⟨⟨rfl, rfl⟩, rfl⟩ := h
  have finish := after.advance_over_of_le (n := close + 2) (by omega)
  have behind := finish.offset
  have named := over'.offset
  refine ⟨_, ?_, start.trans (over'.trans finish), ?_, ?_⟩
  · omega
  · apply Passes.after start
    exact passes_take _ over'.inside (by omega)
  · apply Passes.after start
    apply Passes.after over'
    exact passes_take _ (by omega) (by omega)

theorem doctypeLength_bound {text : Bytes} {inSingle inDouble : Bool} {subsetDepth : Nat}
    (h : doctypeLength text inSingle inDouble subsetDepth = some n) : 0 < n ∧ n ≤ text.length := by
  induction text generalizing inSingle inDouble subsetDepth n with
  | nil => cases h
  | cons value rest ih =>
    have more {a b : Bool} {d : Nat} (h : (doctypeLength rest a b d).map (· + 1) = some n) :
        0 < n ∧ n ≤ (value :: rest).length := by
      obtain ⟨k, found, rfl⟩ := Option.map_eq_some_iff.mp h
      have := ih found
      simp only [length_cons]
      omega
    unfold doctypeLength at h
    split at h
    · exact more h
    split at h
    · exact more h
    split at h
    · split at h
      · exact more h
      · split at h
        · exact more h
        · split at h
          · cases h
            simp
          · exact more h
    · exact more h

theorem scanDoctype_over {u : Unit} (h : c.scanDoctype profile = .ok (u, c')) : ∃ n, 0 < n ∧ c.Over c' n := by
  unfold scanDoctype at h
  split at h
  · cases h
  split at h
  · cases h
  rename_i length found
  obtain ⟨positive, bound⟩ := doctypeLength_bound found
  dsimp only at h
  split at h
  · cases h
  cases h
  exact ⟨length, positive, c.advance_over_of_le bound⟩

theorem scanCData_over (h : c.scanCData profile = .ok (s, c')) : ∃ n, 0 < n ∧ c.Over c' n ∧ c.Passes s c' := by
  unfold scanCData at h
  dsimp only at h
  split at h
  · cases h
  rename_i close found
  have bound := find_bound found
  obtain ⟨rfl, rfl⟩ := h
  have start := c.advance_over 9
  have finish := (c.advance 9).advance_over_of_le (n := close + 3) (by omega)
  refine ⟨_, ?_, start.trans finish, ?_⟩
  · omega
  · apply Passes.after start
    apply passes_take
    · omega
    · rw [finish.offset]
      omega

theorem characterData_over {length : Nat} (inside : length ≤ c.rest.length)
    (h : c.characterData profile length = .ok (s, c')) : c.Over c' length ∧ s = ⟨c.offset, c.rest.take length⟩ := by
  unfold characterData at h
  dsimp only at h
  split at h
  · cases h
  cases h
  exact ⟨c.advance_over_of_le inside, rfl⟩

theorem textLength_le (rest : Bytes) : (find [0x3C] rest).getD rest.length ≤ rest.length := by
  cases found : find [0x3C] rest with
  | none => exact le_refl _
  | some n =>
    have := find_bound found
    simp only [Option.getD_some]
    omega

theorem textLength_pos {rest : Bytes} (present : rest ≠ []) (data : peekByte rest ≠ 0x3C) :
    0 < (find [0x3C] rest).getD rest.length := by
  cases rest with
  | nil => exact absurd rfl present
  | cons b rest =>
    have other : ¬ [0x3C] <+: b :: rest := by
      intro starts
      rw [cons_prefix_cons] at starts
      exact data starts.1.symm
    unfold find
    rw [if_neg other]
    cases find [0x3C] rest <;> simp

theorem scanText_over (present : c.rest ≠ []) (data : c.peek ≠ 0x3C) (h : c.scanText profile = .ok (s, c')) :
    ∃ n, 0 < n ∧ c.Over c' n ∧ s = ⟨c.offset, c.rest.take n⟩ := by
  obtain ⟨over', rfl⟩ := characterData_over (textLength_le c.rest) h
  exact ⟨_, textLength_pos present data, over', rfl⟩

theorem scanValue_over {quote : UInt8} (h : c.scanValue profile quote = .ok (s, c')) :
    ∃ n, c.Over c' n ∧ s = ⟨c.offset, c.rest.take n⟩ := by
  have done {length : Nat} (found : find [quote] c.rest = some length)
      (h : (.ok (⟨c.offset, c.rest.take length⟩, c.advance length) : Except Failure (Slice × Cursor)) = .ok (s, c')) :
      ∃ n, c.Over c' n ∧ s = ⟨c.offset, c.rest.take n⟩ := by
    have bound := find_bound found
    obtain ⟨rfl, rfl⟩ := h
    exact ⟨length, c.advance_over_of_le (by omega), rfl⟩
  unfold scanValue at h
  split at h
  · cases h
  · exact done (by assumption) h
  · cases h
  · split at h
    · cases h
    · exact done (by assumption) h

theorem scanQuote_over {quote : UInt8} (h : c.scanQuote profile = .ok (quote, c')) : ∃ n, 0 < n ∧ c.Over c' n := by
  unfold scanQuote at h
  dsimp only at h
  split at h
  · cases h
  rename_i equals
  have present := peek_some (c := c.skipWhitespace) (by rw [not_not.mp equals]; decide)
  obtain ⟨blank, skipped⟩ := c.skipWhitespace_over
  split at h
  · cases h
  obtain ⟨rfl, rfl⟩ := h
  have past := c.skipWhitespace.advance_over_of_le (n := 1) present
  obtain ⟨blank', skipped'⟩ := (c.skipWhitespace.advance 1).skipWhitespace_over
  refine ⟨_, ?_, skipped.trans (past.trans (skipped'.trans (advance_over _ 1)))⟩
  omega

theorem scanEndTag_over (h : c.scanEndTag profile = .ok (s, c')) : ∃ n, 0 < n ∧ c.Over c' n ∧ c.Passes s c' := by
  unfold scanEndTag at h
  split at h
  · cases h
  rename_i name after named
  obtain ⟨n, positive, over', rfl⟩ := parseName_over named
  dsimp only at h
  split at h
  · cases h
  obtain ⟨rfl, rfl⟩ := h
  have start := c.advance_over 2
  obtain ⟨blank, skipped⟩ := after.skipWhitespace_over
  have finish := skipped.trans (advance_over _ 1)
  have behind := finish.offset
  have named := over'.offset
  refine ⟨_, ?_, start.trans (over'.trans finish), ?_⟩
  · omega
  · apply Passes.after start
    exact passes_take _ over'.inside (by omega)

end

end Cursor

end NginBase.Xml
