import NginBase.Xml.Constructs

namespace NginBase.Xml

open Library List Option Grammar

section

variable {p : UInt8 → Bool} {w rest : Bytes} {b : UInt8}

theorem apart_cons (other : p b = false) : Apart p (b :: rest) := by
  intro d head
  cases head
  exact other

theorem apart_ws (blank : ∀ d, isWhitespace d = true → p d = false) (ws : Ws w) (apart : Apart p rest) : Apart p (w ++ rest) := by
  cases w with
  | nil => exact apart
  | cons d w => exact apart_cons (blank d (ws d mem_cons_self))

theorem takeWhile_apart (all : ∀ d ∈ w, p d = true) (apart : Apart p rest) : (w ++ rest).takeWhile p = w := by
  rw [takeWhile_append_of_pos all]
  cases rest with
  | nil => rw [takeWhile_nil, append_nil]
  | cons d rest => rw [takeWhile_cons_of_neg (by rw [apart d rfl]; exact Bool.false_ne_true), append_nil]

theorem apart_dropWhile (p : UInt8 → Bool) (text : Bytes) : Apart p (text.dropWhile p) := by
  intro d head
  have stopped := head?_dropWhile_not p text
  rw [head] at stopped
  exact stopped

theorem whitespace_not_name {d : UInt8} (blank : isWhitespace d = true) : isNameContinue d = false := by
  simp only [isWhitespace, Bool.or_eq_true, decide_eq_true_eq] at blank
  rcases blank with ((rfl | rfl) | rfl) | rfl <;> decide

theorem nameStart_solid {d : UInt8} (start : isNameStart d = true) : isWhitespace d = false := by
  cases blank : isWhitespace d with
  | false => rfl
  | true =>
    have continues := whitespace_not_name blank
    rw [isNameContinue, start] at continues
    cases continues

end

namespace Cursor

variable (profile : Profile) {c c' : Cursor} {s after : Bytes}

theorem Past.rest_eq (past : c.Past s c') (split : c.rest = s ++ after) : c'.rest = after :=
  append_cancel_left (past.rest.symm.trans split)

theorem starts_here (split : c.rest = s ++ after) : c.startsWith s = true := (startsWith_iff s).mpr ⟨after, split.symm⟩

theorem starts_other {b d : UInt8} {value : Bytes} (split : c.rest = b :: after) (other : d ≠ b) : ¬ c.startsWith (d :: value) = true := by
  rw [startsWith_iff, split]
  exact fun first => other (cons_prefix_cons.mp first).1

theorem starts_second {a b d e : UInt8} {value : Bytes} (split : c.rest = a :: b :: after) (other : e ≠ b) :
    ¬ c.startsWith (d :: e :: value) = true := by
  rw [startsWith_iff, split]
  exact fun first => other (cons_prefix_cons.mp (cons_prefix_cons.mp first).2).1

theorem peek_here {b : UInt8} (split : c.rest = b :: after) : c.peek = b := by
  rw [peek, split]
  rfl

theorem skipWhitespace_reads {w : Bytes} (ws : Ws w) (solid : Apart isWhitespace after) (split : c.rest = w ++ after) :
    c.Past w c.skipWhitespace := by
  have length : whitespaceLength c.rest = w.length := by rw [whitespaceLength, split, takeWhile_apart ws solid]
  rw [skipWhitespace, length]
  exact (past_advance split).1

theorem parseName_reads {name : Bytes} (named : Name name) (ends : Apart isNameContinue after) (split : c.rest = name ++ after) :
    ∃ c', c.parseName profile = .ok (⟨c.offset, name⟩, c') ∧ c.Past name c' := by
  cases named with
  | @mk first rest start more =>
    have peeked : c.peek = first := peek_here split
    have length : 1 + ((c.rest.drop 1).takeWhile isNameContinue).length = (first :: rest).length := by
      rw [split, cons_append, drop_succ_cons, drop_zero, takeWhile_apart more ends, length_cons, Nat.add_comm]
    have bytes : c.rest.take (first :: rest).length = first :: rest := by rw [split, take_left]
    apply Exists.intro (c.advance (first :: rest).length)
    constructor
    · unfold parseName
      dsimp only
      rw [peeked, if_neg (by rw [start]; decide), length, bytes]
    · exact (past_advance split).1

theorem parseName_apart {profile : Profile} {slice : Slice} (h : c.parseName profile = .ok (slice, c')) : Apart isNameContinue c'.rest := by
  unfold parseName at h
  split at h
  · cases h
  cases h
  cases ahead : c.rest with
  | nil =>
    rw [advance, ahead]
    simp [Apart]
  | cons first rest =>
    have split : c.rest = (first :: rest.takeWhile isNameContinue) ++ rest.dropWhile isNameContinue := by
      rw [ahead, cons_append, takeWhile_append_dropWhile]
    have behind := (past_advance split).2
    rw [length_cons, Nat.add_comm] at behind
    rw [drop_one, tail_cons, behind]
    exact apart_dropWhile _ _

theorem scanInstruction_apart {profile : Profile} {declaration : Bool} {target body : Slice}
    (h : c.scanInstruction profile declaration = .ok ((target, body), c')) : Apart isNameContinue (body.bytes ++ [0x3F, 0x3E]) := by
  unfold scanInstruction at h
  split at h
  · cases h
  rename_i name after named
  have apart := parseName_apart named
  split at h
  · cases h
  split at h
  · cases h
  rename_i close found
  dsimp only at h
  split at h
  · cases h
  cases h
  intro b head
  have split := find_split found
  cases bytes : after.rest.take close with
  | nil =>
    rw [bytes] at head
    cases head
    decide
  | cons d more =>
    rw [bytes] at head split
    cases head
    exact apart b (by rw [split]; rfl)

theorem scanComment_reads {text : Bytes} (comment : Comment text s) (split : c.rest = s ++ after) :
    ∃ slice c', c.scanComment profile = .ok (slice, c') ∧ slice.bytes = text ∧ c.Past s c' := by
  obtain ⟨plain, last, rfl⟩ := comment
  rw [append_assoc, append_assoc] at split
  have opened := past_advance split
  have short : ¬ [0x2D, 0x2D] ++ [0x3E] <:+: text := fun inside => plain ((prefix_append [0x2D, 0x2D] [0x3E]).isInfix.trans inside)
  have close : find [0x2D, 0x2D, 0x3E] (c.advance 4).rest = some text.length := by
    have found := find_extend (find_closing (by decide) short) after
    rw [append_assoc] at found
    rw [show (c.advance 4).rest = _ from opened.2]
    exact found
  have bytes : (c.advance 4).rest.take text.length = text := by
    rw [show (c.advance 4).rest = _ from opened.2, take_left]
  have closed := (past_find close).1
  rw [bytes] at closed
  refine ⟨⟨(c.advance 4).offset, text⟩, _, ?_, rfl, opened.1.trans closed⟩
  unfold scanComment
  dsimp only
  rw [close]
  dsimp only
  rw [bytes, if_neg]
  · rfl
  · rw [not_or, Bool.not_eq_true, isSome_eq_false_iff, isNone_iff_eq_none]
    exact ⟨find_none_iff.mpr plain, last⟩

theorem scanCData_reads {text : Bytes} (quoted : CData text s) (split : c.rest = s ++ after) :
    ∃ slice c', c.scanCData profile = .ok (slice, c') ∧ slice.bytes = text ∧ c.Past s c' := by
  obtain ⟨ends, rfl⟩ := quoted
  rw [append_assoc, append_assoc] at split
  have opened := past_advance split
  have close : find [0x5D, 0x5D, 0x3E] (c.advance 9).rest = some text.length := by
    have found := find_extend ends after
    rw [append_assoc] at found
    rw [show (c.advance 9).rest = _ from opened.2]
    exact found
  have bytes : (c.advance 9).rest.take text.length = text := by
    rw [show (c.advance 9).rest = _ from opened.2, take_left]
  have closed := (past_find close).1
  rw [bytes] at closed
  refine ⟨⟨(c.advance 9).offset, text⟩, _, ?_, rfl, opened.1.trans closed⟩
  unfold scanCData
  dsimp only
  rw [close]
  dsimp only
  rw [bytes]
  rfl

theorem scanInstruction_reads (declaration : Bool) {target body : Bytes} (instruction : Instruction target body s)
    (ends : Apart isNameContinue (body ++ [0x3F, 0x3E]))
    (proper : if declaration then target = [0x78, 0x6D, 0x6C] ∧ isWhitespace (peekByte body) = true ∧
        [0x76, 0x65, 0x72, 0x73, 0x69, 0x6F, 0x6E] <:+: body else reservedXml target = false)
    (split : c.rest = s ++ after) :
    ∃ name slice c', c.scanInstruction profile declaration = .ok ((name, slice), c') ∧ name.bytes = target ∧ slice.bytes = body ∧
      c.Past s c' := by
  obtain ⟨named, closes, rfl⟩ := instruction
  rw [append_assoc, append_assoc, append_assoc] at split
  have opened := past_advance split
  have apart : Apart isNameContinue (body ++ ([0x3F, 0x3E] ++ after)) := by
    cases body with
    | nil => exact apart_cons (by decide)
    | cons b body => exact apart_cons (ends b rfl)
  obtain ⟨c₁, read, past⟩ := parseName_reads profile named apart opened.2
  have here : c₁.rest = body ++ ([0x3F, 0x3E] ++ after) := past.rest_eq opened.2
  have close : find [0x3F, 0x3E] c₁.rest = some body.length := by
    have found := find_extend closes after
    rw [append_assoc] at found
    rwa [here]
  have bytes : c₁.rest.take body.length = body := by rw [here, take_left]
  have closed := (past_find close).1
  rw [bytes] at closed
  refine ⟨⟨(c.advance 2).offset, target⟩, ⟨c₁.offset, body⟩, _, ?_, rfl, rfl, opened.1.trans (past.trans closed)⟩
  unfold scanInstruction
  rw [show (c.advance 2).parseName profile = _ from read]
  dsimp only
  cases declaration with
  | true =>
    obtain ⟨name, blank, version⟩ := proper
    rw [if_neg (by simp [name]), close]
    dsimp only
    rw [bytes, if_neg]
    · rfl
    · rw [not_and, not_or, not_or]
      intro _
      refine ⟨?_, by rw [blank]; decide, fun none => find_none_iff.mp none version⟩
      intro empty
      rw [empty] at blank
      cases blank
  | false =>
    have proper : reservedXml target = false := proper
    rw [if_neg (by simp [proper]), close]
    dsimp only
    rw [bytes]
    rfl

theorem scanText_reads {raw : Bytes} (text : Text raw) (stops : Stops after) (split : c.rest = raw ++ after) :
    ∃ c', c.scanText profile = .ok (⟨c.offset, raw⟩, c') ∧ c.Past raw c' := by
  obtain ⟨_, noTag, plain⟩ := text
  have length : (find [0x3C] c.rest).getD c.rest.length = raw.length := by
    rcases stops with none | next
    · rw [split, none, append_nil, find_absent mem_cons_self noTag, getD_none]
    · obtain ⟨rest, rfl⟩ : ∃ rest, after = 0x3C :: rest := ⟨after.tail, eq_cons_of_mem_head? next⟩
      rw [split, find_skip noTag, find_here, map_some, getD_some, Nat.zero_add]
  have bytes : c.rest.take raw.length = raw := by rw [split, take_left]
  apply Exists.intro (c.advance raw.length)
  constructor
  · unfold scanText characterData
    dsimp only
    rw [length, bytes, find_none_iff.mpr plain]
    rfl
  · exact (past_advance split).1

theorem scanEndTag_reads {name : Bytes} (closing : EndTag name s) (split : c.rest = s ++ after) :
    ∃ slice c', c.scanEndTag profile = .ok (slice, c') ∧ slice.bytes = name ∧ c.Past s c' := by
  obtain ⟨w, named, ws, rfl⟩ := closing
  have split' : c.rest = [0x3C, 0x2F] ++ (name ++ (w ++ ([0x3E] ++ after))) := by
    rw [split]
    simp
  have opened := past_advance split'
  have apart : Apart isNameContinue (w ++ ([0x3E] ++ after)) := apart_ws (fun d => whitespace_not_name) ws (apart_cons (by decide))
  obtain ⟨c₁, read, past⟩ := parseName_reads profile named apart opened.2
  have here : c₁.rest = w ++ ([0x3E] ++ after) := past.rest_eq opened.2
  have skipped := skipWhitespace_reads ws (apart_cons (by decide)) here
  have next : c₁.skipWhitespace.rest = [0x3E] ++ after := skipped.rest_eq here
  have closed := past_advance next
  refine ⟨⟨(c.advance 2).offset, name⟩, _, ?_, rfl, opened.1.trans (past.trans (skipped.trans closed.1))⟩
  unfold scanEndTag
  rw [show (c.advance 2).parseName profile = _ from read]
  dsimp only
  rw [peek_here (b := 0x3E) next]
  rfl

theorem scanQuote_reads {quote : UInt8} {w w' : Bytes} (ws : Ws w) (ws' : Ws w') (quotes : quote = 0x27 ∨ quote = 0x22)
    (split : c.rest = w ++ 0x3D :: (w' ++ quote :: after)) :
    ∃ c', c.scanQuote profile = .ok (quote, c') ∧ c.Past (w ++ 0x3D :: (w' ++ [quote])) c' := by
  have solid : isWhitespace quote = false := by
    rcases quotes with rfl | rfl <;> decide
  have skipped := skipWhitespace_reads ws (apart_cons (by decide)) split
  have equals : c.skipWhitespace.rest = [0x3D] ++ (w' ++ quote :: after) := skipped.rest_eq split
  have passed := past_advance equals
  have skipped' := skipWhitespace_reads ws' (apart_cons solid) passed.2
  have opens : (c.skipWhitespace.advance 1).skipWhitespace.rest = [quote] ++ after := skipped'.rest_eq passed.2
  have opened := past_advance opens
  refine ⟨_, ?_, skipped.trans (passed.1.trans (skipped'.trans opened.1))⟩
  unfold scanQuote
  dsimp only
  rw [peek_here (b := 0x3D) equals, if_neg (by decide), peek_here (b := quote) opens, if_neg]
  · rfl
  · rcases quotes with rfl | rfl <;> decide

theorem scanValue_reads {quote : UInt8} {value : Bytes} (unquoted : quote ∉ value) (noTag : 0x3C ∉ value)
    (split : c.rest = value ++ quote :: after) : ∃ c', c.scanValue profile quote = .ok (⟨c.offset, value⟩, c') ∧ c.Past value c' := by
  have length : find [quote] c.rest = some value.length := by
    rw [split, find_skip unquoted, find_here, map_some, Nat.zero_add]
  have later : find [0x3C] c.rest = (find [0x3C] (quote :: after)).map (· + value.length) := by rw [split, find_skip noTag]
  have bytes : c.rest.take value.length = value := by rw [split, take_left]
  apply Exists.intro (c.advance value.length)
  constructor
  · unfold scanValue
    rw [length, later]
    cases find [0x3C] (quote :: after) with
    | none =>
      rw [map_none]
      dsimp only
      rw [bytes]
    | some lessThan =>
      rw [map_some]
      dsimp only
      rw [if_neg (by omega), bytes]
  · exact (past_advance split).1

end Cursor

end NginBase.Xml
