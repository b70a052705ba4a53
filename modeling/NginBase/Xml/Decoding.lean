import NginBase.Xml.Bounds
import NginBase.Xml.Parser

namespace NginBase.Xml

open Library List Nat Slice

theorem encodeUnits_length (value : Nat) : (Unicode.encodeUnits value).length ≤ 4 := by
  unfold Unicode.encodeUnits
  split
  · simp
  · split
    · simp
    · split <;> simp

theorem decodeEntity_length {entity out : Bytes} (h : decodeEntity entity = .ok out) : out.length ≤ entity.length + 2 := by
  unfold decodeEntity at h
  iterate 5
    split at h
    · cases h
      simp
  split at h
  · dsimp only at h
    generalize skipped : (if peekByte entity 1 = 0x78 ∨ peekByte entity 1 = 0x58 then 2 else 1) = marks at h
    have least : 1 ≤ marks := by
      rw [← skipped]
      split <;> decide
    split at h
    · cases h
    rename_i digits
    have long : marks < entity.length := by
      apply Nat.lt_of_not_le
      intro short
      exact digits (List.drop_eq_nil_of_le short)
    split at h
    · cases h
    rename_i codePoint consumed _
    split at h
    · cases h
    cases encoded : appendUtf8 codePoint with
    | none =>
      rw [encoded] at h
      cases h
    | some text =>
      rw [encoded] at h
      cases h
      unfold appendUtf8 at encoded
      split at encoded
      · cases encoded
      cases encoded
      have := encodeUnits_length codePoint
      omega
  · cases h

theorem decodeStep_shrinking (size : Nat) : Shrinking (decodeStep size) := by
  intro read text out n nonempty h
  cases text with
  | nil => exact absurd rfl nonempty
  | cons value rest =>
    simp only [decodeStep] at h
    split at h
    · obtain ⟨rfl, rfl⟩ := h
      cases rest with
      | nil => simp
      | cons next rest =>
        simp only [length_cons, length_nil]
        by_cases feed : (next :: rest).head? = some 0x0A
        · rw [if_pos feed]
          omega
        · rw [if_neg feed]
          omega
    · split at h
      · obtain ⟨rfl, rfl⟩ := h
        simp
      · split at h
        · cases h
        · rename_i semicolon found
          have bound := find_bound found
          simp only [length_cons] at bound
          split at h
          · cases h
          rename_i text decoded
          obtain ⟨rfl, rfl⟩ := h
          have short := decodeEntity_length decoded
          rw [length_take] at short
          simp only [length_cons]
          omega

theorem decodeXmlText_length {raw text : Bytes} (h : decodeXmlText raw = .ok text) : text.length ≤ raw.length :=
  translate_length (decodeStep_shrinking _) _ _ _ _ h

theorem needsDecode_pos {raw : Bytes} (needed : ¬ needsDecode raw = false) : 0 < raw.length := by
  cases raw with
  | nil => exact absurd rfl needed
  | cons => exact succ_pos _

namespace ParseContext

/-- A reference whose text later reading leaves alone: it lies behind the cursor or in the arena. -/
def Live (ctx : ParseContext) (ref : TextRef) : Prop :=
  ref.length = 0 ∨
    if decodedBit ≤ ref.offsetOrId then ref.offsetOrId - decodedBit < ctx.memory.decoded.length
    else ref.offsetOrId + ref.length ≤ ctx.offset

/-- Everything live before is live after and reads the same. -/
structure Extends (ctx ctx' : ParseContext) : Prop where
  offset : ctx.offset ≤ ctx'.offset
  live : ∀ ref, ctx.Live ref → ctx'.Live ref
  text : ∀ ref, ctx.Live ref → ctx'.memory.text ref = ctx.memory.text ref

theorem Extends.trans {a b c : ParseContext} (first : a.Extends b) (second : b.Extends c) : a.Extends c where
  offset := first.offset.trans second.offset
  live ref h := second.live ref (first.live ref h)
  text ref h := (second.text ref (first.live ref h)).trans (first.text ref h)

theorem Extends.of_same {ctx ctx' : ParseContext} (memory : ctx'.memory = ctx.memory) (offset : ctx'.offset = ctx.offset) :
    ctx.Extends ctx' where
  offset := le_of_eq offset.symm
  live ref h := by
    unfold Live at *
    rwa [memory, offset]
  text ref _ := by rw [memory]

theorem Extends.refl (ctx : ParseContext) : ctx.Extends ctx := .of_same rfl rfl

structure Reads (ctx : ParseContext) (ref : TextRef) (text : Bytes) : Prop where
  live : ctx.Live ref
  text : ctx.memory.text ref = text

theorem Reads.mono {ctx ctx' : ParseContext} {ref : TextRef} {text : Bytes} (reads : ctx.Reads ref text)
    (later : ctx.Extends ctx') : ctx'.Reads ref text :=
  ⟨later.live ref reads.live, (later.text ref reads.live).trans reads.text⟩

/-- The context sees ahead exactly what the pure cursor sees, in a source that 32-bit references
    reach, with no more decoded texts than bytes read. -/
structure Follows (ctx : ParseContext) (c : Cursor) : Prop where
  offset : ctx.offset = c.offset
  rest : ctx.memory.source.drop ctx.offset = c.rest
  inside : ctx.offset ≤ ctx.memory.source.length
  small : ctx.memory.source.length < decodedBit
  decoded : ctx.memory.decoded.length ≤ ctx.offset

variable {ctx ctx' : ParseContext} {c c' : Cursor} {n : Nat}

theorem Follows.cursor (follows : ctx.Follows c) : ctx.cursor = c := by
  cases c with
  | mk offset rest =>
    have same := follows.offset
    have ahead := follows.rest
    dsimp only at same ahead
    simp [ParseContext.cursor, same, ← ahead]

theorem Follows.size (follows : ctx.Follows c) : c.size = ctx.memory.source.length := by
  have inside := follows.inside
  unfold Cursor.size
  rw [← follows.offset, ← follows.rest, length_drop]
  omega

theorem Follows.of_same (follows : ctx.Follows c) (memory : ctx'.memory = ctx.memory) (offset : ctx'.offset = ctx.offset) :
    ctx'.Follows c where
  offset := offset.trans follows.offset
  rest := by rw [memory, offset]; exact follows.rest
  inside := by rw [memory, offset]; exact follows.inside
  small := by rw [memory]; exact follows.small
  decoded := by rw [memory, offset]; exact follows.decoded

section

variable (follows : ctx.Follows c) (over' : c.Over c' n)

include follows over'

theorem Follows.past (memory : ctx'.memory = ctx.memory) (offset : ctx'.offset = c'.offset) : ctx'.Follows c' := by
  have position := follows.offset
  have moved := over'.offset
  have length := congrArg length follows.rest
  rw [length_drop] at length
  have room := over'.inside
  have inside := follows.inside
  have decoded := follows.decoded
  constructor
  · exact offset
  · rw [memory, offset, over'.rest, ← follows.rest, drop_drop, moved, position]
  · rw [memory]
    omega
  · rw [memory]
    exact follows.small
  · rw [memory]
    omega

theorem Follows.past_extends (memory : ctx'.memory = ctx.memory) (offset : ctx'.offset = c'.offset) : ctx.Extends ctx' := by
  have position := follows.offset
  have moved := over'.offset
  have later : ctx.offset ≤ ctx'.offset := by omega
  constructor
  · exact later
  · intro ref live
    rcases live with empty | live
    · exact .inl empty
    right
    rw [memory]
    by_cases arena : decodedBit ≤ ref.offsetOrId
    · rw [if_pos arena] at live ⊢
      exact live
    · rw [if_neg arena] at live ⊢
      exact live.trans later
  · intro ref _
    rw [memory]

end

theorem Follows.slice {s : Slice} (follows : ctx.Follows c) (passes : c.Passes s c') :
    (ctx.memory.source.drop s.first).take s.bytes.length = s.bytes := by
  have first := passes.first
  have bytes := passes.bytes
  rw [← follows.rest, drop_drop, ← follows.offset] at bytes
  rw [← follows.offset] at first
  rwa [show ctx.offset + (s.first - ctx.offset) = s.first by omega] at bytes

theorem text_sourceText {m : Memory} {first length : Nat} (small : m.source.length < decodedBit)
    (inside : first + length ≤ m.source.length) : m.text (sourceText first length) = (m.source.drop first).take length := by
  unfold decodedBit at small
  have offset : first % 2 ^ 32 = first := mod_eq_of_lt (by omega)
  have size : length % 2 ^ 32 = length := mod_eq_of_lt (by omega)
  unfold sourceText Memory.text decodedBit
  dsimp only
  rw [offset, size]
  split
  · rename_i empty
    rw [empty, take_zero]
  · rw [if_neg (by omega : ¬ 2 ^ 31 ≤ first)]

theorem live_sourceText {first length : Nat} (follows : ctx.Follows c) (behind : first + length ≤ ctx.offset) :
    ctx.Live (sourceText first length) := by
  have small := follows.small
  have inside := follows.inside
  unfold decodedBit at small
  have offset : first % 2 ^ 32 = first := mod_eq_of_lt (by omega)
  have size : length % 2 ^ 32 = length := mod_eq_of_lt (by omega)
  right
  unfold sourceText decodedBit
  dsimp only
  rw [offset, size, if_neg (by omega)]
  exact behind

theorem Follows.reads {s : Slice} (follows : ctx.Follows c) (behind : s.last ≤ ctx.offset)
    (bytes : (ctx.memory.source.drop s.first).take s.bytes.length = s.bytes) :
    ctx.Reads (sourceText s.first s.bytes.length) s.bytes := by
  constructor
  · exact live_sourceText follows behind
  · rw [text_sourceText follows.small (behind.trans follows.inside), bytes]

theorem Follows.reads_stored {s : Slice} (follows : ctx.Follows c) (behind : s.last ≤ ctx.offset)
    (bytes : (ctx.memory.source.drop s.first).take s.bytes.length = s.bytes) : ctx.Reads (storeSource s) s.bytes := by
  unfold storeSource
  split
  · rename_i empty
    rw [empty]
    exact ⟨.inl rfl, rfl⟩
  · exact follows.reads behind bytes

section

variable {raw : Slice}

theorem decodeInSitu_eq (setup : Setup) (ctx : ParseContext)
    (bytes : (ctx.memory.source.drop raw.first).take raw.bytes.length = raw.bytes)
    (inside : raw.last ≤ ctx.memory.source.length) : match decodeXmlText raw.bytes with
    | .error e => ∃ source,
      ctx.decodeInSitu setup raw = .error ({ ctx with memory := { ctx.memory with source } }.entityError setup raw e)
    | .ok text =>
      ctx.decodeInSitu setup raw =
        (do
          let ctx := { ctx with memory := { ctx.memory with source := overwrite ctx.memory.source raw.first text } }
          ctx.checkDecoded setup raw text.length
          return (sourceText raw.first text.length, { ctx with decodedBytes := ctx.decodedBytes + text.length })) := by
  have run := transduce_eq (fun source : Bytes => source.drop raw.first)
    (fun source written cells => overwrite source (raw.first + written) cells) (decodeStep_shrinking raw.bytes.length) 0
    (fun source w => by simp) (fun source w a b => by rw [← add_assoc]; exact overwrite_append _ _ _ _)
    (fun source w out r behind => by
      rw [drop_drop, drop_drop]
      exact overwrite_drop _ _ _ _ (by omega))
    (fun source w out => by simp) raw.bytes.length ctx.memory.source 0 raw.bytes.length 0 (le_refl _)
    (by
      rw [length_drop]
      unfold last at inside
      omega)
  rw [List.drop_zero, Nat.sub_zero, bytes] at run
  unfold decodeInSitu decodeXmlText
  dsimp only
  generalize translate (decodeStep raw.bytes.length) raw.bytes.length 0 raw.bytes = result at run ⊢
  cases result with
  | error e =>
    obtain ⟨source, failed⟩ := run
    rw [failed]
    exact ⟨source, rfl⟩
  | ok text =>
    rw [run, zero_add, add_zero]

section

variable {text : Bytes} (follows : ctx.Follows c) (over' : c.Over c' n) (passes : c.Passes raw c')
  (short : text.length ≤ raw.bytes.length) (offset : ctx'.offset = c'.offset)
  (source : ctx'.memory.source = overwrite ctx.memory.source raw.first text)
  (decoded : ctx'.memory.decoded = ctx.memory.decoded)

include follows over' passes short offset source decoded

theorem Follows.overwritten : ctx'.Follows c' := by
  have moved : ({ ctx with offset := c'.offset } : ParseContext).Follows c' := follows.past over' rfl rfl
  have behind := passes.last
  unfold last at behind
  constructor
  · exact offset
  · rw [source, offset, overwrite_drop _ _ _ _ (by omega)]
    exact moved.rest
  · rw [source, offset, overwrite_length]
    exact moved.inside
  · rw [source, overwrite_length]
    exact moved.small
  · rw [decoded, offset]
    exact moved.decoded

theorem Follows.overwritten_extends : ctx.Extends ctx' := by
  have first := passes.first
  have position := follows.offset
  have moved := over'.offset
  have later : ctx.offset ≤ ctx'.offset := by omega
  constructor
  · exact later
  · intro ref live
    rcases live with empty | live
    · exact .inl empty
    right
    rw [decoded]
    by_cases arena : decodedBit ≤ ref.offsetOrId
    · rw [if_pos arena] at live ⊢
      exact live
    · rw [if_neg arena] at live ⊢
      exact live.trans later
  · intro ref live
    unfold Memory.text
    rw [decoded, source, overwrite_length]
    rcases live with empty | live
    · rw [if_pos empty, if_pos empty]
    by_cases arena : decodedBit ≤ ref.offsetOrId
    · simp only [if_pos arena]
    rw [if_neg arena] at live
    have kept := overwrite_take ctx.memory.source raw.first text (ref.offsetOrId + ref.length) (by omega)
    have slice (bytes : Bytes) : (bytes.drop ref.offsetOrId).take ref.length =
        (bytes.take (ref.offsetOrId + ref.length)).drop ref.offsetOrId := by
      rw [List.drop_take, Nat.add_sub_cancel_left]
    rw [slice, kept, ← slice]

theorem Follows.overwritten_reads : ctx'.Reads (sourceText raw.first text.length) text := by
  have there := follows.overwritten over' passes short offset source decoded
  have behind := passes.last
  unfold last at behind
  have inside := there.inside
  rw [source, overwrite_length] at inside
  apply there.reads (s := ⟨raw.first, text⟩)
  · unfold last
    dsimp only
    omega
  · dsimp only
    rw [source, overwrite_read _ _ _ (by omega)]

end

section

variable {text : Bytes} (follows : ctx.Follows c) (over' : c.Over c' n) (passes : c.Passes raw c')
  (present : 0 < raw.bytes.length) (short : text.length ≤ raw.bytes.length) (offset : ctx'.offset = c'.offset)
  (memory : ctx'.memory = { ctx.memory with decoded := ctx.memory.decoded ++ [text] })

include follows over' passes present offset memory

theorem Follows.stored : ctx'.Follows c' := by
  have moved : ({ ctx with offset := c'.offset } : ParseContext).Follows c' := follows.past over' rfl rfl
  have first := passes.first
  have behind := passes.last
  unfold last at behind
  have position := follows.offset
  have decoded := follows.decoded
  constructor
  · exact offset
  · rw [memory, offset]
    exact moved.rest
  · rw [memory, offset]
    exact moved.inside
  · rw [memory]
    exact moved.small
  · rw [memory]
    simp only [length_append, length_singleton]
    omega

omit passes present in
theorem Follows.stored_extends : ctx.Extends ctx' := by
  have position := follows.offset
  have moved := over'.offset
  have later : ctx.offset ≤ ctx'.offset := by omega
  constructor
  · exact later
  · intro ref live
    rcases live with empty | live
    · exact .inl empty
    right
    rw [memory]
    by_cases arena : decodedBit ≤ ref.offsetOrId
    · rw [if_pos arena] at live ⊢
      rw [length_append]
      exact lt_of_lt_of_le live (le_add_right _ _)
    · rw [if_neg arena] at live ⊢
      exact live.trans later
  · intro ref live
    unfold Memory.text
    rw [memory]
    rcases live with empty | live
    · rw [if_pos empty, if_pos empty]
    by_cases arena : decodedBit ≤ ref.offsetOrId
    · rw [if_pos arena] at live
      rw [getElem?_append_left live]
    · simp only [if_neg arena]

include short

theorem Follows.stored_reads : ctx'.Reads ⟨decodedBit + ctx.memory.decoded.length, text.length % 2 ^ 32⟩ text := by
  have there := follows.stored over' passes present offset memory
  have behind := passes.last
  unfold last at behind
  have inside := there.inside
  have small := there.small
  unfold decodedBit at small
  have size : text.length % 2 ^ 32 = text.length := mod_eq_of_lt (by omega)
  rw [size]
  constructor
  · right
    rw [if_pos (Nat.le_add_right _ _), memory, List.length_append, Nat.add_sub_cancel_left]
    exact lt_succ_self _
  · unfold Memory.text
    rw [if_pos (Nat.le_add_right _ _), memory, Nat.add_sub_cancel_left, List.getElem?_append_right (Nat.le_refl _),
      Nat.sub_self]
    split
    · rename_i empty
      exact (eq_nil_of_length_eq_zero empty).symm
    · exact take_length

end

end

end ParseContext

end NginBase.Xml
