import NginBase.Json.LexerBounds
import NginBase.Json.Reader
import NginBase.Json.Reference

namespace NginBase.Json

open Library Cursor List Memory

namespace Memory

variable (m : Memory)

variable (region : Region) (start : Nat)

theorem write_nil : m.write region start [] = m := by
  cases region <;> simp [write]

theorem write_append (first second : Bytes) : (m.write region start first).write region (start + first.length) second =
      m.write region start (first ++ second) := by
  cases region <;> simp [write, overwrite_append]

variable (cells : Bytes)

theorem write_source_length : (m.write region start cells).source.length = m.source.length := by
  cases region <;> simp [write]

theorem write_bytes : (m.write region start cells).bytes region = overwrite (m.bytes region) start cells := by
  cases region with
  | source => rfl
  | arena => rfl
  | scratch moves =>
    simp only [write, bytes]
    by_cases current : moves = m.scratch.moves
    · simp [current]
    · simp [current, overwrite]

theorem view_write (fits : start + cells.length ≤ (m.bytes region).length) :
    (m.write region start cells).view ⟨region, start, cells.length⟩ = cells := by
  simp only [view, write_bytes]
  exact overwrite_read _ _ _ fits

theorem view_write_apart (ref : StringRef) (current : ∀ a b, region = .scratch a → ref.region = .scratch b → a = b)
    (apart : ref.region = region → ref.start + ref.size ≤ start) : (m.write region start cells).view ref = m.view ref := by
  by_cases same : ref.region = region
  · have kept := overwrite_take (m.bytes region) start cells (ref.start + ref.size) (apart same)
    have slice (text : Bytes) : (text.drop ref.start).take ref.size = (text.take (ref.start + ref.size)).drop ref.start := by
      rw [drop_take, Nat.add_sub_cancel_left]
    simp only [view, same, write_bytes]
    rw [slice, kept, slice]
  · have untouched : (m.write region start cells).bytes ref.region = m.bytes ref.region := by
      cases other : ref.region <;> cases region <;>
        first
        | rfl
        | exact absurd other same
        | (rw [current _ _ rfl other] at same; exact absurd other same)
    simp only [view, untouched]

end Memory

namespace Reader

/-- A string view that later reading leaves alone: it lies behind the cursor or in storage that
    only grows. -/
def Live (r : Reader) (ref : StringRef) : Prop :=
  match ref.region with
  | .source => ref.start + ref.size ≤ r.offset
  | .arena => ref.start + ref.size ≤ r.memory.arena.length
  | .scratch moves => moves = r.memory.scratch.moves ∧ ref.start + ref.size ≤ r.memory.scratch.bytes.length

/-- Everything live before is live after and reads the same. -/
structure Extends (r r' : Reader) : Prop where
  offset : r.offset ≤ r'.offset
  live : ∀ ref, r.Live ref → r'.Live ref
  view : ∀ ref, r.Live ref → r'.memory.view ref = r.memory.view ref

theorem Extends.refl (r : Reader) : r.Extends r := ⟨le_refl _, fun _ h => h, fun _ _ => rfl⟩

variable {r : Reader}

theorem Extends.trans {r' r'' : Reader} (first : r.Extends r') (second : r'.Extends r'') : r.Extends r'' where
  offset := first.offset.trans second.offset
  live ref h := second.live ref (first.live ref h)
  view ref h := (second.view ref (first.live ref h)).trans (first.view ref h)

variable (setup : Setup)

/-- The reader sees ahead exactly what the pure cursor sees, and borrowed parses have scratch room
    for every string that may still come. -/
structure Follows (r : Reader) (c : Cursor) (decoded : Nat) : Prop where
  offset : r.offset = c.offset
  rest : r.memory.source.drop r.offset = c.rest
  inside : r.offset ≤ r.memory.source.length
  decoded : r.decodedBytes = decoded
  room : setup.ownership = .borrowed →
    r.memory.source.length ≤ r.memory.scratch.capacity ∧ r.memory.scratch.bytes.length ≤ r.offset

variable {setup}

variable {c : Cursor} {decoded : Nat}

theorem Follows.cursor (follows : r.Follows setup c decoded) : r.cursor = c := by
  cases c with
  | mk offset rest =>
    have same := follows.offset
    have ahead := follows.rest
    dsimp only at same ahead
    simp [Reader.cursor, same, ← ahead]

theorem Follows.past {c' : Cursor} {n : Nat} (follows : r.Follows setup c decoded) (past : c.Over c' n) :
    ({ r with offset := c'.offset } : Reader).Follows setup c' decoded ∧
      r.Extends { r with offset := c'.offset } := by
  obtain ⟨inside, rfl⟩ := past
  have length := congrArg length follows.rest
  simp only [length_drop] at length
  have position := follows.offset
  have bound := follows.inside
  refine ⟨⟨rfl, ?_, ?_, follows.decoded, ?_⟩, ⟨?_, ?_, fun _ _ => rfl⟩⟩
  · simp only [advance_offset, advance_rest, ← follows.rest, drop_drop, position]
  · simp only [advance_offset]
    omega
  · intro borrowed
    obtain ⟨room, used⟩ := follows.room borrowed
    exact ⟨room, by simp only [advance_offset]; omega⟩
  · simp only [advance_offset]
    omega
  · intro ref live
    unfold Live at *
    split at live
    · simp only [advance_offset]
      omega
    · exact live
    · exact live

/-- Where the decode loop of a token at the cursor of `r` may write: `size` bytes from `output` on,
    after everything that is live. -/
structure Output (setup : Setup) (r r' : Reader) (size : Nat) (region : Region) (output : Nat) : Prop where
  offset : r'.offset = r.offset + 1 + size + 1
  source : r'.memory.source = r.memory.source
  decoded : r'.decodedBytes = r.decodedBytes
  fits : output + size ≤ (r'.memory.bytes region).length
  inPlace : region = .source → output = r.offset + 1
  current : ∀ moves, region = .scratch moves → moves = r'.memory.scratch.moves
  room : setup.ownership = .borrowed → r'.memory.scratch.capacity = r.memory.scratch.capacity ∧
    r'.memory.scratch.bytes.length = r.memory.scratch.bytes.length + size
  live : ∀ ref, r.Live ref → r'.Live ref ∧ r'.memory.view ref = r.memory.view ref ∧
    (ref.region = region → ref.start + ref.size ≤ output)

theorem allocateOutput_spec {size : Nat} (follows : r.Follows setup c decoded)
    (inside : r.offset + 1 + size + 1 ≤ r.memory.source.length) (positive : 0 < size) :
    (({ r with offset := r.offset + 1 + size + 1 } : Reader).allocateOutput setup r.offset size = none ∧ setup.Scarce) ∨
      ∃ region output r', ({ r with offset := r.offset + 1 + size + 1 } : Reader).allocateOutput setup r.offset size =
        some (region, output, r') ∧ Output setup r r' size region output := by
  have further (ref : StringRef) (live : r.Live ref) :
      ({ r with offset := r.offset + 1 + size + 1 } : Reader).Live ref := by
    unfold Live at *
    split at live <;> first | exact live | (dsimp only; omega)
  cases mode : setup.ownership with
  | inSitu =>
    refine .inr ⟨.source, r.offset + 1, { r with offset := r.offset + 1 + size + 1 },
      by simp only [allocateOutput, mode], ?_⟩
    refine ⟨rfl, rfl, rfl, ?_, fun _ => rfl, by simp, by simp [mode], fun ref live => ⟨further ref live, rfl, ?_⟩⟩
    · simp only [bytes]
      omega
    · intro same
      simp only [Live, same] at live
      omega
  | borrowed =>
    obtain ⟨room, used⟩ := follows.room mode
    have enough : r.memory.scratch.bytes.length + size ≤ r.memory.scratch.capacity := by omega
    refine .inr ⟨.scratch r.memory.scratch.moves, r.memory.scratch.bytes.length,
      { memory := { r.memory with scratch := { r.memory.scratch with bytes := r.memory.scratch.bytes ++ replicate size 0 } },
        offset := r.offset + 1 + size + 1, decodedBytes := r.decodedBytes, requests := r.requests + 1 }, ?_, ?_⟩
    · simp [allocateOutput, mode, request, ParseScratch.tryAllocate, ParseScratch.reserve, enough, positive.ne']
    · refine ⟨rfl, rfl, rfl, by simp [bytes], by simp, by simp, by simp, fun ref live => ?_⟩
      cases place : ref.region with
      | source => simpa [Live, view, bytes, place] using further ref live
      | arena => simpa [Live, view, bytes, place] using live
      | scratch moves =>
        simp only [Live, place] at live
        obtain ⟨current, bound⟩ := live
        have kept : ((r.memory.scratch.bytes ++ replicate size 0).drop ref.start).take ref.size =
            (r.memory.scratch.bytes.drop ref.start).take ref.size := by
          rw [drop_append_of_le_length (by omega), take_append_of_le_length (by simp; omega)]
        refine ⟨?_, ?_, fun _ => bound⟩
        · simp only [Live, place, length_append]
          exact ⟨current, by omega⟩
        · simp [view, bytes, place, current, kept]
  | owned =>
    by_cases granted : setup.resources.grants r.requests = true
    · refine .inr ⟨.arena, r.memory.arena.length,
        { memory := { r.memory with arena := r.memory.arena ++ replicate size 0 },
          offset := r.offset + 1 + size + 1, decodedBytes := r.decodedBytes, requests := r.requests + 1 }, ?_, ?_⟩
      · simp [allocateOutput, mode, request, granted, positive.ne']
      · refine ⟨rfl, rfl, rfl, by simp [bytes], by simp, by simp, by simp [mode], fun ref live => ?_⟩
        cases place : ref.region with
        | source => simpa [Live, view, bytes, place] using further ref live
        | arena =>
          simp only [Live, place] at live
          have kept : ((r.memory.arena ++ replicate size 0).drop ref.start).take ref.size =
              (r.memory.arena.drop ref.start).take ref.size := by
            rw [drop_append_of_le_length (by omega), take_append_of_le_length (by simp; omega)]
          refine ⟨?_, ?_, fun _ => live⟩
          · simp only [Live, place, length_append]
            omega
          · simp [view, bytes, place, kept]
        | scratch moves => simpa [Live, view, bytes, place] using live
    · refine .inl ⟨?_, r.requests, .inl (by simpa using granted)⟩
      simp [allocateOutput, mode, request, granted]

theorem decodeTo_spec {r' : Reader} {size output : Nat} {region : Region} (raw : Bytes)
    (prepared : Output setup r r' size region output) (inside : r.offset + 1 + size + 1 ≤ r.memory.source.length)
    (token : raw = (r.memory.source.drop (r.offset + 1)).take size) : match decodeString raw with
    | .error e => ∃ left, r'.decodeTo (r.offset + 1) size region output = .error (e, left)
    | .ok text => r'.decodeTo (r.offset + 1) size region output = .ok (r'.memory.write region output text, text.length) ∧
        text.length ≤ size := by
  have length : raw.length = size := by
    rw [token, length_take, length_drop]
    omega
  have keeps (m : Memory) (w : Nat) (out : Bytes) (at' : Nat) (behind : 0 + w + out.length ≤ at') :
      ((m.write region (output + w) out).source.drop (r.offset + 1)).drop at' =
        (m.source.drop (r.offset + 1)).drop at' := by
    cases place : region with
    | source =>
      simp only [drop_drop, prepared.inPlace place]
      exact overwrite_drop _ _ _ _ (by omega)
    | arena => rfl
    | scratch => rfl
  have run := transduce_eq (fun m : Memory => m.source.drop (r.offset + 1))
    (fun m written cells => m.write region (output + written) cells) (decodeStep_shrinking size) 0 (fun m w => m.write_nil region (output + w))
    (fun m w a b => by rw [← Nat.add_assoc]; exact m.write_append region (output + w) a b) keeps
    (fun m w out => by simp [m.write_source_length]) size r'.memory 0 size 0 (le_refl _)
    (by simp only [prepared.source, length_drop]; omega)
  have text : ((r'.memory.source.drop (r.offset + 1)).drop 0).take (size - 0) = raw := by
    rw [prepared.source, token, drop_zero, Nat.sub_zero]
  rw [text] at run
  have decoded : decodeString raw = translate (decodeStep size) size 0 raw := by rw [decodeString, length]
  rw [decoded]
  cases result : translate (decodeStep size) size 0 raw with
  | error e =>
    rw [result] at run
    exact run
  | ok out =>
    rw [result] at run
    simp only [Nat.zero_add] at run
    have short := translate_length (decodeStep_shrinking size) _ _ _ _ result
    exact ⟨run, by omega⟩

theorem Follows.errorHere_same (follows : r.Follows setup c decoded) (code : ParseErrorCode) (message : String) :
    (r.errorHere setup code message).Same (c.errorHere setup.toProfile code message) := by
  rw [errorHere, follows.offset]
  exact makeErrorAt_same _ _ _ _ _ _

theorem located_same (r : Reader) (e : Failure) : (r.located e).Same e := by
  cases e with
  | diagnostic d => exact ⟨rfl, rfl, rfl, rfl⟩
  | fuel => trivial

theorem lex_spec {α : Type} {read : Cursor → Except Failure (α × Cursor)} (follows : r.Follows setup c decoded)
    (moves : ∀ a c', read c = .ok (a, c') → ∃ n, c.Over c' n) : Simulates (Exhausted setup) Failure.Same
      (fun p q => p.1 = q.1 ∧ p.2.Follows setup q.2 decoded ∧ r.Extends p.2) (r.lex read) (read c) := by
  unfold lex
  rw [follows.cursor]
  cases result : read c with
  | error e => exact .error (r.located_same e)
  | ok value =>
    obtain ⟨a, c'⟩ := value
    obtain ⟨n, past⟩ := moves a c' result
    exact .ok ⟨rfl, follows.past past⟩

theorem Output.finish {r' : Reader} {c' : Cursor} {size output : Nat} {region : Region} {text : Bytes}
    (prepared : Output setup r r' size region output) (follows : r.Follows setup c decoded)
    (past : c.Over c' (1 + size + 1)) (short : text.length ≤ size) : let done : Reader :=
      { r' with memory := r'.memory.write region output text, decodedBytes := r'.decodedBytes + text.length }
    done.Live ⟨region, output, text.length⟩ ∧ done.memory.view ⟨region, output, text.length⟩ = text ∧
      done.Follows setup c' (decoded + text.length) ∧ r.Extends done := by
  obtain ⟨inside, rfl⟩ := past
  have position := follows.offset
  have moved := prepared.offset
  have length := congrArg length follows.rest
  simp only [length_drop] at length
  have fits := prepared.fits
  refine ⟨?_, ?_, ⟨?_, ?_, ?_, ?_, ?_⟩, ⟨?_, ?_, ?_⟩⟩
  · cases place : region with
    | source =>
      have := prepared.inPlace place
      simp only [Live]
      omega
    | arena =>
      simp only [place, bytes] at fits
      simp only [Live, write, overwrite_length]
      omega
    | scratch moves =>
      have current := prepared.current _ place
      simp only [place, bytes, current, if_true] at fits
      simp only [Live, write, overwrite_length, current]
      exact ⟨trivial, by omega⟩
  · exact view_write _ _ _ _ (by omega)
  · simp only [advance_offset]
    omega
  · have source : (r'.memory.write region output text).source.drop (r.offset + 1 + size + 1) =
        r.memory.source.drop (r.offset + 1 + size + 1) := by
      cases place : region with
      | source =>
        simp only [write, prepared.source]
        exact overwrite_drop _ _ _ _ (by have := prepared.inPlace place; omega)
      | arena => simp [write, prepared.source]
      | scratch => simp [write, prepared.source]
    simp only [moved, source, advance_rest, ← follows.rest, drop_drop]
    congr 1
    omega
  · simp only [write_source_length, prepared.source]
    omega
  · simp [prepared.decoded, follows.decoded]
  · intro borrowed
    obtain ⟨room, used⟩ := follows.room borrowed
    obtain ⟨capacity, grown⟩ := prepared.room borrowed
    have same : (r'.memory.write region output text).scratch.capacity = r'.memory.scratch.capacity ∧
        (r'.memory.write region output text).scratch.bytes.length = r'.memory.scratch.bytes.length := by
      cases region <;> simp [write]
    simp only [write_source_length, prepared.source]
    omega
  · simp only
    omega
  · intro ref live
    have kept := (prepared.live ref live).1
    unfold Live at *
    cases place : ref.region with
    | source => simpa [place] using kept
    | arena => cases region <;> simpa [place, write] using kept
    | scratch => cases region <;> simpa [place, write] using kept
  · intro ref live
    obtain ⟨kept, same, apart⟩ := prepared.live ref live
    rw [← same]
    refine view_write_apart _ _ _ _ _ (fun a b here there => ?_) apart
    have current := prepared.current a here
    simp only [Live, there] at kept
    omega

/-- What a parsed string stands for: a live view of its text. -/
structure Parsed (setup : Setup) (r : Reader) (s : Reference.State) (p : ParsedString × Reader)
    (q : (Bytes × SourceSpan) × Reference.State) : Prop where
  live : p.2.Live p.1.value
  view : p.2.memory.view p.1.value = q.1.1
  span : p.1.span = q.1.2
  follows : p.2.Follows setup q.2.cursor q.2.tally.decoded
  tally : q.2.tally = { s.tally with decoded := q.2.tally.decoded }
  extends' : r.Extends p.2

theorem parseString_spec {s : Reference.State} (refused : String) (follows : r.Follows setup s.cursor s.tally.decoded) :
    Simulates (Exhausted setup) Failure.Same (Parsed setup r s)
      (r.parseString setup refused) (Reference.parseString setup.toProfile s) := by
  unfold parseString Reference.parseString Reference.lex
  cases scanned : s.cursor.scanString setup.toProfile with
  | error e =>
    simp only [lex, follows.cursor, scanned]
    exact .error (r.located_same e)
  | ok value =>
    obtain ⟨token, c'⟩ := value
    obtain ⟨past, first, raw, long⟩ := scanString_over scanned
    obtain ⟨moved, further⟩ := follows.past past
    have position : c'.offset = r.offset + 1 + token.raw.length + 1 := by
      rw [past.2, advance_offset, follows.offset]
      omega
    have start : token.first = r.offset := first.trans follows.offset.symm
    have length := congrArg length follows.rest
    have ahead := past.1
    simp only [length_drop] at length
    have inside : r.offset + 1 + token.raw.length + 1 ≤ r.memory.source.length := by omega
    have slice : token.raw = (r.memory.source.drop (r.offset + 1)).take token.raw.length := by
      rw [← drop_drop, follows.rest]
      exact raw
    simp only [lex, follows.cursor, scanned, ok_bind, pure_eq_ok]
    by_cases plain : token.escaped = false
    · simp only [plain]
      refine .ok ⟨?_, ?_, rfl, moved, rfl, further⟩
      · simp only [Live]
        omega
      · simp only [start]
        exact slice.symm
    · rw [if_neg plain, if_neg plain]
      refine .ite (by rw [follows.decoded]) (fun _ _ => .error (makeErrorAt_same _ _ _ _ _ _)) (fun _ _ => ?_)
      have positive : 0 < token.raw.length := by
        have := long (by simpa using plain)
        omega
      simp only [start, position, StringToken.text, if_neg plain]
      rcases allocateOutput_spec follows inside positive with ⟨none, scarce⟩ | ⟨region, output, r', some, prepared⟩
      · simp only [none]
        exact .giveUp ⟨scarce, .inl rfl⟩
      simp only [some]
      have run := decodeTo_spec token.raw prepared inside slice
      cases result : decodeString token.raw with
      | error e =>
        simp only [result] at run
        obtain ⟨left, failed⟩ := run
        simp only [failed]
        exact .error (located_same _ _)
      | ok text =>
        simp only [result] at run
        obtain ⟨written, short⟩ := run
        obtain ⟨live, view, follows', extends'⟩ := prepared.finish follows past short
        simp only [written]
        exact .ok ⟨live, view, rfl, follows', rfl, extends'⟩

end Reader

end NginBase.Json
