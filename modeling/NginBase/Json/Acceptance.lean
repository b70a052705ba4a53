import NginBase.Json.LexerGrammar
import NginBase.Json.CostBounds
import NginBase.Json.EventEquivalence

namespace NginBase.Json

open Library Audited Cursor List Parser Reference Value Grammar Unicode

structure Strict (profile : Profile) : Prop where
  comments : profile.options.comments = .reject
  trailingCommas : profile.options.trailingCommas = .reject
  duplicateKeys : profile.options.duplicateKeys = .preserve
  utf8 : profile.options.utf8 = .validate

/-- A value that reading keeps whole: no object repeats a key, unless the options preserve them. -/
def Value.Keeps (profile : Profile) (v : Value) : Prop :=
  v.Holds (fun _ => True) fun keys => profile.options.duplicateKeys = .preserve ∨ keys.Nodup

theorem Strict.keeps {profile : Profile} (strict : Strict profile) (v : Value) : v.Keeps profile := by
  induction v using induct with
  | scalar value => trivial
  | array elements ih => exact (holds_array _ _ elements).mpr ih
  | object members ih => exact (holds_object _ _ members).mpr ⟨.inl strict.duplicateKeys, ih⟩

namespace Syntax

variable {profile : Profile} {c c' : Cursor} {k : Cost}

theorem keepAll_keeps {policy : DuplicateKeyPolicy} {members new : List Member}
    (distinct : policy = .preserve ∨ ((members ++ new).map Prod.fst).Nodup) :
    keepAll policy members new = some (members ++ new) := by
  induction new generalizing members with
  | nil => simp [keepAll]
  | cons member new ih =>
    have kept : keep policy members member = some (members ++ [member]) := by
      unfold keep
      split
      · rfl
      rename_i found
      rcases distinct with rfl | distinct
      · rfl
      · rcases findIdx?_eq_some_iff_getElem.mp found with ⟨_, same, _⟩
        rw [map_append, nodup_append] at distinct
        exact absurd (of_decide_eq_true same) (distinct.2.2 _ (mem_map_of_mem (getElem_mem _)) _ (by simp))
    rw [keepAll, kept, Option.bind_some, ih (by simpa using distinct), append_assoc, singleton_append]

theorem eraseMembers_keys (members : List Member) : (eraseMembers members).map Prod.fst = members.map Prod.fst := by
  induction members with
  | nil => rfl
  | cons member rest ih => rw [eraseMembers, map_cons, ih, map_cons]

theorem settle_keeps {members : List Member} {ms : List (Bytes × Value)}
    (keys : profile.options.duplicateKeys = .preserve ∨ (ms.map Prod.fst).Nodup) (meaning : eraseMembers members = ms) :
    settle profile [] members = .done members 0 := by
  rw [← meaning, eraseMembers_keys] at keys
  rw [settle, keepAll_keeps (by simpa using keys), nil_append]

section

theorem readString_sound {text : Bytes} {span : SourceSpan} (h : readString profile c = .done ((text, span), c') k) :
    ∃ raw, Chars raw text ∧ c.rest = 0x22 :: (raw ++ 0x22 :: c'.rest) := by
  rcases free_bind_done h with ⟨⟨token, c₁⟩, scanned, h⟩
  rcases free_bind_done h with ⟨text', decoded, h⟩
  cases h
  exact ⟨token.raw, scanString_chars scanned decoded⟩

theorem separator_sound (strict : Strict profile) {close : UInt8} {expected trailing : String} {closed : Bool}
    (h : c.separator profile close expected trailing = .ok (closed, c')) :
    (closed = true → ∃ w, Ws w ∧ c.rest = w ++ c'.rest ∧ peekByte c'.rest = close) ∧
      (closed = false → ∃ comma, Structural 0x2C comma ∧ c.rest = comma ++ c'.rest ∧ NoTrivia c'.rest) := by
  rcases bind_ok h with ⟨⟨u, c₁⟩, first, h⟩
  rcases skipTrivia_ws strict.comments first with ⟨w, ws, split⟩
  dsimp only at h
  by_cases here : peekByte c₁.rest = close
  · rw [if_pos here] at h
    cases h
    exact ⟨fun _ => ⟨w, ws, split, here⟩, nofun⟩
  · rw [if_neg here] at h
    by_cases comma : peekByte c₁.rest = 0x2C
    · rw [if_neg (not_not.mpr comma)] at h
      rcases bind_ok h with ⟨⟨u, c₂⟩, second, h⟩
      rcases skipTrivia_ws strict.comments second with ⟨w', ws', split'⟩
      rcases skipTrivia_over second with ⟨_, _, stop⟩
      dsimp only at h
      rw [strict.trailingCommas] at h
      by_cases again : peekByte c₂.rest = close
      · rw [if_pos again] at h
        cases h
      rw [if_neg again] at h
      cases h
      refine ⟨nofun, fun _ => ⟨w ++ 0x2C :: w', ⟨w, w', rfl, ws, ws'⟩, ?_, stop⟩⟩
      rcases peekByte_eq comma (by decide) with ⟨after, found⟩
      rw [advance_rest, found] at split'
      rw [split, found, show after = w' ++ c'.rest from split']
      simp
    · rw [if_pos comma] at h
      cases h

theorem colon_sound (strict : Strict profile) {expected : String} {u : Unit}
    (h : c.colon profile expected = .ok (u, c')) : ∃ w, Ws w ∧ c.rest = w ++ 0x3A :: c'.rest := by
  rcases bind_ok h with ⟨⟨v, c₁⟩, skipped, h⟩
  rcases skipTrivia_ws strict.comments skipped with ⟨w, ws, split⟩
  dsimp only at h
  by_cases colon : peekByte c₁.rest = 0x3A
  · rw [if_neg (not_not.mpr colon)] at h
    cases h
    rcases peekByte_eq colon (by decide) with ⟨after, found⟩
    exact ⟨w, ws, by rw [split, advance_rest, found]; rfl⟩
  · rw [if_pos colon] at h
    cases h

abbrev Reads (profile : Profile) (parse : Cursor → Audited Cost (SpannedValue × Cursor)) : Prop :=
  ∀ c tree c' k, parse c = .done (tree, c') k →
    ∃ w s, Ws w ∧ Denotes profile.fromChars s tree.erase ∧ c.rest = w ++ (s ++ c'.rest)

theorem Ws.nil_of_noTrivia {w rest : Bytes} (ws : Ws w) (stop : NoTrivia (w ++ rest)) : w = [] := by
  cases w with
  | nil => rfl
  | cons b w =>
    have blank := (isWhitespace_iff b).mpr (ws b (by simp))
    have solid : isWhitespace b = false := stop.1
    rw [blank] at solid
    cases solid

variable {parse : Cursor → Audited Cost (SpannedValue × Cursor)}

theorem Reads.noTrivia (reads : Reads profile parse) {tree : SpannedValue} (stop : NoTrivia c.rest)
    (h : parse c = .done (tree, c') k) :
    ∃ s, Denotes profile.fromChars s tree.erase ∧ c.rest = s ++ c'.rest := by
  rcases reads c tree c' k h with ⟨w, s, ws, denotes, split⟩
  rw [split] at stop
  cases Ws.nil_of_noTrivia ws stop
  exact ⟨s, denotes, split⟩

section

variable (strict : Strict profile) (reads : Reads profile parse)

include strict reads

theorem arrayLoop_sound {fuel : Nat} {values : List SpannedValue} (stop : NoTrivia c.rest)
    (h : arrayLoop profile parse fuel c = .done (values, c') k) :
    ∃ s w, Elements (Denotes profile.fromChars) s (eraseElements values) ∧ Ws w ∧
      c.rest = s ++ (w ++ c'.rest) ∧ peekByte c'.rest = 0x5D := by
  induction fuel generalizing c values k with
  | zero => cases h
  | succ fuel ih =>
    rcases bind_done h with ⟨⟨tree, c₁⟩, _, _, value, h, _⟩
    rcases reads.noTrivia stop value with ⟨s, denotes, split⟩
    rcases free_bind_done h with ⟨⟨closed, c₂⟩, separated, h⟩
    rcases separator_sound strict separated with ⟨ends, continues⟩
    cases closed with
    | true =>
      cases h
      rcases ends rfl with ⟨w, ws, split', close⟩
      exact ⟨s, w, .one denotes, ws, by rw [split, split'], close⟩
    | false =>
      rcases continues rfl with ⟨comma, separator, split', stop'⟩
      rcases bind_done h with ⟨⟨trees, c₃⟩, _, _, rest, h, _⟩
      cases h
      rcases ih stop' rest with ⟨s', w, elements, ws, split'', close⟩
      exact ⟨s ++ (comma ++ s'), w, .more denotes separator elements, ws, by rw [split, split', split'']; simp, close⟩

theorem parseArray_sound {depth : Nat} {tree : SpannedValue} (bracket : peekByte c.rest = 0x5B)
    (h : parseArray profile parse depth c = .done (tree, c') k) :
    ∃ s, Denotes profile.fromChars s tree.erase ∧ c.rest = s ++ c'.rest := by
  rcases peekByte_eq bracket (by decide) with ⟨body, opened⟩
  rcases charge_bind_done h with ⟨_, h, _⟩
  rcases free_bind_done h with ⟨⟨_, c₁⟩, skipped, h⟩
  rcases skipTrivia_ws strict.comments skipped with ⟨w, ws, split⟩
  rcases skipTrivia_over skipped with ⟨_, _, stop⟩
  rcases bind_done h with ⟨⟨values, c₂⟩, _, _, inside, h, _⟩
  cases h
  have split : body = w ++ c₁.rest := by rw [advance_rest, opened] at split; exact split
  unfold arrayValues at inside
  by_cases empty : peekByte c₁.rest = 0x5D
  · rw [if_pos empty] at inside
    cases inside
    rcases peekByte_eq empty (by decide) with ⟨after, closed⟩
    refine ⟨0x5B :: (w ++ [0x5D]), .emptyArray ws, ?_⟩
    rw [opened, split, advance_rest, closed]
    simp
  · rw [if_neg empty] at inside
    rcases arrayLoop_sound strict reads stop inside with ⟨s, w', elements, ws', split', close⟩
    rcases peekByte_eq close (by decide) with ⟨after, closed⟩
    refine ⟨0x5B :: (w ++ (s ++ (w' ++ [0x5D]))), .array ws elements ws', ?_⟩
    rw [opened, split, split', advance_rest, closed]
    simp

theorem objectLoop_sound {fuel : Nat} {members : List Member}
    (h : objectLoop profile parse fuel c = .done (members, c') k) :
    ∃ s w, Members (Denotes profile.fromChars) s (eraseMembers members) ∧ Ws w ∧
      c.rest = s ++ (w ++ c'.rest) ∧ peekByte c'.rest = 0x7D := by
  induction fuel generalizing c members k with
  | zero => cases h
  | succ fuel ih =>
    rcases bind_done h with ⟨⟨⟨key, keySpan⟩, c₁⟩, _, _, named, h, _⟩
    rcases readString_sound named with ⟨raw, chars, split₁⟩
    rcases free_bind_done h with ⟨⟨_, c₂⟩, colon, h⟩
    rcases colon_sound strict colon with ⟨w, ws, split₂⟩
    rcases bind_done h with ⟨⟨tree, c₃⟩, _, _, value, h, _⟩
    rcases reads _ _ _ _ value with ⟨w', s, ws', denotes, split₃⟩
    rcases free_bind_done h with ⟨⟨closed, c₄⟩, separated, h⟩
    rcases separator_sound strict separated with ⟨ends, continues⟩
    have member : Member (Denotes profile.fromChars)
        (0x22 :: (raw ++ 0x22 :: ((w ++ 0x3A :: w') ++ s))) (key, tree.erase) :=
      .pair chars ⟨w, w', rfl, ws, ws'⟩ denotes
    cases closed with
    | true =>
      cases h
      rcases ends rfl with ⟨w'', ws'', split₄, close⟩
      exact ⟨_, w'', .one member, ws'', by rw [split₁, split₂, split₃, split₄]; simp, close⟩
    | false =>
      rcases continues rfl with ⟨comma, separator, split₄, _⟩
      rcases bind_done h with ⟨⟨more, c₅⟩, _, _, rest, h, _⟩
      cases h
      rcases ih rest with ⟨s', w'', tail, ws'', split₅, close⟩
      exact ⟨_, w'', .more member separator tail, ws'', by rw [split₁, split₂, split₃, split₄, split₅]; simp, close⟩

theorem parseObject_sound {depth : Nat} {tree : SpannedValue} (brace : peekByte c.rest = 0x7B)
    (h : parseObject profile parse depth c = .done (tree, c') k) :
    ∃ s, Denotes profile.fromChars s tree.erase ∧ c.rest = s ++ c'.rest := by
  rcases peekByte_eq brace (by decide) with ⟨body, opened⟩
  rcases charge_bind_done h with ⟨_, h, _⟩
  rcases free_bind_done h with ⟨⟨_, c₁⟩, skipped, h⟩
  rcases skipTrivia_ws strict.comments skipped with ⟨w, ws, split⟩
  rcases bind_done h with ⟨⟨members, c₂⟩, _, _, inside, h, _⟩
  simp only [settle_keeps (.inl strict.duplicateKeys) rfl] at h
  rcases bind_done h with ⟨_, _, _, kept, h, _⟩
  cases kept
  cases h
  have split : body = w ++ c₁.rest := by rw [advance_rest, opened] at split; exact split
  unfold objectMembers at inside
  by_cases empty : peekByte c₁.rest = 0x7D
  · rw [if_pos empty] at inside
    cases inside
    rcases peekByte_eq empty (by decide) with ⟨after, closed⟩
    refine ⟨0x7B :: (w ++ [0x7D]), .emptyObject ws, ?_⟩
    rw [opened, split, advance_rest, closed]
    simp
  · rw [if_neg empty] at inside
    rcases objectLoop_sound strict reads inside with ⟨s, w', elements, ws', split', close⟩
    rcases peekByte_eq close (by decide) with ⟨after, closed⟩
    refine ⟨0x7B :: (w ++ (s ++ (w' ++ [0x7D]))), .object ws elements ws', ?_⟩
    rw [opened, split, split', advance_rest, closed]
    simp

end

theorem parseValue_sound (strict : Strict profile) (fuel depth : Nat) : Reads profile (parseValue profile fuel depth) := by
  induction fuel generalizing depth with
  | zero => exact fun _ _ _ _ h => by cases h
  | succ fuel ih =>
    intro c tree c' k h
    rcases free_bind_done h with ⟨⟨_, c₁⟩, skipped, h⟩
    rcases skipTrivia_ws strict.comments skipped with ⟨w, ws, split⟩
    have prepend (found : ∃ s, Denotes profile.fromChars s tree.erase ∧ c₁.rest = s ++ c'.rest) :
        ∃ w s, Ws w ∧ Denotes profile.fromChars s tree.erase ∧ c.rest = w ++ (s ++ c'.rest) := by
      rcases found with ⟨s, denotes, split'⟩
      exact ⟨w, s, ws, denotes, by rw [split, split']⟩
    apply prepend
    dsimp only at h
    split at h
    · rename_i brace
      exact parseObject_sound strict (ih (depth + 1)) brace h
    split at h
    · rename_i bracket
      exact parseArray_sound strict (ih (depth + 1)) bracket h
    split at h
    · rcases bind_done h with ⟨⟨⟨text, span⟩, c₂⟩, _, _, string, h, _⟩
      cases h
      rcases readString_sound string with ⟨raw, chars, split'⟩
      exact ⟨0x22 :: (raw ++ [0x22]), .string chars, by rw [split']; simp⟩
    · rcases free_bind_done h with ⟨⟨⟨value, span⟩, c₂⟩, scalar, h⟩
      cases h
      rcases readScalar_denotes scalar with ⟨s, split', denotes⟩
      exact ⟨s, denotes, split'⟩

theorem parse_sound (strict : Strict profile) {input : Bytes} {tree : SpannedValue}
    (h : Syntax.parse profile input = .done tree k) : Text profile.fromChars input tree.erase := by
  rcases bind_done h with ⟨⟨root, c₁⟩, _, _, value, h, _⟩
  rcases free_bind_done h with ⟨⟨_, c₂⟩, skipped, h⟩
  rcases parseValue_sound strict _ _ _ _ _ _ value with ⟨w, s, ws, denotes, split⟩
  rcases skipTrivia_ws strict.comments skipped with ⟨w', ws', split'⟩
  dsimp only at h
  split at h
  · rename_i finished
    cases h
    rw [finished, append_nil] at split'
    exact ⟨w, s, w', by rw [← split']; exact split, ws, denotes, ws'⟩
  · cases h

end

section

def distinctCosts : AddSubmonoid Cost where
  carrier := { k | k.repeated = 0 }
  zero_mem' := rfl
  add_mem' first second := by
    rw [Set.mem_setOf_eq, Cost.add_repeated, first, second]

variable {after w : Bytes}

theorem separator_close (profile : Profile) {close : UInt8} (expected trailing : String) (ws : Ws w)
    (solid : NoTrivia (close :: after)) (here : c.rest = w ++ close :: after) :
    ∃ c', c.separator profile close expected trailing = .ok (true, c') ∧ c'.rest = close :: after := by
  have rest : (c.advance w.length).rest = close :: after := by rw [advance_rest, here, drop_left]
  refine ⟨c.advance w.length, ?_, rest⟩
  unfold separator
  rw [skipTrivia_append profile ws solid here, ok_bind]
  simp only [rest, peekByte_cons, if_true, pure_eq_ok]

theorem separator_comma (profile : Profile) {comma rest : Bytes} (close : UInt8) (expected trailing : String)
    (separator : Structural 0x2C comma) (solid : NoTrivia rest) (visible : close ≠ 0x2C)
    (open' : peekByte rest ≠ close) (here : c.rest = comma ++ rest) :
    ∃ c', c.separator profile close expected trailing = .ok (false, c') ∧ c'.rest = rest := by
  rcases separator with ⟨w, w', rfl, ws, ws'⟩
  have here : c.rest = w ++ 0x2C :: (w' ++ rest) := by rw [here]; simp
  have first : (c.advance w.length).rest = 0x2C :: (w' ++ rest) := by rw [advance_rest, here, drop_left]
  have second : ((c.advance w.length).advance 1).rest = w' ++ rest := by rw [advance_rest, first]; rfl
  have third : (((c.advance w.length).advance 1).advance w'.length).rest = rest := by
    rw [advance_rest, second, drop_left]
  refine ⟨_, ?_, third⟩
  unfold separator
  rw [skipTrivia_append profile ws (noTrivia_cons rfl (by decide) _) here, ok_bind]
  simp only [first, peekByte_cons, visible.symm, ne_eq, not_true_eq_false]
  rw [skipTrivia_append profile ws' solid second, ok_bind]
  simp only [third, open', if_false, pure_eq_ok]

theorem colon_here (profile : Profile) {rest : Bytes} (expected : String) (ws : Ws w) (here : c.rest = w ++ 0x3A :: rest) :
    ∃ c', c.colon profile expected = .ok ((), c') ∧ c'.rest = rest := by
  have first : (c.advance w.length).rest = 0x3A :: rest := by rw [advance_rest, here, drop_left]
  refine ⟨(c.advance w.length).advance 1, ?_, by rw [advance_rest, first]; rfl⟩
  unfold colon
  rw [skipTrivia_append profile ws (noTrivia_cons rfl (by decide) _) here, ok_bind]
  simp only [first, peekByte_cons, ne_eq, not_true_eq_false, if_false, pure_eq_ok]

theorem readString_complete (profile : Profile) {raw text : Bytes} (chars : Chars raw text)
    (here : c.rest = 0x22 :: (raw ++ 0x22 :: after)) :
    ∃ span c', (readString profile c).Yields distinctCosts ((text, span), c') ∧ c'.rest = after := by
  rcases Cursor.scanString_append profile chars here with ⟨escaped, scanned, decoded, rest⟩
  refine ⟨StringToken.span profile ⟨c.offset, raw, escaped⟩, c.advance (1 + raw.length + 1), ?_, rest⟩
  exact (Yields.free scanned).bind ((Yields.free decoded).bind
    ((Yields.charge (by split <;> rfl)).bind (Yields.pure _)))

abbrev Accepts (profile : Profile) (limit : Nat) (parse : Cursor → Audited Cost (SpannedValue × Cursor)) : Prop :=
  ∀ c w s v after, c.rest.length < limit → Ws w → Denotes profile.fromChars s v → v.Keeps profile →
    Stops after → c.rest = w ++ (s ++ after) → ∃ tree c', (parse c).Yields distinctCosts (tree, c') ∧ tree.erase = v ∧ c'.rest = after

variable {parse : Cursor → Audited Cost (SpannedValue × Cursor)} {limit : Nat}

variable {s : Bytes}

theorem denotes_opens {fromChars : Bytes → FromCharsDouble} {v : Value} (denotes : Denotes fromChars s v) (rest : Bytes) :
    peekByte (s ++ rest) ≠ 0x5D ∧ peekByte (s ++ rest) ≠ 0x7D := by
  rw [peekByte_append (denotes_noTrivia denotes rest).2]
  cases denotes with
  | number number =>
    rcases number.peek with minus | digit
    · rw [minus]
      decide
    constructor
    · intro close
      rw [close] at digit
      cases digit
    · intro close
      rw [close] at digit
      cases digit
  | _ => simp [peekByte]

theorem elements_open {fromChars : Bytes → FromCharsDouble} {vs : List Value}
    (elements : Elements (Denotes fromChars) s vs) (rest : Bytes) : NoTrivia (s ++ rest) ∧ peekByte (s ++ rest) ≠ 0x5D := by
  cases elements with
  | one element => exact ⟨(denotes_noTrivia element rest).1, (denotes_opens element rest).1⟩
  | more element =>
    rw [append_assoc]
    exact ⟨(denotes_noTrivia element _).1, (denotes_opens element _).1⟩

theorem ws_nil : Ws [] := by simp [Ws]

theorem arrayLoop_complete (accepts : Accepts profile limit parse) {vs : List Value}
    (elements : Elements (Denotes profile.fromChars) s vs) (keeps : ∀ v ∈ vs, v.Keeps profile) {fuel : Nat}
    (small : c.rest.length < limit) (enough : s.length < fuel) (ws : Ws w) (here : c.rest = s ++ (w ++ 0x5D :: after)) :
    ∃ trees c', (arrayLoop profile parse fuel c).Yields distinctCosts (trees, c') ∧ eraseElements trees = vs ∧
      c'.rest = 0x5D :: after := by
  induction elements generalizing c fuel with
  | @one s v element =>
    obtain ⟨fuel, rfl⟩ : ∃ m, fuel = m + 1 := ⟨fuel - 1, by omega⟩
    rcases accepts c [] s v _ small ws_nil element (keeps v (by simp)) (.of_ws ws (.bracket _)) here with ⟨tree, c₁, read, meaning, rest⟩
    rcases separator_close profile "Expected ',' or ']' in JSON array" "Trailing comma in JSON array" ws
      (noTrivia_cons rfl (by decide) _) rest with ⟨c₂, closed, rest'⟩
    refine ⟨[tree], c₂, ?_, by rw [← meaning]; rfl, rest'⟩
    exact read.bind ((Yields.free closed).bind (.pure _))
  | @more s comma s' v vs element separator more ih =>
    obtain ⟨fuel, rfl⟩ : ∃ m, fuel = m + 1 := ⟨fuel - 1, by omega⟩
    have here : c.rest = s ++ (comma ++ (s' ++ (w ++ 0x5D :: after))) := by rw [here]; simp
    rcases accepts c [] s v _ small ws_nil element (keeps v (by simp)) (.of_structural separator) here with ⟨tree, c₁, read, meaning, rest⟩
    rcases elements_open more (w ++ 0x5D :: after) with ⟨solid, opens⟩
    rcases separator_comma profile 0x5D "Expected ',' or ']' in JSON array" "Trailing comma in JSON array" separator solid
      (by decide) opens rest with ⟨c₂, separated, rest'⟩
    have positive : 0 < comma.length := by
      rcases separator with ⟨_, _, rfl, _, _⟩
      simp
    have shorter : c₂.rest.length < limit := by
      rw [here] at small
      rw [rest']
      simp only [length_append] at small ⊢
      omega
    have enough : s'.length < fuel := by
      simp only [length_append] at enough
      omega
    rcases ih (fun v member => keeps v (mem_cons_of_mem _ member)) shorter enough rest' with ⟨trees, c₃, looped, meaning', rest''⟩
    refine ⟨tree :: trees, c₃, ?_, by rw [← meaning, ← meaning']; rfl, rest''⟩
    exact read.bind ((Yields.free separated).bind (looped.bind (.pure _)))

theorem parseArray_complete (accepts : Accepts profile limit parse) {depth : Nat} {w' : Bytes} {vs : List Value}
    (small : c.rest.length ≤ limit) (ws : Ws w) (elements : Elements (Denotes profile.fromChars) s vs)
    (keeps : ∀ v ∈ vs, v.Keeps profile) (ws' : Ws w') (here : c.rest = 0x5B :: (w ++ (s ++ (w' ++ 0x5D :: after)))) :
    ∃ tree c', (parseArray profile parse depth c).Yields distinctCosts (tree, c') ∧ tree.erase = .array vs ∧ c'.rest = after := by
  have opened : (c.advance 1).rest = w ++ (s ++ (w' ++ 0x5D :: after)) := by rw [advance_rest, here]; rfl
  rcases elements_open elements (w' ++ 0x5D :: after) with ⟨solid, opens⟩
  have skipped := skipTrivia_append profile ws solid opened
  have rest : ((c.advance 1).advance w.length).rest = s ++ (w' ++ 0x5D :: after) := by
    rw [advance_rest, opened, drop_left]
  have shorter : ((c.advance 1).advance w.length).rest.length < limit := by
    rw [here] at small
    rw [rest]
    simp only [length_cons, length_append] at small ⊢
    omega
  have enough : s.length < ((c.advance 1).advance w.length).rest.length + 1 := by
    rw [rest]
    simp only [length_append]
    omega
  rcases arrayLoop_complete accepts elements keeps shorter enough ws' rest with ⟨trees, c₂, looped, meaning, rest'⟩
  have values : (arrayValues profile parse ((c.advance 1).advance w.length)).Yields distinctCosts (trees, c₂) := by
    rw [arrayValues, if_neg (by rw [rest]; exact opens)]
    exact looped
  refine ⟨.array ⟨profile.source, c.offset, (c₂.advance 1).offset⟩ trees, c₂.advance 1, ?_, ?_, ?_⟩
  · exact (Yields.charge rfl).bind ((Yields.free skipped).bind (values.bind
      ((Yields.charge rfl).bind ((Yields.charge rfl).bind (.pure _)))))
  · rw [SpannedValue.erase, meaning]
  · rw [advance_rest, rest']
    rfl

theorem parseArray_empty {depth : Nat} (ws : Ws w) (here : c.rest = 0x5B :: (w ++ 0x5D :: after)) :
    ∃ tree c', (parseArray profile parse depth c).Yields distinctCosts (tree, c') ∧ tree.erase = .array [] ∧ c'.rest = after := by
  have opened : (c.advance 1).rest = w ++ 0x5D :: after := by rw [advance_rest, here]; rfl
  have skipped := skipTrivia_append profile ws (noTrivia_cons rfl (by decide) _) opened
  have rest : ((c.advance 1).advance w.length).rest = 0x5D :: after := by
    rw [advance_rest, opened, drop_left]
  have values : (arrayValues profile parse ((c.advance 1).advance w.length)).Yields distinctCosts
      ([], (c.advance 1).advance w.length) := by
    rw [arrayValues, if_pos (by rw [rest]; rfl)]
    exact .pure _
  refine ⟨_, _, (Yields.charge rfl).bind ((Yields.free skipped).bind (values.bind
    ((Yields.charge rfl).bind ((Yields.charge rfl).bind (.pure _))))), rfl, ?_⟩
  rw [advance_rest, rest]
  rfl

theorem members_open {value : Bytes → Value → Prop} {ms : List (Bytes × Value)} (members : Members value s ms)
    (rest : Bytes) : ∃ more, s ++ rest = 0x22 :: more := by
  cases members with
  | one member =>
    cases member
    exact ⟨_, rfl⟩
  | more member =>
    cases member
    exact ⟨_, rfl⟩

section

variable (accepts : Accepts profile limit parse)

include accepts

theorem member_complete {s : Bytes} {m : Bytes × Value} {after : Bytes} (small : c.rest.length < limit)
    (member : Member (Denotes profile.fromChars) s m) (keeps : m.2.Keeps profile) (stop : Stops after)
    (here : c.rest = s ++ after) :
    ∃ span c₁ c₂ tree c₃, (readString profile c).Yields distinctCosts ((m.1, span), c₁) ∧
      c₁.colon profile "Expected ':' after JSON key" = .ok ((), c₂) ∧ (parse c₂).Yields distinctCosts (tree, c₃) ∧
      tree.erase = m.2 ∧ c₃.rest = after := by
  cases member with
  | @pair k key colon s v chars separator element =>
    rcases separator with ⟨w, w', rfl, ws, ws'⟩
    have here : c.rest = 0x22 :: (k ++ 0x22 :: (w ++ 0x3A :: (w' ++ (s ++ after)))) := by rw [here]; simp
    rcases readString_complete profile chars here with ⟨span, c₁, read, rest₁⟩
    rcases colon_here profile "Expected ':' after JSON key" ws rest₁ with ⟨c₂, passed, rest₂⟩
    have shorter : c₂.rest.length < limit := by
      rw [here] at small
      rw [rest₂]
      simp only [length_cons, length_append] at small ⊢
      omega
    rcases accepts c₂ w' s v after shorter ws' element keeps stop rest₂ with ⟨tree, c₃, parsed, meaning, rest₃⟩
    exact ⟨span, c₁, c₂, tree, c₃, read, passed, parsed, meaning, rest₃⟩

theorem objectLoop_complete {s : Bytes} {ms : List (Bytes × Value)}
    (members : Members (Denotes profile.fromChars) s ms) (keeps : ∀ m ∈ ms, m.2.Keeps profile)
    {fuel : Nat} {w after : Bytes} (small : c.rest.length < limit) (enough : s.length < fuel) (ws : Ws w)
    (here : c.rest = s ++ (w ++ 0x7D :: after)) :
    ∃ trees c', (objectLoop profile parse fuel c).Yields distinctCosts (trees, c') ∧ eraseMembers trees = ms ∧
      c'.rest = 0x7D :: after := by
  induction members generalizing c fuel with
  | @one s m member =>
    obtain ⟨fuel, rfl⟩ : ∃ m, fuel = m + 1 := ⟨fuel - 1, by omega⟩
    rcases member_complete accepts small member (keeps m (by simp)) (.of_ws ws (.brace _)) here with
      ⟨span, c₁, c₂, tree, c₃, read, colon, parsed, meaning, rest⟩
    rcases separator_close profile "Expected ',' or '\x7d' in JSON object" "Trailing comma in JSON object" ws
      (noTrivia_cons rfl (by decide) _) rest with ⟨c₄, closed, rest'⟩
    refine ⟨[(m.1, ⟨profile.source, span.first, tree.span.last⟩, tree)], c₄, ?_, ?_, rest'⟩
    · exact read.bind ((Yields.free colon).bind (parsed.bind ((Yields.free closed).bind (.pure _))))
    · rw [eraseMembers, eraseMembers, meaning]
  | @more s comma s' m ms member separator more ih =>
    obtain ⟨fuel, rfl⟩ : ∃ m, fuel = m + 1 := ⟨fuel - 1, by omega⟩
    have here : c.rest = s ++ (comma ++ (s' ++ (w ++ 0x7D :: after))) := by rw [here]; simp
    rcases member_complete accepts small member (keeps m (by simp)) (.of_structural separator) here with
      ⟨span, c₁, c₂, tree, c₃, read, colon, parsed, meaning, rest⟩
    rcases members_open more (w ++ 0x7D :: after) with ⟨inner, opens⟩
    rcases separator_comma profile 0x7D "Expected ',' or '\x7d' in JSON object" "Trailing comma in JSON object" separator
      (by rw [opens]; exact noTrivia_cons rfl (by decide) _) (by decide)
      (by rw [opens, peekByte_cons]; decide) rest with ⟨c₄, separated, rest'⟩
    have positive : 0 < comma.length := by
      rcases separator with ⟨_, _, rfl, _, _⟩
      simp
    have shorter : c₄.rest.length < limit := by
      rw [here] at small
      rw [rest']
      simp only [length_append] at small ⊢
      omega
    have enough : s'.length < fuel := by
      simp only [length_append] at enough
      omega
    rcases ih (fun m inside => keeps m (mem_cons_of_mem _ inside)) shorter enough rest' with ⟨trees, c₅, looped, meaning', rest''⟩
    refine ⟨(m.1, ⟨profile.source, span.first, tree.span.last⟩, tree) :: trees, c₅, ?_, ?_, rest''⟩
    · exact read.bind ((Yields.free colon).bind (parsed.bind ((Yields.free separated).bind
        (looped.bind (.pure _)))))
    · rw [eraseMembers, meaning, meaning']

theorem parseObject_complete {depth : Nat} {w s w' after : Bytes} {ms : List (Bytes × Value)}
    (small : c.rest.length ≤ limit) (ws : Ws w)
    (members : Members (Denotes profile.fromChars) s ms) (keeps : (object ms).Keeps profile)
    (ws' : Ws w') (here : c.rest = 0x7B :: (w ++ (s ++ (w' ++ 0x7D :: after)))) :
    ∃ tree c', (parseObject profile parse depth c).Yields distinctCosts (tree, c') ∧ tree.erase = .object ms ∧ c'.rest = after := by
  have opened : (c.advance 1).rest = w ++ (s ++ (w' ++ 0x7D :: after)) := by rw [advance_rest, here]; rfl
  rcases members_open members (w' ++ 0x7D :: after) with ⟨inner, opens⟩
  have skipped := skipTrivia_append profile ws (by rw [opens]; exact noTrivia_cons rfl (by decide) _) opened
  have rest : ((c.advance 1).advance w.length).rest = s ++ (w' ++ 0x7D :: after) := by
    rw [advance_rest, opened, drop_left]
  have shorter : ((c.advance 1).advance w.length).rest.length < limit := by
    rw [here] at small
    rw [rest]
    simp only [length_cons, length_append] at small ⊢
    omega
  have enough : s.length < ((c.advance 1).advance w.length).rest.length + 1 := by
    rw [rest]
    simp only [length_append]
    omega
  rcases (holds_object _ _ ms).mp keeps with ⟨keys, inside⟩
  rcases objectLoop_complete accepts members inside shorter enough ws' rest with ⟨trees, c₂, looped, meaning, rest'⟩
  have values : (objectMembers profile parse ((c.advance 1).advance w.length)).Yields distinctCosts (trees, c₂) := by
    rw [objectMembers, if_neg (by rw [rest, opens, peekByte_cons]; decide)]
    exact looped
  have settled : (settle profile [] trees).Yields distinctCosts trees := ⟨0, rfl, settle_keeps keys meaning⟩
  refine ⟨.object ⟨profile.source, c.offset, (c₂.advance 1).offset⟩ trees, c₂.advance 1, ?_, ?_, ?_⟩
  · exact (Yields.charge rfl).bind ((Yields.free skipped).bind (values.bind (settled.bind
      ((Yields.charge rfl).bind ((Yields.charge rfl).bind (.pure _))))))
  · rw [SpannedValue.erase, meaning]
  · rw [advance_rest, rest']
    rfl

end

theorem parseObject_empty {depth : Nat} (ws : Ws w) (here : c.rest = 0x7B :: (w ++ 0x7D :: after)) :
    ∃ tree c', (parseObject profile parse depth c).Yields distinctCosts (tree, c') ∧ tree.erase = .object [] ∧ c'.rest = after := by
  have opened : (c.advance 1).rest = w ++ 0x7D :: after := by rw [advance_rest, here]; rfl
  have skipped := skipTrivia_append profile ws (noTrivia_cons rfl (by decide) _) opened
  have rest : ((c.advance 1).advance w.length).rest = 0x7D :: after := by
    rw [advance_rest, opened, drop_left]
  have values : (objectMembers profile parse ((c.advance 1).advance w.length)).Yields distinctCosts
      ([], (c.advance 1).advance w.length) := by
    rw [objectMembers, if_pos (by rw [rest]; rfl)]
    exact .pure _
  have settled : (settle profile [] []).Yields distinctCosts [] := ⟨0, rfl, rfl⟩
  refine ⟨_, _, (Yields.charge rfl).bind ((Yields.free skipped).bind (values.bind (settled.bind
    ((Yields.charge rfl).bind ((Yields.charge rfl).bind (.pure _)))))), rfl, ?_⟩
  rw [advance_rest, rest]
  rfl

section

variable {fuel depth : Nat}

theorem parseValue_brace (brace : peekByte c.rest = 0x7B) :
    parseValue profile (fuel + 1) depth c = parseObject profile (parseValue profile fuel (depth + 1)) depth c := by
  have stop : NoTrivia c.rest := by
    rw [NoTrivia, brace]
    exact ⟨rfl, by decide⟩
  simp only [parseValue, Cursor.skipTrivia_noTrivia stop, free, done_zero_bind, brace, if_true]

theorem parseValue_bracket (bracket : peekByte c.rest = 0x5B) :
    parseValue profile (fuel + 1) depth c = parseArray profile (parseValue profile fuel (depth + 1)) depth c := by
  have stop : NoTrivia c.rest := by
    rw [NoTrivia, bracket]
    exact ⟨rfl, by decide⟩
  simp only [parseValue, Cursor.skipTrivia_noTrivia stop, free, done_zero_bind, bracket, if_true]
  rw [if_neg (by decide)]

theorem parseValue_string {text : Bytes} {span : SourceSpan} (quote : peekByte c.rest = 0x22)
    (read : (readString profile c).Yields distinctCosts ((text, span), c')) :
    (parseValue profile (fuel + 1) depth c).Yields distinctCosts (.scalar span (.string text), c') := by
  have stop : NoTrivia c.rest := by
    rw [NoTrivia, quote]
    exact ⟨rfl, by decide⟩
  simp only [parseValue, Cursor.skipTrivia_noTrivia stop, free, done_zero_bind, quote]
  exact read.bind ((Yields.charge rfl).bind (.pure _))

theorem parseValue_scalar {value : Scalar} {span : SourceSpan} (stop : NoTrivia c.rest)
    (plain : peekByte c.rest ≠ 0x7B ∧ peekByte c.rest ≠ 0x5B ∧ peekByte c.rest ≠ 0x22)
    (read : c.readScalar profile = .ok ((value, span), c')) :
    (parseValue profile (fuel + 1) depth c).Yields distinctCosts (.scalar span value, c') := by
  simp only [parseValue, Cursor.skipTrivia_noTrivia stop, free, done_zero_bind, plain, read]
  exact (Yields.charge rfl).bind (.pure _)

end

theorem parseValue_complete (fuel depth : Nat) : Accepts profile fuel (parseValue profile fuel depth) := by
  induction fuel generalizing depth with
  | zero => exact fun _ _ _ _ _ small => absurd small (Nat.not_lt_zero _)
  | succ fuel ih =>
    intro c w s v after small ws denotes keeps stop here
    have solid := (denotes_noTrivia denotes after).1
    have skipped := skipTrivia_append profile ws solid here
    rw [parseValue_skips]
    simp only [skipped, free, done_zero_bind]
    have rest : (c.advance w.length).rest = s ++ after := by rw [advance_rest, here, drop_left]
    have short : (c.advance w.length).rest.length ≤ fuel := by
      rw [advance_rest, length_drop]
      omega
    generalize c.advance w.length = c at rest short
    have scalar {value : Scalar} (plain : peekByte s ≠ 0x7B ∧ peekByte s ≠ 0x5B ∧ peekByte s ≠ 0x22)
        (token : Number profile.fromChars s value ∧ Stops after ∨
          (s, value) ∈ [(nullText, .null), (trueText, .bool true), (falseText, .bool false)]) :
        ∃ tree c', (parseValue profile (fuel + 1) depth c).Yields distinctCosts (tree, c') ∧ tree.erase = .scalar value ∧
          c'.rest = after := by
      refine ⟨_, _, parseValue_scalar (by rw [rest]; exact solid) ?_ (readScalar_append token rest), rfl, ?_⟩
      · rw [rest, peekByte_append (denotes_noTrivia denotes after).2]
        exact plain
      · rw [advance_rest, rest, drop_left]
    cases denotes with
    | null => exact scalar (by decide) (.inr (by simp [nullText]))
    | true => exact scalar (by decide) (.inr (by simp [trueText]))
    | false => exact scalar (by decide) (.inr (by simp [falseText]))
    | number number =>
      refine scalar ?_ (.inl ⟨number, stop⟩)
      rcases number.peek with minus | digit
      · rw [minus]
        decide
      · refine ⟨?_, ?_, ?_⟩ <;> intro other <;> rw [other] at digit <;> cases digit
    | @string s text chars =>
      have here : c.rest = 0x22 :: (s ++ 0x22 :: after) := by rw [rest]; simp
      rcases readString_complete profile chars here with ⟨span, c', read, rest'⟩
      exact ⟨_, c', parseValue_string (by rw [here]; rfl) read, rfl, rest'⟩
    | @emptyArray w blank =>
      have here : c.rest = 0x5B :: (w ++ 0x5D :: after) := by rw [rest]; simp
      rw [parseValue_bracket (by rw [here]; rfl)]
      exact parseArray_empty blank here
    | @array w s w' values before elements behind =>
      have here : c.rest = 0x5B :: (w ++ (s ++ (w' ++ 0x5D :: after))) := by rw [rest]; simp
      rw [parseValue_bracket (by rw [here]; rfl)]
      exact parseArray_complete (ih (depth + 1)) short before elements ((holds_array _ _ values).mp keeps) behind here
    | @emptyObject w blank =>
      have here : c.rest = 0x7B :: (w ++ 0x7D :: after) := by rw [rest]; simp
      rw [parseValue_brace (by rw [here]; rfl)]
      exact parseObject_empty blank here
    | @object w s w' pairs before members behind =>
      have here : c.rest = 0x7B :: (w ++ (s ++ (w' ++ 0x7D :: after))) := by rw [rest]; simp
      rw [parseValue_brace (by rw [here]; rfl)]
      exact parseObject_complete (ih (depth + 1)) short before members keeps behind here

theorem parse_complete {input : Bytes} {v : Value} (keeps : v.Keeps profile) (text : Text profile.fromChars input v) :
    ∃ tree, (Syntax.parse profile input).Yields distinctCosts tree ∧ tree.erase = v := by
  rcases text with ⟨w, s, w', rfl, ws, denotes, ws'⟩
  have stop : Stops w' := by
    have none : Stops [] := by constructor <;> simp [peekByte, isDigit]
    simpa using Stops.of_ws ws' none
  rcases parseValue_complete ((w ++ (s ++ w')).length + 1) 0 ⟨0, w ++ (s ++ w')⟩ w s v w' (Nat.lt_succ_self _) ws
    denotes keeps stop rfl with ⟨tree, c', read, meaning, rest⟩
  have here : c'.rest = w' ++ [] := by rw [rest, append_nil]
  have skipped := skipTrivia_append profile ws' ⟨rfl, by decide⟩ here
  refine ⟨tree, read.bind ((Yields.free skipped).bind ?_), meaning⟩
  dsimp only
  rw [if_pos (by rw [advance_rest, rest, drop_length])]
  exact .pure _

end

end Syntax

theorem Reference.parse_too_long {profile : Profile} {input : Bytes} (long : profile.limits.maxInputBytes < input.length) :
    ∃ e, parse profile input = .error e ∧ LimitFailure profile e := by
  unfold parse
  simp only [long]
  exact ⟨_, rfl, .inl rfl⟩

theorem Parser.parse_text (setup : Setup) {input : Bytes} {v : Value} (keeps : v.Keeps setup.toProfile)
    (valid : ValidUtf8 input) (text : Text setup.fromChars input v) :
    (∃ doc, parse setup input = .ok doc ∧ doc.tree.erase = v) ∨
      (∃ e, parse setup input = .error e ∧ MemoryFailure e ∧ setup.Scarce) ∨
      ∃ e, parse setup input = .error e ∧ LimitFailure setup.toProfile e ∧ Exceeds setup.toProfile input := by
  by_cases long : setup.limits.maxInputBytes < input.length
  · rcases parse_too_long long with ⟨e, failed, limited⟩
    have run : Simulates _ _ _ (parse setup input) _ := run_refines setup {} .owned input
    rw [failed] at run
    generalize parse setup input = x at run
    cases run with
    | giveUp gives => exact .inr (.inl ⟨_, rfl, gives.2, gives.1⟩)
    | error same =>
      exact .inr (.inr ⟨_, rfl, EventContext.limitFailure_same same limited, .inl long⟩)
  · have readable : Readable setup.toProfile input :=
      ⟨by omega, fun _ => (isValidUtf8_iff input).mpr valid⟩
    rcases Syntax.parse_complete keeps text with ⟨tree, ⟨k, distinct, parsed⟩, meaning⟩
    have checked : Checks _ _ _ _ _ (parse setup input) _ := run_checks setup {} .owned input readable
    rw [parsed] at checked
    rcases checked.done_cases with ⟨e, failed, scarce, memory⟩ | ⟨e, failed, limited, exceeds⟩ | ⟨doc, ok, _, same⟩
    · exact .inr (.inl ⟨e, failed, memory, scarce⟩)
    · exact .inr (.inr ⟨e, failed, limited, exceeds_of_not_fits parsed distinct exceeds⟩)
    · exact .inl ⟨doc, ok, by rw [same, meaning]⟩

end NginBase.Json
