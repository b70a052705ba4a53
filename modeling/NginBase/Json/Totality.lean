import NginBase.Json.LexerBounds
import NginBase.Json.Reference

namespace NginBase.Json

open Library Cursor

def Fueled {α : Type} (x : Except Failure α) : Prop := x ≠ .error .fuel

section

variable {α β : Type}

theorem Fueled.bind {x : Except Failure α} {f : α → Except Failure β} (first : Fueled x)
    (next : ∀ a, x = .ok a → Fueled (f a)) : Fueled (x >>= f) := by
  cases x with
  | error e => exact fun h => first (by cases h; rfl)
  | ok a => exact next a rfl

theorem fueled_ok (a : α) : Fueled (.ok a) := by simp [Fueled]

theorem fueled_diagnostic (d : ParseDiagnostic) : Fueled (.error (.diagnostic d) : Except Failure α) := by
  simp [Fueled]

theorem Fueled.ite {p : Prop} [Decidable p] {x y : Except Failure α} (yes : p → Fueled x) (no : ¬ p → Fueled y) :
    Fueled (if p then x else y) := by
  split
  · exact yes ‹_›
  · exact no ‹_›

end

namespace Cursor

variable (profile : Profile) (c : Cursor)

theorem skipTrivia_fueled : Fueled (c.skipTrivia profile) := by
  unfold skipTrivia
  split
  · exact fueled_diagnostic _
  · exact fueled_ok _

theorem separator_fueled (close : UInt8) (expected trailing : String) :
    Fueled (c.separator profile close expected trailing) := by
  refine (skipTrivia_fueled profile c).bind fun a _ => .ite (fun _ => fueled_ok _) fun _ => ?_
  refine .ite (fun _ => fueled_diagnostic _) fun _ => (skipTrivia_fueled profile _).bind fun b _ => ?_
  exact .ite (fun _ => .ite (fun _ => fueled_diagnostic _) fun _ => fueled_ok _) fun _ => fueled_ok _

theorem colon_fueled (expected : String) : Fueled (c.colon profile expected) :=
  (skipTrivia_fueled profile c).bind fun _ _ => .ite (fun _ => fueled_diagnostic _) fun _ => fueled_ok _

theorem scanString_fueled : Fueled (c.scanString profile) := by
  refine .ite (fun _ => fueled_diagnostic _) fun _ => ?_
  split
  · exact fueled_diagnostic _
  · exact fueled_ok _

theorem readScalar_fueled : Fueled (c.readScalar profile) := by
  unfold readScalar
  dsimp only
  split
  · exact fueled_diagnostic _
  · exact fueled_ok _

end Cursor

theorem StringToken.text_fueled (profile : Profile) (token : StringToken) : Fueled (token.text profile) := by
  refine .ite (fun _ => fueled_ok _) fun _ => ?_
  split
  · exact fueled_diagnostic _
  · exact fueled_ok _

namespace Reference

variable {profile : Profile} {s s' : State}

theorem lex_ok {α : Type} {read : Cursor → Except Failure (α × Cursor)} {a : α}
    (h : lex s read = .ok (a, s')) : read s.cursor = .ok (a, s'.cursor) ∧ s'.tally = s.tally := by
  obtain ⟨⟨b, cursor⟩, run, h⟩ := bind_ok h
  cases h
  exact ⟨run, rfl⟩

theorem lex_fueled {α : Type} {read : Cursor → Except Failure (α × Cursor)} (fueled : Fueled (read s.cursor)) :
    Fueled (lex s read) :=
  fueled.bind fun _ _ => fueled_ok _

def Further (least : Nat) (s s' : State) : Prop := ∃ n, least ≤ n ∧ s.cursor.Over s'.cursor n

theorem Further.trans {a b c : State} {m n : Nat} (first : Further m a b) (second : Further n b c) :
    Further (m + n) a c := by
  obtain ⟨i, least, past⟩ := first
  obtain ⟨j, least', over'⟩ := second
  exact ⟨i + j, by omega, past.trans over'⟩

theorem Further.length {least : Nat} (further : Further least s s') :
    s'.cursor.rest.length + least ≤ s.cursor.rest.length := by
  obtain ⟨n, enough, inside, moved⟩ := further
  rw [moved, advance_rest, List.length_drop]
  omega

theorem Further.refl (s : State) : Further 0 s s := ⟨0, le_refl _, Nat.zero_le _, rfl⟩

theorem Further.weaken {m n : Nat} (further : Further m s s') (less : n ≤ m) : Further n s s' :=
  let ⟨i, least, past⟩ := further
  ⟨i, less.trans least, past⟩

theorem skipTrivia_further {u : Unit} (h : lex s (Cursor.skipTrivia profile) = .ok (u, s')) : Further 0 s s' :=
  let ⟨n, past, _⟩ := skipTrivia_over (lex_ok h).1
  ⟨n, Nat.zero_le _, past⟩

theorem separator_further {close : UInt8} {expected trailing : String} {closed : Bool}
    (h : lex s (separator profile close expected trailing) = .ok (closed, s')) :
    Further 0 s s' ∧ (closed = true → peekByte s'.cursor.rest = close) := by
  obtain ⟨n, past, _, found, _⟩ := separator_over (lex_ok h).1
  exact ⟨⟨n, Nat.zero_le _, past⟩, found⟩

theorem colon_further {expected : String} {u : Unit} (h : lex s (colon profile expected) = .ok (u, s')) : Further 1 s s' :=
  let ⟨n, past, positive⟩ := colon_over (lex_ok h).1
  ⟨n, positive, past⟩

theorem parseString_fueled : Fueled (parseString profile s) := by
  refine (lex_fueled (scanString_fueled profile _)).bind fun a _ => ?_
  refine .ite (fun _ => fueled_ok _) fun _ => .ite (fun _ => fueled_diagnostic _) fun _ => ?_
  exact (StringToken.text_fueled profile _).bind fun _ _ => fueled_ok _

theorem parseString_further {string : Bytes × SourceSpan} (h : parseString profile s = .ok (string, s')) :
    Further 2 s s' := by
  obtain ⟨⟨token, s₁⟩, scanned, h⟩ := bind_ok h
  obtain ⟨past, _⟩ := scanString_over (lex_ok scanned).1
  have further : Further 2 s s₁ := ⟨_, by omega, past⟩
  dsimp only at h
  split at h
  · cases h
    exact further
  split at h
  · cases h
  obtain ⟨text, -, h⟩ := bind_ok h
  cases h
  exact further

theorem parseString_token {text : Bytes} {span : SourceSpan} (h : parseString profile s = .ok ((text, span), s')) :
    ∃ token : StringToken, s.cursor.scanString profile = .ok (token, s'.cursor) ∧ token.text profile = .ok text ∧
      span = token.span profile := by
  obtain ⟨⟨token, s₁⟩, scanned, h⟩ := bind_ok h
  apply Exists.intro token
  have cursor := (lex_ok scanned).1
  dsimp only at h
  split at h
  · rename_i plain
    cases h
    rw [StringToken.text, if_pos plain]
    exact ⟨cursor, rfl, rfl⟩
  · split at h
    · cases h
    · obtain ⟨decoded, read, h⟩ := bind_ok h
      cases h
      exact ⟨cursor, read, rfl⟩

theorem addNode_fueled (value : SpannedValue) : Fueled (addNode profile s value) :=
  .ite (fun _ => fueled_diagnostic _) fun _ => fueled_ok _

theorem addNode_ok {value tree : SpannedValue} (h : addNode profile s value = .ok (tree, s')) :
    tree = value ∧ s'.cursor = s.cursor ∧ s'.tally = { s.tally with nodes := s.tally.nodes + 1 } := by
  unfold addNode at h
  split at h
  · cases h
  cases h
  exact ⟨rfl, rfl, rfl⟩

theorem pass_further (present : 0 < s.cursor.rest.length) : Further 1 s s.pass := ⟨1, le_refl _, present, rfl⟩

section

variable {parse : State → Except Failure (SpannedValue × State)}

theorem arrayLoop_closes {fuel : Nat} {trees trees' : List SpannedValue}
    (h : arrayLoop profile parse fuel s trees = .ok (trees', s')) : peekByte s'.cursor.rest = 0x5D := by
  induction fuel generalizing s trees with
  | zero => cases h
  | succ fuel ih =>
    obtain ⟨⟨tree, s₁⟩, -, h⟩ := bind_ok h
    obtain ⟨⟨closed, s₂⟩, separated, h⟩ := bind_ok h
    cases closed with
    | true =>
      cases h
      exact (separator_further separated).2 rfl
    | false => exact ih h

theorem objectLoop_closes {fuel : Nat} {members members' : List Member}
    (h : objectLoop profile parse fuel s members = .ok (members', s')) : peekByte s'.cursor.rest = 0x7D := by
  induction fuel generalizing s members with
  | zero => cases h
  | succ fuel ih =>
    obtain ⟨⟨key, s₁⟩, -, h⟩ := bind_ok h
    obtain ⟨⟨_, s₂⟩, -, h⟩ := bind_ok h
    obtain ⟨⟨_, s₃⟩, -, h⟩ := bind_ok h
    obtain ⟨⟨tree, s₄⟩, -, h⟩ := bind_ok h
    obtain ⟨placed, -, h⟩ := bind_ok h
    obtain ⟨⟨closed, s₅⟩, separated, h⟩ := bind_ok h
    cases closed with
    | true =>
      cases h
      exact (separator_further separated).2 rfl
    | false => exact ih h

theorem arrayValues_closes {trees : List SpannedValue} (h : arrayValues profile parse s = .ok (trees, s')) :
    peekByte s'.cursor.rest = 0x5D := by
  unfold arrayValues at h
  split at h
  · rename_i empty
    cases h
    exact empty
  · exact arrayLoop_closes h

theorem objectMembers_closes {members : List Member} (h : objectMembers profile parse s = .ok (members, s')) :
    peekByte s'.cursor.rest = 0x7D := by
  unfold objectMembers at h
  split at h
  · rename_i empty
    cases h
    exact empty
  · exact objectLoop_closes h

end

section

variable {parse : State → Except Failure (SpannedValue × State)}
  (forward : ∀ s tree s', parse s = .ok (tree, s') → Further 1 s s')

include forward

theorem arrayLoop_further {fuel : Nat} {trees trees' : List SpannedValue}
    (h : arrayLoop profile parse fuel s trees = .ok (trees', s')) : Further 1 s s' := by
  induction fuel generalizing s trees with
  | zero => cases h
  | succ fuel ih =>
    obtain ⟨⟨tree, s₁⟩, parsed, h⟩ := bind_ok h
    obtain ⟨⟨closed, s₂⟩, separated, h⟩ := bind_ok h
    have both := (forward _ _ _ parsed).trans (separator_further separated).1
    cases closed with
    | true =>
      cases h
      exact both
    | false => exact (both.trans (ih h)).weaken (by omega)

theorem objectLoop_further {fuel : Nat} {members members' : List Member}
    (h : objectLoop profile parse fuel s members = .ok (members', s')) : Further 1 s s' := by
  induction fuel generalizing s members with
  | zero => cases h
  | succ fuel ih =>
    obtain ⟨⟨key, s₁⟩, string, h⟩ := bind_ok h
    obtain ⟨⟨_, s₂⟩, colon, h⟩ := bind_ok h
    obtain ⟨⟨_, s₃⟩, trivia, h⟩ := bind_ok h
    obtain ⟨⟨tree, s₄⟩, parsed, h⟩ := bind_ok h
    obtain ⟨placed, -, h⟩ := bind_ok h
    obtain ⟨⟨closed, s₅⟩, separated, h⟩ := bind_ok h
    have both := ((((parseString_further string).trans (colon_further colon)).trans
      (skipTrivia_further trivia)).trans (forward _ _ _ parsed)).trans (separator_further separated).1
    cases closed with
    | true =>
      cases h
      exact both.weaken (by omega)
    | false => exact (both.trans (ih h)).weaken (by omega)

theorem arrayLoop_fueled {fuel bound : Nat} (enough : s.cursor.rest.length < fuel) (within : s.cursor.rest.length ≤ bound)
    (fueled : ∀ s : State, s.cursor.rest.length ≤ bound → Fueled (parse s)) (trees : List SpannedValue) :
    Fueled (arrayLoop profile parse fuel s trees) := by
  induction fuel generalizing s trees with
  | zero => omega
  | succ fuel ih =>
    refine (fueled s within).bind fun ⟨tree, s₁⟩ parsed => ?_
    refine (lex_fueled (separator_fueled profile _ _ _ _)).bind fun ⟨closed, s₂⟩ separated => ?_
    have shorter := ((forward _ _ _ parsed).trans (separator_further separated).1).length
    refine .ite (fun _ => fueled_ok _) fun _ => ih (by omega) (by omega) _

theorem objectLoop_fueled {fuel bound : Nat} (enough : s.cursor.rest.length < fuel) (within : s.cursor.rest.length ≤ bound)
    (fueled : ∀ s : State, s.cursor.rest.length ≤ bound → Fueled (parse s)) (members : List Member) :
    Fueled (objectLoop profile parse fuel s members) := by
  induction fuel generalizing s members with
  | zero => omega
  | succ fuel ih =>
    refine parseString_fueled.bind fun ⟨key, s₁⟩ string => ?_
    refine (lex_fueled (Cursor.colon_fueled profile _ _)).bind fun ⟨_, s₂⟩ colon => ?_
    refine (lex_fueled (Cursor.skipTrivia_fueled profile _)).bind fun ⟨_, s₃⟩ trivia => ?_
    have before := (((parseString_further string).trans (colon_further colon)).trans (skipTrivia_further trivia))
    refine (fueled s₃ (by have := before.length; omega)).bind fun ⟨tree, s₄⟩ parsed => ?_
    have placed : Fueled (placeMember profile members (key.1, ⟨profile.source, key.2.first, tree.span.last⟩, tree) key.2) := by
      unfold placeMember
      split
      · exact fueled_ok _
      · split <;> first | exact fueled_ok _ | exact fueled_diagnostic _
    refine placed.bind fun members' _ => ?_
    refine (lex_fueled (Cursor.separator_fueled profile _ _ _ _)).bind fun ⟨closed, s₅⟩ separated => ?_
    have shorter := ((before.trans (forward _ _ _ parsed)).trans (separator_further separated).1).length
    refine .ite (fun _ => fueled_ok _) fun _ => ih (by omega) (by omega) _

theorem arrayValues_further {trees : List SpannedValue} (h : arrayValues profile parse s = .ok (trees, s')) :
    Further 0 s s' := by
  unfold arrayValues at h
  split at h
  · cases h
    exact .refl _
  · exact (arrayLoop_further forward h).weaken (by omega)

theorem objectMembers_further {members : List Member} (h : objectMembers profile parse s = .ok (members, s')) :
    Further 0 s s' := by
  unfold objectMembers at h
  split at h
  · cases h
    exact .refl _
  · exact (objectLoop_further forward h).weaken (by omega)

theorem parseArray_further {depth : Nat} {tree : SpannedValue} (bracket : 0 < s.cursor.rest.length)
    (h : parseArray profile parse depth s = .ok (tree, s')) :
    Further 2 s s' ∧ ∃ values, tree = .array ⟨profile.source, s.cursor.offset, s'.cursor.offset⟩ values := by
  unfold parseArray at h
  split at h
  · cases h
  obtain ⟨⟨_, s₁⟩, trivia, h⟩ := bind_ok h
  obtain ⟨⟨trees, s₂⟩, values, h⟩ := bind_ok h
  have inside := ((pass_further bracket).trans (skipTrivia_further trivia)).trans (arrayValues_further forward values)
  have all := inside.trans (pass_further (peekByte_some (arrayValues_closes values) (by decide)))
  dsimp only [storeArray] at h
  split at h
  · cases h
  obtain ⟨stored, cursor, _⟩ := addNode_ok h
  obtain ⟨n, least, past⟩ := all
  constructor
  · exact ⟨n, by omega, by rw [cursor]; exact past⟩
  · exact ⟨trees, by rw [stored, cursor]⟩

theorem parseObject_further {depth : Nat} {tree : SpannedValue} (bracket : 0 < s.cursor.rest.length)
    (h : parseObject profile parse depth s = .ok (tree, s')) :
    Further 2 s s' ∧ ∃ members, tree = .object ⟨profile.source, s.cursor.offset, s'.cursor.offset⟩ members := by
  unfold parseObject at h
  split at h
  · cases h
  obtain ⟨⟨_, s₁⟩, trivia, h⟩ := bind_ok h
  obtain ⟨⟨members, s₂⟩, values, h⟩ := bind_ok h
  have inside := ((pass_further bracket).trans (skipTrivia_further trivia)).trans (objectMembers_further forward values)
  have all := inside.trans (pass_further (peekByte_some (objectMembers_closes values) (by decide)))
  dsimp only [storeObject] at h
  split at h
  · cases h
  obtain ⟨stored, cursor, _⟩ := addNode_ok h
  obtain ⟨n, least, past⟩ := all
  constructor
  · exact ⟨n, by omega, by rw [cursor]; exact past⟩
  · exact ⟨members, by rw [stored, cursor]⟩

theorem parseArray_fueled {depth bound : Nat} (within : s.cursor.rest.length ≤ bound + 1)
    (bracket : 0 < s.cursor.rest.length) (fueled : ∀ s : State, s.cursor.rest.length ≤ bound → Fueled (parse s)) :
    Fueled (parseArray profile parse depth s) := by
  refine .ite (fun _ => fueled_diagnostic _) fun _ => ?_
  refine (lex_fueled (Cursor.skipTrivia_fueled profile _)).bind fun ⟨_, s₁⟩ trivia => ?_
  have shorter := ((pass_further bracket).trans (skipTrivia_further trivia)).length
  have values : Fueled (arrayValues profile parse s₁) := by
    refine .ite (fun _ => fueled_ok _) fun _ => ?_
    exact arrayLoop_fueled forward (Nat.lt_succ_self _) (Nat.le_of_lt_succ (by omega)) fueled _
  exact values.bind fun _ _ => .ite (fun _ => fueled_diagnostic _) fun _ => addNode_fueled _

theorem parseObject_fueled {depth bound : Nat} (within : s.cursor.rest.length ≤ bound + 1)
    (bracket : 0 < s.cursor.rest.length) (fueled : ∀ s : State, s.cursor.rest.length ≤ bound → Fueled (parse s)) :
    Fueled (parseObject profile parse depth s) := by
  refine .ite (fun _ => fueled_diagnostic _) fun _ => ?_
  refine (lex_fueled (Cursor.skipTrivia_fueled profile _)).bind fun ⟨_, s₁⟩ trivia => ?_
  have shorter := ((pass_further bracket).trans (skipTrivia_further trivia)).length
  have members : Fueled (objectMembers profile parse s₁) := by
    refine .ite (fun _ => fueled_ok _) fun _ => ?_
    exact objectLoop_fueled forward (Nat.lt_succ_self _) (Nat.le_of_lt_succ (by omega)) fueled _
  exact members.bind fun _ _ => .ite (fun _ => fueled_diagnostic _) fun _ => addNode_fueled _

end

theorem parseValue_further {fuel depth : Nat} {tree : SpannedValue}
    (h : parseValue profile fuel depth s = .ok (tree, s')) : Further 1 s s' := by
  induction fuel generalizing depth s s' tree with
  | zero => cases h
  | succ fuel ih =>
    obtain ⟨⟨_, s₁⟩, trivia, h⟩ := bind_ok h
    have first := skipTrivia_further trivia
    dsimp only at h
    split at h
    · rename_i brace
      exact (first.trans (parseObject_further (fun _ _ _ => ih) (peekByte_some brace (by decide)) h).1).weaken (by omega)
    split at h
    · rename_i bracket
      exact (first.trans (parseArray_further (fun _ _ _ => ih) (peekByte_some bracket (by decide)) h).1).weaken (by omega)
    split at h
    · obtain ⟨⟨string, s₂⟩, parsed, h⟩ := bind_ok h
      obtain ⟨n, least, past⟩ := first.trans (parseString_further parsed)
      obtain ⟨_, cursor, _⟩ := addNode_ok h
      exact ⟨n, by omega, by rw [cursor]; exact past⟩
    · obtain ⟨⟨scalar, s₂⟩, parsed, h⟩ := bind_ok h
      obtain ⟨n, past, positive⟩ := readScalar_over (lex_ok parsed).1
      obtain ⟨m, least, over'⟩ := first.trans ⟨n, positive, past⟩
      obtain ⟨_, cursor, _⟩ := addNode_ok h
      exact ⟨m, by omega, by rw [cursor]; exact over'⟩

theorem parseValue_fueled {fuel depth : Nat} (enough : s.cursor.rest.length < fuel) :
    Fueled (parseValue profile fuel depth s) := by
  induction fuel generalizing depth s with
  | zero => omega
  | succ fuel ih =>
    refine (lex_fueled (skipTrivia_fueled profile _)).bind fun ⟨_, s₁⟩ trivia => ?_
    have shorter := (skipTrivia_further trivia).length
    have inner (s : State) (small : s.cursor.rest.length ≤ s₁.cursor.rest.length - 1)
        (some : 0 < s₁.cursor.rest.length) : Fueled (parseValue profile fuel (depth + 1) s) := ih (by omega)
    refine .ite (fun brace => ?_) fun _ => .ite (fun bracket => ?_) fun _ => .ite (fun _ => ?_) fun _ => ?_
    · have some := peekByte_some brace (by decide)
      exact parseObject_fueled (fun _ _ _ => parseValue_further) (by omega) some fun s small => inner s small some
    · have some := peekByte_some bracket (by decide)
      exact parseArray_fueled (fun _ _ _ => parseValue_further) (by omega) some fun s small => inner s small some
    · exact parseString_fueled.bind fun _ _ => addNode_fueled _
    · exact (lex_fueled (readScalar_fueled profile _)).bind fun _ _ => addNode_fueled _

theorem parse_fueled (profile : Profile) (input : Bytes) : Fueled (parse profile input) := by
  refine .ite (fun _ => fueled_diagnostic _) fun _ => .ite (fun _ => fueled_diagnostic _) fun _ => ?_
  refine (parseValue_fueled (Nat.lt_succ_self _)).bind fun _ _ => ?_
  refine (lex_fueled (skipTrivia_fueled profile _)).bind fun _ _ => ?_
  exact .ite (fun _ => fueled_diagnostic _) fun _ => fueled_ok _

end Reference

end NginBase.Json
