import NginBase.Json.Canonical
import NginBase.Json.Duplicates

namespace NginBase.Json

open Library Reference Parser SpannedValue Value Relation Prod

namespace Reference

variable (profile : Profile)

section

variable (parseValue : State → Except Failure (SpannedValue × State))

/-- The part of the loop of `ParseObject` that reads one member. -/
def nextMember (s : State) : Except Failure ((Member × SourceSpan) × State) := do
  let ((key, keySpan), s) ← parseString profile s
  let (_, s) ← lex s (Cursor.colon profile "Expected ':' after JSON key")
  let (_, s) ← lex s (Cursor.skipTrivia profile)
  let (value, s) ← parseValue s
  return (((key, ⟨profile.source, keySpan.first, value.span.last⟩, value), keySpan), s)

/-- Members that have been read, each with the comma after it. -/
inductive MembersRead : State → List Member → State → Prop
  | none {s : State} : MembersRead s [] s
  | more {s s₁ s₂ s₃ : State} {member : Member} {keySpan : SourceSpan} {members : List Member}
    (read : nextMember profile parseValue s = .ok ((member, keySpan), s₁))
    (comma : lex s₁ (Cursor.separator profile 0x7D "Expected ',' or '\x7d' in JSON object" "Trailing comma in JSON object") =
      .ok (false, s₂))
    (rest : MembersRead s₂ members s₃) : MembersRead s (member :: members) s₃

/-- Elements that have been read, each with the comma after it. -/
inductive ElementsRead : State → State → Prop
  | none {s : State} : ElementsRead s s
  | more {s s₁ s₂ s₃ : State} {value : SpannedValue} (read : parseValue s = .ok (value, s₁))
    (comma : lex s₁ (Cursor.separator profile 0x5D "Expected ',' or ']' in JSON array" "Trailing comma in JSON array") =
      .ok (false, s₂))
    (rest : ElementsRead s₂ s₃) : ElementsRead s s₃

end

/-- A call of `ParseValue`. -/
structure Call where
  fuel : Nat
  depth : Nat
  state : State

def Call.run (call : Call) : Except Failure (SpannedValue × State) :=
  parseValue profile call.fuel call.depth call.state

/-- A container that opens here, is not too deep and is not empty. -/
structure Opens (first last : UInt8) (depth : Nat) (s bracket inside : State) : Prop where
  before : lex s (Cursor.skipTrivia profile) = .ok ((), bracket)
  opened : peekByte bracket.cursor.rest = first
  shallow : depth < profile.limits.maxDepth
  after : lex bracket.pass (Cursor.skipTrivia profile) = .ok ((), inside)
  nonempty : peekByte inside.cursor.rest ≠ last

/-- The calls that the parse of one value makes directly. -/
inductive Calls : Call → Call → Prop
  | element {fuel depth : Nat} {s bracket inside s' : State} (opens : Opens profile 0x5B 0x5D depth s bracket inside)
    (before : ElementsRead profile (parseValue profile fuel (depth + 1)) inside s') :
    Calls ⟨fuel + 1, depth, s⟩ ⟨fuel, depth + 1, s'⟩
  | member {fuel depth : Nat} {s bracket inside s₁ s₂ s₃ s' : State} {members : List Member} {key : Bytes × SourceSpan}
    (opens : Opens profile 0x7B 0x7D depth s bracket inside)
    (before : MembersRead profile (parseValue profile fuel (depth + 1)) inside members s₁)
    (distinct : (members.map fst).Nodup) (named : parseString profile s₁ = .ok (key, s₂))
    (colon : lex s₂ (Cursor.colon profile "Expected ':' after JSON key") = .ok ((), s₃))
    (trivia : lex s₃ (Cursor.skipTrivia profile) = .ok ((), s')) : Calls ⟨fuel + 1, depth, s⟩ ⟨fuel, depth + 1, s'⟩

/-- An object whose members have been read up to the first key that an earlier member has, that
    member's value included: with the span of the key and the span of the earlier member. -/
inductive Repeats : Call → SourceSpan → SourceSpan → Prop
  | key {fuel depth : Nat} {s bracket inside s₁ s₂ : State} {members : List Member} {member earlier : Member}
    {keySpan : SourceSpan} (opens : Opens profile 0x7B 0x7D depth s bracket inside)
    (before : MembersRead profile (parseValue profile fuel (depth + 1)) inside members s₁)
    (distinct : (members.map fst).Nodup)
    (read : nextMember profile (parseValue profile fuel (depth + 1)) s₁ = .ok ((member, keySpan), s₂))
    (inside' : earlier ∈ members) (same : earlier.1 = member.1) : Repeats ⟨fuel + 1, depth, s⟩ keySpan earlier.2.1

def duplicateKey (keySpan related : SourceSpan) : Failure :=
  .diagnostic { fault profile.source .duplicateName "Duplicate JSON object key" keySpan.first keySpan.last with
    related := some related }

/-- A run that ends in an error, unless it was given too little fuel for that. -/
def Fails (e : Failure) {α : Type} (x : Except Failure α) : Prop := x = .error e ∨ x = .error .fuel

section

variable {profile} {e : Failure} {α β : Type}

theorem Fails.bind {x : Except Failure α} (fails : Fails e x) (f : α → Except Failure β) : Fails e (x >>= f) := by
  rcases fails with rfl | rfl
  · exact .inl rfl
  · exact .inr rfl

theorem Fails.after {x : Except Failure α} {a : α} {f : α → Except Failure β} (ok : x = .ok a) (fails : Fails e (f a)) :
    Fails e (x >>= f) := by
  rw [ok]
  exact fails

variable {parse : State → Except Failure (SpannedValue × State)} {s s' : State} {members : List Member}

theorem objectLoop_next (fuel : Nat) (s : State) (members : List Member) :
    objectLoop profile parse (fuel + 1) s members = (do
      let ((member, keySpan), s) ← nextMember profile parse s
      let members ← placeMember profile members member keySpan
      let (closed, s) ← lex s
        (Cursor.separator profile 0x7D "Expected ',' or '\x7d' in JSON object" "Trailing comma in JSON object")
      if closed then return (members, s) else objectLoop profile parse fuel s members) := by
  simp only [objectLoop, nextMember, bind_assoc, pure_bind]

variable {keySpan : SourceSpan}

theorem placeMember_fresh {member : Member} (fresh : member.1 ∉ members.map fst) :
    placeMember profile members member keySpan = .ok (members ++ [member]) := by
  rcases placeMember_keep members member keySpan with ⟨members', placed, kept⟩ | ⟨e, _, _, none⟩
  · rw [keep_fresh fresh] at kept
    rw [placed, Option.some.inj kept]
  · rw [keep_fresh fresh] at none
    cases none

theorem objectLoop_fails {new : List Member} (read : MembersRead profile parse s new s')
    (distinct : ((members ++ new).map fst).Nodup) (fails : ∀ fuel, Fails e (objectLoop profile parse fuel s' (members ++ new)))
    (fuel : Nat) : Fails e (objectLoop profile parse fuel s members) := by
  induction read generalizing members fuel with
  | none => simpa using fails fuel
  | @more s s₁ s₂ s₃ member keySpan new read comma _ ih =>
    cases fuel with
    | zero => exact .inr rfl
    | succ fuel =>
      have fresh : member.1 ∉ members.map fst := by
        rw [List.map_append, List.nodup_append] at distinct
        exact fun known => distinct.2.2 _ known _ List.mem_cons_self rfl
      rw [objectLoop_next]
      apply Fails.after read
      apply Fails.after (placeMember_fresh fresh)
      apply Fails.after comma
      apply ih
      · simpa using distinct
      · simpa using fails

theorem arrayLoop_fails (read : ElementsRead profile parse s s')
    (fails : ∀ fuel values, Fails e (arrayLoop profile parse fuel s' values)) (fuel : Nat) (values : List SpannedValue) :
    Fails e (arrayLoop profile parse fuel s values) := by
  induction read generalizing fuel values with
  | none => exact fails fuel values
  | more read comma _ ih =>
    cases fuel with
    | zero => exact .inr rfl
    | succ fuel =>
      apply Fails.after read
      apply Fails.after comma
      exact ih fails fuel _

theorem Opens.object_fails {fuel depth : Nat} {s bracket inside : State} (opens : Opens profile 0x7B 0x7D depth s bracket inside)
    (fails : ∀ loop, Fails e (objectLoop profile (parseValue profile fuel (depth + 1)) loop inside [])) :
    Fails e (parseValue profile (fuel + 1) depth s) := by
  apply Fails.after opens.before
  dsimp only
  rw [if_pos opens.opened, parseObject, if_neg (Nat.not_le.mpr opens.shallow)]
  apply Fails.after opens.after
  apply Fails.bind
  rw [objectMembers, if_neg opens.nonempty]
  exact fails _

theorem Opens.array_fails {fuel depth : Nat} {s bracket inside : State} (opens : Opens profile 0x5B 0x5D depth s bracket inside)
    (fails : ∀ loop, Fails e (arrayLoop profile (parseValue profile fuel (depth + 1)) loop inside [])) :
    Fails e (parseValue profile (fuel + 1) depth s) := by
  apply Fails.after opens.before
  dsimp only
  rw [if_neg (by rw [opens.opened]; decide), if_pos opens.opened, parseArray, if_neg (Nat.not_le.mpr opens.shallow)]
  apply Fails.after opens.after
  apply Fails.bind
  rw [arrayValues, if_neg opens.nonempty]
  exact fails _

theorem placeMember_repeated {member earlier : Member} (reject : profile.options.duplicateKeys = .reject)
    (distinct : (members.map fst).Nodup) (inside : earlier ∈ members) (same : earlier.1 = member.1) :
    placeMember profile members member keySpan = .error (duplicateKey profile keySpan earlier.2.1) := by
  have known : member.1 ∈ members.map fst := same ▸ List.mem_map_of_mem inside
  obtain ⟨duplicate, found⟩ := keep_known known
  obtain ⟨low, equal, _⟩ := List.findIdx?_eq_some_iff_getElem.mp found
  have here : members[duplicate] = earlier :=
    List.inj_on_of_nodup_map distinct (List.getElem_mem low) inside ((of_decide_eq_true equal).trans same.symm)
  rw [placeMember, found]
  simp only [reject, duplicateKey, List.getElem?_eq_getElem low, here, Option.map_some]

variable {related : SourceSpan}

theorem duplicateKey_span {member : Member} (read : nextMember profile parse s = .ok ((member, keySpan), s')) :
    duplicateKey profile keySpan related =
      .diagnostic { code := .duplicateName, span := keySpan, message := "Duplicate JSON object key", related := some related } := by
  obtain ⟨⟨⟨key, span⟩, s₁⟩, named, rest⟩ := bind_ok read
  obtain ⟨⟨_, s₂⟩, _, rest⟩ := bind_ok rest
  obtain ⟨⟨_, s₃⟩, _, rest⟩ := bind_ok rest
  obtain ⟨⟨value, s₄⟩, _, rest⟩ := bind_ok rest
  cases rest
  obtain ⟨token, _, _, rfl⟩ := parseString_token named
  have wide : token.first ≤ token.first + 1 + token.raw.length + 1 := by omega
  simp only [duplicateKey, fault, StringToken.span, max_eq_right wide]

variable {call : Call}

theorem Repeats.span (repeats : Repeats profile call keySpan related) :
    duplicateKey profile keySpan related =
      .diagnostic { code := .duplicateName, span := keySpan, message := "Duplicate JSON object key", related := some related } := by
  cases repeats with
  | key _ _ _ read _ _ => exact duplicateKey_span read

theorem Repeats.fails (reject : profile.options.duplicateKeys = .reject)
    (repeats : Repeats profile call keySpan related) :
    Fails (duplicateKey profile keySpan related) (call.run profile) := by
  cases repeats with
  | key opens before distinct read inside same =>
    apply opens.object_fails
    apply objectLoop_fails before (by simpa using distinct)
    intro fuel
    cases fuel with
    | zero => exact .inr rfl
    | succ fuel =>
      rw [objectLoop_next]
      apply Fails.after read
      apply Fails.bind
      exact .inl (placeMember_repeated reject distinct inside same)

theorem Calls.fails {call' : Call} (calls : Calls profile call call') (fails : Fails e (call'.run profile)) :
    Fails e (call.run profile) := by
  cases calls with
  | element opens before =>
    apply opens.array_fails
    intro loop
    apply arrayLoop_fails before
    intro fuel values
    cases fuel with
    | zero => exact .inr rfl
    | succ fuel =>
      exact fails.bind _
  | member opens before distinct named colon trivia =>
    apply opens.object_fails
    apply objectLoop_fails before (by simpa using distinct)
    intro fuel
    cases fuel with
    | zero => exact .inr rfl
    | succ fuel =>
      apply Fails.after named
      apply Fails.after colon
      apply Fails.after trivia
      exact fails.bind _

theorem calls_fail {call' : Call} (calls : ReflTransGen (Calls profile) call call')
    (fails : Fails e (call'.run profile)) : Fails e (call.run profile) := by
  induction calls using ReflTransGen.head_induction_on with
  | refl => exact fails
  | head first _ ih => exact first.fails ih

def start (input : Bytes) : Call := ⟨input.length + 1, 0, { cursor := { rest := input } }⟩

theorem parse_fails {input : Bytes} (readable : Readable profile input) (fails : Fails e ((start input).run profile)) :
    Reference.parse profile input = .error e := by
  have whole : Fails e (parse profile input) := by
    unfold parse
    rw [if_neg (Nat.not_lt.mpr readable.1), if_neg]
    · exact fails.bind _
    · intro invalid
      rw [readable.2 invalid.1] at invalid
      cases invalid.2
  rcases whole with failed | short
  · exact failed
  · exact absurd short (parse_fueled profile input)

end

end Reference

mutual

theorem settle_reject : ∀ tree settled : SpannedValue, tree.settle .reject = some settled ↔ settled = tree ∧ tree.erase.UniqueKeys
  | .scalar span value, settled => by
    rw [settle, Option.some.injEq, eq_comm]
    exact (and_iff_left trivial).symm
  | .array span elements, settled => by
    have each := settleElements_reject elements
    rw [settle, erase, UniqueKeys, Holds, Option.map_eq_some_iff]
    constructor
    · rintro ⟨settled', found, rfl⟩
      obtain ⟨rfl, unique⟩ := (each settled').mp found
      exact ⟨rfl, unique⟩
    · rintro ⟨rfl, unique⟩
      exact ⟨elements, (each elements).mpr ⟨rfl, unique⟩, rfl⟩
  | .object span members, settled => by
    have each := settleMembers_reject members
    rw [settle, erase, UniqueKeys, Holds, Option.map_eq_some_iff, Syntax.eraseMembers_keys]
    constructor
    · rintro ⟨chosen, found, rfl⟩
      obtain ⟨settled', inside, chose⟩ := Option.bind_eq_some_iff.mp found
      obtain ⟨rfl, unique⟩ := (each settled').mp inside
      simp only [kept] at chose
      split at chose
      · rename_i distinct
        rw [← Option.some.inj chose]
        exact ⟨rfl, distinct, unique⟩
      · cases chose
    · rintro ⟨rfl, distinct, unique⟩
      apply Exists.intro members
      rw [(each members).mpr ⟨rfl, unique⟩, Option.bind_some, kept, if_pos distinct]
      exact ⟨rfl, rfl⟩

theorem settleElements_reject : ∀ elements settled : List SpannedValue, settleElements .reject elements = some settled ↔
    settled = elements ∧ HoldsElements (fun _ => True) List.Nodup (eraseElements elements)
  | [], settled => by
    rw [settleElements, Option.some.injEq, eq_comm]
    exact (and_iff_left trivial).symm
  | element :: rest, settled => by
    have first := settle_reject element
    have others := settleElements_reject rest
    rw [settleElements, eraseElements, HoldsElements, Option.bind_eq_some_iff]
    constructor
    · rintro ⟨element', found, found'⟩
      obtain ⟨rest', inner, rfl⟩ := Option.map_eq_some_iff.mp found'
      obtain ⟨rfl, unique⟩ := (first element').mp found
      obtain ⟨rfl, unique'⟩ := (others rest').mp inner
      exact ⟨rfl, unique, unique'⟩
    · rintro ⟨rfl, unique, unique'⟩
      apply Exists.intro element
      rw [(first element).mpr ⟨rfl, unique⟩, (others rest).mpr ⟨rfl, unique'⟩]
      exact ⟨rfl, rfl⟩

theorem settleMembers_reject : ∀ members settled : List Member, settleMembers .reject members = some settled ↔
    settled = members ∧ HoldsMembers (fun _ => True) List.Nodup (eraseMembers members)
  | [], settled => by
    rw [settleMembers, Option.some.injEq, eq_comm]
    exact (and_iff_left trivial).symm
  | (key, span, value) :: rest, settled => by
    have first := settle_reject value
    have others := settleMembers_reject rest
    rw [settleMembers, eraseMembers, HoldsMembers, Option.bind_eq_some_iff]
    constructor
    · rintro ⟨value', found, found'⟩
      obtain ⟨rest', inner, rfl⟩ := Option.map_eq_some_iff.mp found'
      obtain ⟨rfl, unique⟩ := (first value').mp found
      obtain ⟨rfl, unique'⟩ := (others rest').mp inner
      exact ⟨rfl, unique, unique'⟩
    · rintro ⟨rfl, unique, unique'⟩
      apply Exists.intro value
      rw [(first value).mpr ⟨rfl, unique⟩, (others rest).mpr ⟨rfl, unique'⟩]
      exact ⟨rfl, rfl⟩

end

def Document.find (doc : Document) (range : NodeRange) (key : Bytes) : Option NodeId :=
  (((doc.members.drop range.first).take range.count).find? fun member => doc.memory.view member.key = key).map (·.value)

theorem Document.find_first (doc : Document) (range : NodeRange) (span : SourceSpan) (key : Bytes) (child : NodeId → SpannedValue) :
    ∃ members, doc.present child ⟨.object range, span⟩ = .object span members ∧
      (doc.find range key).map child = (members.find? (·.1 = key)).map (·.2.2) := by
  apply Exists.intro
  apply And.intro rfl
  rw [Document.find, List.find?_map, Option.map_map, Option.map_map]
  rfl

/-- The members of every object of an accepted text are those that the policy for duplicate keys
    keeps of all that are read. Under `Reject` they are all, a text is accepted if and only if it is
    read and no object in it repeats a key, and the first key to be repeated in an object whose values
    are read that far is the error of the parse, wherever that object is. -/
theorem duplicate_keys_by_policy (setup : Setup) (scratch : ParseScratch) (mode : Ownership) (input : Bytes) :
    (∀ doc, run setup scratch mode input = .ok doc → ∃ read k,
      Syntax.parse setup.toProfile.preserving input = .done read k ∧
        read.settle setup.options.duplicateKeys = some doc.tree) ∧
    (setup.options.comments = .reject → setup.options.trailingCommas = .reject → setup.options.utf8 = .validate →
      ∀ read k, Syntax.parse setup.toProfile.preserving input = .done read k → Grammar.Text setup.fromChars input read.erase) ∧
    (setup.options.duplicateKeys = .reject →
      (∀ doc, run setup scratch mode input = .ok doc → ∃ k,
        Syntax.parse setup.toProfile.preserving input = .done doc.tree k ∧ doc.tree.erase.UniqueKeys) ∧
      (∀ read k, Readable setup.toProfile input → Syntax.parse setup.toProfile.preserving input = .done read k →
        read.erase.UniqueKeys → (∃ doc, run setup scratch mode input = .ok doc ∧ doc.tree = read) ∨
          ∃ e, run setup scratch mode input = .error e ∧
            (Exhausted setup e ∨ LimitFailure setup.toProfile e ∧ Exceeds setup.toProfile input)) ∧
      ∀ call keySpan related, Readable setup.toProfile input →
        ReflTransGen (Calls setup.toProfile) (start input) call →
        Repeats setup.toProfile call keySpan related →
        (∃ d, run setup scratch mode input = .error (.diagnostic d) ∧ d.code = .duplicateName ∧ d.span = keySpan ∧
          d.related = some related) ∨ ∃ e, run setup scratch mode input = .error e ∧ Exhausted setup e) ∧
    ∀ (doc : Document) range span key child, ∃ members, doc.present child ⟨.object range, span⟩ = .object span members ∧
      (doc.find range key).map child = (members.find? (·.1 = key)).map (·.2.2) := by
  have settled : Settled (SettlesTo (settle setup.options.duplicateKeys)) (Syntax.parse setup.toProfile input)
      (Syntax.parse setup.toProfile.preserving input) := Syntax.parse_settled input
  have read {doc : Document} (ok : run setup scratch mode input = .ok doc) : ∃ read k,
      Syntax.parse setup.toProfile.preserving input = .done read k ∧
        read.settle setup.options.duplicateKeys = some doc.tree := by
    have checked := run_checks setup scratch mode input (run_readable ok)
    rw [ok] at checked
    rcases checked.ok_cases with ⟨tree, k, parsed, fits, same⟩
    rw [parsed] at settled
    generalize Syntax.parse setup.toProfile.preserving input = y at settled ⊢
    cases settled with
    | @done _ whole _ k' related =>
      exact ⟨whole, k', rfl, same ▸ related.settled fits.1.distinct⟩
  constructor
  · exact fun doc ok => read ok
  constructor
  · intro comments trailingCommas utf8 tree k parsed
    have strict : Strict setup.toProfile.preserving := ⟨comments, trailingCommas, rfl, utf8⟩
    exact Syntax.parse_sound strict parsed
  constructor
  · intro reject
    rw [reject] at settled read
    constructor
    · intro doc ok
      obtain ⟨whole, k, parsed, same⟩ := read ok
      obtain ⟨rfl, unique⟩ := (settle_reject whole doc.tree).mp same
      exact ⟨k, parsed, unique⟩
    constructor
    · intro whole k readable parsed unique
      have checked := run_checks setup scratch mode input readable
      rw [parsed] at settled
      generalize parsed' : Syntax.parse setup.toProfile input = x at settled checked
      cases settled with
      | @done tree _ k' _ related =>
        have clean : k'.repeated = 0 := by
          by_contra repeated
          have refused := related.refused repeated
          rw [(settle_reject whole whole).mpr ⟨rfl, unique⟩] at refused
          cases refused
        have same := related.settled clean
        rw [(settle_reject whole whole).mpr ⟨rfl, unique⟩, Option.some.injEq] at same
        rcases checked.done_cases with ⟨e, failed, exhausted⟩ | ⟨e, failed, limited, exceeds⟩ | ⟨doc, ok, _, whole'⟩
        · exact .inr ⟨e, failed, .inl exhausted⟩
        · exact .inr ⟨e, failed, .inr ⟨limited, exceeds_of_not_fits parsed' clean exceeds⟩⟩
        · exact .inl ⟨doc, ok, by rw [whole', same]⟩
    · intro call keySpan related readable calls repeats
      have failed := Reference.parse_fails readable (Reference.calls_fail calls (repeats.fails reject))
      rcases run_cases setup scratch mode input with ⟨e, failed', exhausted⟩ | ⟨doc, _, reference⟩ | ⟨d, e, failed', reference, same⟩
      · exact .inr ⟨e, failed', exhausted⟩
      · rw [reference] at failed
        cases failed
      · rw [reference, repeats.span, Except.error.injEq, Failure.diagnostic.injEq] at failed
        rw [failed] at same
        exact .inl ⟨d, failed', same.code, same.span, same.related⟩
  · exact fun doc range span key child => doc.find_first range span key child

abbrev keyWrittenTwice : Bytes :=
  [0x5B, 0x7B, 0x22, 0x61, 0x22, 0x3A, 0x22, 0x22, 0x2C, 0x22, 0x5C, 0x75, 0x30, 0x30, 0x36, 0x31, 0x22, 0x3A, 0x22, 0x22, 0x7D, 0x5D]

abbrev rejectingDuplicates : Setup := { options := { duplicateKeys := .reject }, fromChars := fun _ => ⟨⟨0⟩, 0, false⟩ }

theorem duplicate_keys_by_policy_escaped : ∃ d,
    run rejectingDuplicates {} .inSitu keyWrittenTwice = .error (.diagnostic d) ∧ d.code = .duplicateName ∧
      d.span = ⟨0, 9, 17⟩ ∧ d.related = some ⟨0, 2, 8⟩ := by
  have readable : Readable rejectingDuplicates.toProfile keyWrittenTwice := by
    constructor
    · decide
    · intro _
      decide +kernel
  have calls : ReflTransGen (Calls rejectingDuplicates.toProfile) (start keyWrittenTwice)
      ⟨22, 1, ⟨⟨1, keyWrittenTwice.drop 1⟩, {}⟩⟩ := by
    apply ReflTransGen.single
    exact .element ⟨rfl, rfl, by decide, rfl, by decide⟩ .none
  have opens : Opens rejectingDuplicates.toProfile 0x7B 0x7D 1 ⟨⟨1, keyWrittenTwice.drop 1⟩, {}⟩
      ⟨⟨1, keyWrittenTwice.drop 1⟩, {}⟩ ⟨⟨2, keyWrittenTwice.drop 2⟩, {}⟩ :=
    ⟨rfl, rfl, by decide, rfl, by decide⟩
  have first : nextMember rejectingDuplicates.toProfile (parseValue rejectingDuplicates.toProfile 21 2)
      ⟨⟨2, keyWrittenTwice.drop 2⟩, {}⟩ =
      .ok ((([0x61], ⟨0, 2, 8⟩, .scalar ⟨0, 6, 8⟩ (.string [])), ⟨0, 2, 5⟩), ⟨⟨8, keyWrittenTwice.drop 8⟩, { nodes := 1 }⟩) :=
    rfl
  have second : nextMember rejectingDuplicates.toProfile (parseValue rejectingDuplicates.toProfile 21 2)
      ⟨⟨9, keyWrittenTwice.drop 9⟩, { nodes := 1 }⟩ =
      .ok ((([0x61], ⟨0, 9, 20⟩, .scalar ⟨0, 18, 20⟩ (.string [])), ⟨0, 9, 17⟩),
        ⟨⟨20, keyWrittenTwice.drop 20⟩, { nodes := 2, decoded := 1 }⟩) :=
    rfl
  have repeats : Repeats rejectingDuplicates.toProfile ⟨22, 1, ⟨⟨1, keyWrittenTwice.drop 1⟩, {}⟩⟩ ⟨0, 9, 17⟩ ⟨0, 2, 8⟩ :=
    .key opens (.more first rfl .none) (List.nodup_singleton _) second (List.mem_singleton_self _) rfl
  have both := (duplicate_keys_by_policy rejectingDuplicates {} .inSitu keyWrittenTwice).2.2.1 rfl
  rcases both.2.2 _ _ _ readable calls repeats with found | ⟨e, _, scarce, _⟩
  · exact found
  · rcases scarce with ⟨_, refused | much⟩
    · cases refused
    · exact absurd much (Nat.not_lt_zero _)

end NginBase.Json
