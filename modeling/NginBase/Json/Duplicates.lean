import NginBase.Json.Acceptance
import NginBase.Library.Tables

namespace NginBase.Json

open Library Reference Audited List Option Prod

/-- The members that the policy keeps of those read, none when it refuses them. -/
def kept (policy : DuplicateKeyPolicy) (read : List Member) : Option (List Member) :=
  match policy with
  | .preserve => some read
  | .keepFirst => some (firsts read)
  | .keepLast => some (lasts read)
  | .reject => if (read.map fst).Nodup then some read else none

section

variable {policy : DuplicateKeyPolicy} {members : List Member} {member : Member}

theorem keep_fresh (fresh : member.1 ∉ members.map fst) : keep policy members member = some (members ++ [member]) := by
  have nowhere : members.findIdx? (fun earlier => earlier.1 = member.1) = none := by
    rw [findIdx?_eq_none_iff]
    intro earlier inside
    rw [decide_eq_false_iff_not]
    intro same
    exact fresh (same ▸ mem_map_of_mem inside)
  rw [keep, nowhere]

theorem keep_known (known : member.1 ∈ members.map Prod.fst) :
    ∃ duplicate, members.findIdx? (fun earlier => earlier.1 = member.1) = some duplicate := by
  obtain ⟨earlier, inside, same⟩ := List.mem_map.mp known
  rw [← Option.isSome_iff_exists, List.findIdx?_isSome, List.any_eq_true]
  exact ⟨earlier, inside, decide_eq_true same⟩

theorem keepAll_preserve (members new : List Member) : keepAll .preserve members new = some (members ++ new) :=
  Syntax.keepAll_keeps (.inl rfl)

theorem keepAll_reject (members new : List Member) (distinct : (members.map fst).Nodup) :
    keepAll .reject members new = if ((members ++ new).map fst).Nodup then some (members ++ new) else none := by
  induction new generalizing members with
  | nil => rw [keepAll, append_nil, if_pos distinct]
  | cons member new ih =>
    rw [keepAll]
    by_cases known : member.1 ∈ members.map fst
    · obtain ⟨duplicate, found⟩ := keep_known known
      have repeated : ¬ ((members ++ member :: new).map fst).Nodup := by
        rw [map_append, nodup_append]
        exact fun apart => apart.2.2 _ known _ mem_cons_self rfl
      rw [keep, found, if_neg repeated]
      rfl
    · rw [keep_fresh known, bind_some, ih _ (nodup_keys_concat distinct known), append_assoc, singleton_append]

theorem keepAll_keepFirst (members new : List Member) :
    keepAll .keepFirst members new = some (members ++ newTo (members.map fst) (firsts new)) := by
  induction new generalizing members with
  | nil => simp [keepAll, firsts, newTo]
  | cons member new ih =>
    rw [keepAll]
    by_cases known : member.1 ∈ members.map fst
    · obtain ⟨duplicate, found⟩ := keep_known known
      rw [keep, found, firsts_known known]
      exact ih members
    · rw [keep_fresh known, bind_some, ih, firsts_fresh known, append_assoc, singleton_append]

theorem keepAll_keepLast (members new : List Member) (distinct : (members.map fst).Nodup) : keepAll .keepLast members new =
      some ((members ++ newTo (members.map fst) (firsts new)).map fun member => (lastOf new member.1).getD member) := by
  induction new generalizing members with
  | nil => simp [keepAll, firsts, newTo, lastOf]
  | cons member new ih =>
    rw [keepAll]
    by_cases known : member.1 ∈ members.map fst
    · obtain ⟨duplicate, found⟩ := keep_known known
      have keys := keys_set_found found
      rw [keep, found, firsts_known known]
      change keepAll .keepLast (members.set duplicate member) new = _
      rw [ih _ (keys.symm ▸ distinct), keys, map_append, map_append, lasts_replaced distinct found]
      rw [lasts_other (newTo_keys known)]
    · have others : ∀ other ∈ members, other.1 ≠ member.1 := fun other inside same => known (same ▸ mem_map_of_mem inside)
      have inside : member.1 ∈ members.map fst ++ [member.1] := by simp
      rw [keep_fresh known, bind_some, ih _ (nodup_keys_concat distinct known), firsts_fresh known]
      simp only [map_append, map_cons, map_nil, append_assoc, singleton_append, lastOf_same]
      rw [lasts_other others, lasts_other (newTo_keys inside)]

theorem keepAll_kept (read : List Member) : keepAll policy [] read = kept policy read := by
  cases policy with
  | preserve => exact keepAll_preserve [] read
  | keepFirst => rw [keepAll_keepFirst, map_nil, newTo_nil, kept, nil_append]
  | keepLast => rw [keepAll_keepLast [] read nodup_nil, map_nil, newTo_nil, kept, nil_append, lasts]
  | reject => rw [keepAll_reject [] read nodup_nil, kept, nil_append]

end

section

variable (policy : DuplicateKeyPolicy)

mutual

/-- A tree with all members, after the policy has been applied to every object in it. -/
def SpannedValue.settle : SpannedValue → Option SpannedValue
  | .scalar span value => some (.scalar span value)
  | .array span elements => (settleElements elements).map (.array span)
  | .object span members => ((settleMembers members).bind (kept policy)).map (.object span)

def settleElements : List SpannedValue → Option (List SpannedValue)
  | [] => some []
  | element :: rest => element.settle.bind fun element => (settleElements rest).map (element :: ·)

def settleMembers : List (Bytes × SourceSpan × SpannedValue) → Option (List (Bytes × SourceSpan × SpannedValue))
  | [] => some []
  | (key, span, value) :: rest => value.settle.bind fun value => (settleMembers rest).map ((key, span, value) :: ·)

end

def Profile.preserving (profile : Profile) : Profile :=
  { profile with options := { profile.options with duplicateKeys := .preserve } }

/-- Two runs that end alike: the first under a policy, with what it refused counted, the second with
    every member kept. -/
inductive Settled {α β : Type} (r : Nat → α → β → Prop) : Audited Cost α → Audited Cost β → Prop
  | failed : Settled r .failed .failed
  | done {a : α} {b : β} {k k' : Cost} (related : r k.repeated a b) : Settled r (.done a k) (.done b k')

namespace Settled

variable {α β γ δ : Type} {r : Nat → α → β → Prop} {r' : Nat → γ → δ → Prop}

theorem bind {x : Audited Cost α} {y : Audited Cost β} {f : α → Audited Cost γ} {g : β → Audited Cost δ}
    (first : Settled r x y) (next : ∀ n a b, r n a b → Settled (fun n' => r' (n + n')) (f a) (g b)) :
    Settled r' (x >>= f) (y >>= g) := by
  cases first with
  | failed => exact .failed
  | @done a b k k' related =>
    rw [done_bind, done_bind]
    have rest := next _ a b related
    generalize f a = fa at rest ⊢
    generalize g b = gb at rest ⊢
    cases rest with
    | failed => exact .failed
    | done related' => exact .done related'

theorem free {ε : Type} (x : Except ε α) {f : α → Audited Cost γ} {g : α → Audited Cost δ}
    (next : ∀ a, x = .ok a → Settled r' (f a) (g a)) : Settled r' (free x >>= f) (free x >>= g) := by
  cases x with
  | error e => exact .failed
  | ok a =>
    simp only [Audited.free, Audited.done_zero_bind]
    exact next a rfl

theorem charge {k k' : Cost} (clean : k.repeated = 0) {f : Unit → Audited Cost γ} {g : Unit → Audited Cost δ}
    (next : Settled r' (f ()) (g ())) : Settled r' (charge k >>= f) (charge k' >>= g) := by
  apply bind (r := fun n _ _ => n = 0) (.done clean)
  intro n a b zero
  rw [zero]
  simpa only [Nat.zero_add] using next

theorem pure {a : α} {b : β} (related : r 0 a b) : Settled r (Pure.pure a) (Pure.pure b) := .done related

end Settled

/-- What the first run read, against the whole tree: the settled tree, unless something was refused. -/
structure SettlesTo {α β : Type} (settle : β → Option α) (n : Nat) (a : α) (b : β) : Prop where
  settled : n = 0 → settle b = some a
  refused : n ≠ 0 → settle b = none

section

variable {policy} {n m : Nat}

theorem SettlesTo.cons {value tree : SpannedValue} {values trees : List SpannedValue}
    (first : SettlesTo (SpannedValue.settle policy) n value tree) (rest : SettlesTo (settleElements policy) m values trees) :
    SettlesTo (settleElements policy) (n + m) (value :: values) (tree :: trees) := by
  constructor
  · intro none
    rw [settleElements, first.settled (by omega), bind_some, rest.settled (by omega), map_some]
  · intro some
    rw [settleElements]
    by_cases clean : n = 0
    · rw [first.settled clean, bind_some, rest.refused (by omega), map_none]
    · rw [first.refused clean, bind_none]

theorem SettlesTo.consMember {key : Bytes} {span : SourceSpan} {value tree : SpannedValue} {members trees : List Member}
    (first : SettlesTo (SpannedValue.settle policy) n value tree) (rest : SettlesTo (settleMembers policy) m members trees) :
    SettlesTo (settleMembers policy) (n + m) ((key, span, value) :: members) ((key, span, tree) :: trees) := by
  constructor
  · intro none
    rw [settleMembers, first.settled (by omega), bind_some, rest.settled (by omega), map_some]
  · intro some
    rw [settleMembers]
    by_cases clean : n = 0
    · rw [first.settled clean, bind_some, rest.refused (by omega), map_none]
    · rw [first.refused clean, bind_none]

theorem SettlesTo.map {α β γ δ : Type} {settle : α → Option β} {settle' : γ → Option δ} {a : β} {b : α} {f : β → δ} {g : α → γ}
    (part : SettlesTo settle n a b) (same : settle' (g b) = (settle b).map f) : SettlesTo settle' n (f a) (g b) := by
  constructor
  · intro none
    rw [same, part.settled none, map_some]
  · intro some
    rw [same, part.refused some, map_none]

end

structure SettledTree (n : Nat) (a b : SpannedValue × Cursor) : Prop where
  cursor : a.2 = b.2
  span : a.1.span = b.1.span
  tree : SettlesTo (SpannedValue.settle policy) n a.1 b.1

structure SettledPart {α β : Type} (settle : β → Option α) (n : Nat) (a : α × Cursor) (b : β × Cursor) : Prop where
  cursor : a.2 = b.2
  part : SettlesTo settle n a.1 b.1

namespace Syntax

variable {profile : Profile}

theorem readString_settled (c : Cursor) :
    Settled (fun n a b => n = 0 ∧ a = b) (readString profile c) (readString profile.preserving c) := by
  apply Settled.free (c.scanString profile)
  rintro ⟨token, c₁⟩ _
  apply Settled.free (token.text profile)
  intro text _
  apply Settled.charge
  · split <;> rfl
  · exact Settled.pure ⟨rfl, rfl⟩

theorem settle_settled {n : Nat} {members trees : List Member}
    (part : SettlesTo (settleMembers profile.options.duplicateKeys) n members trees) :
    Settled (fun m => SettlesTo (fun trees => (settleMembers profile.options.duplicateKeys trees).bind
        (kept profile.options.duplicateKeys)) (n + m)) (settle profile [] members) (settle profile.preserving [] trees) := by
  have whole : settle profile.preserving [] trees = .done trees 0 := by
    rw [settle, show profile.preserving.options.duplicateKeys = .preserve from rfl, keepAll_preserve, nil_append]
  rw [whole, settle, keepAll_kept]
  cases chosen : kept profile.options.duplicateKeys members with
  | none =>
    apply Settled.done
    constructor
    · intro clean
      cases clean
    · intro _
      by_cases clean : n = 0
      · rw [part.settled clean, bind_some, chosen]
      · rw [part.refused clean, bind_none]
  | some members' =>
    apply Settled.done
    constructor
    · intro clean
      rw [part.settled (by simpa using clean), bind_some, chosen]
    · intro some
      rw [part.refused (by simpa using some), bind_none]

section

variable {parse parse' : Cursor → Audited Cost (SpannedValue × Cursor)}
  (same : ∀ c, Settled (SettledTree profile.options.duplicateKeys) (parse c) (parse' c))

include same

theorem arrayLoop_settled (fuel : Nat) (c : Cursor) :
    Settled (SettledPart (settleElements profile.options.duplicateKeys)) (arrayLoop profile parse fuel c)
      (arrayLoop profile.preserving parse' fuel c) := by
  induction fuel generalizing c with
  | zero => exact .failed
  | succ fuel ih =>
    apply (same c).bind
    rintro n ⟨value, c₁⟩ ⟨tree, c₁'⟩ ⟨cursor, _, settled⟩
    subst cursor
    apply Settled.free (c₁.separator profile 0x5D "Expected ',' or ']' in JSON array" "Trailing comma in JSON array")
    rintro ⟨closed, c₂⟩ _
    cases closed with
    | true =>
      apply Settled.pure
      exact ⟨rfl, settled.cons ⟨fun _ => rfl, fun some => absurd rfl some⟩⟩
    | false =>
      apply (ih c₂).bind
      rintro m ⟨values, c₃⟩ ⟨trees, c₃'⟩ ⟨cursor, rest⟩
      subst cursor
      apply Settled.pure
      exact ⟨rfl, settled.cons rest⟩

theorem objectLoop_settled (fuel : Nat) (c : Cursor) :
    Settled (SettledPart (settleMembers profile.options.duplicateKeys)) (objectLoop profile parse fuel c)
      (objectLoop profile.preserving parse' fuel c) := by
  induction fuel generalizing c with
  | zero => exact .failed
  | succ fuel ih =>
    apply (readString_settled c).bind
    rintro n ⟨⟨key, keySpan⟩, c₁⟩ _ ⟨rfl, rfl⟩
    apply Settled.free (c₁.colon profile "Expected ':' after JSON key")
    rintro ⟨_, c₂⟩ _
    apply (same c₂).bind
    rintro n ⟨value, c₃⟩ ⟨tree, c₃'⟩ ⟨cursor, span, settled⟩
    subst cursor
    dsimp only
    rw [← span]
    simp only [Nat.zero_add]
    apply Settled.free (c₃.separator profile 0x7D "Expected ',' or '\x7d' in JSON object" "Trailing comma in JSON object")
    rintro ⟨closed, c₄⟩ _
    cases closed with
    | true =>
      apply Settled.pure
      exact ⟨rfl, settled.consMember ⟨fun _ => rfl, fun some => absurd rfl some⟩⟩
    | false =>
      apply (ih c₄).bind
      rintro m ⟨members, c₅⟩ ⟨trees, c₅'⟩ ⟨cursor, rest⟩
      subst cursor
      apply Settled.pure
      exact ⟨rfl, settled.consMember rest⟩

theorem parseArray_settled (depth : Nat) (c : Cursor) :
    Settled (SettledTree profile.options.duplicateKeys) (parseArray profile parse depth c)
      (parseArray profile.preserving parse' depth c) := by
  apply Settled.charge rfl
  apply Settled.free ((c.advance 1).skipTrivia profile)
  rintro ⟨_, c₁⟩ _
  have values : Settled (SettledPart (settleElements profile.options.duplicateKeys)) (arrayValues profile parse c₁)
      (arrayValues profile.preserving parse' c₁) := by
    unfold arrayValues
    split
    · exact Settled.pure ⟨rfl, fun _ => rfl, fun some => absurd rfl some⟩
    · exact arrayLoop_settled same _ c₁
  apply values.bind
  rintro n ⟨values, c₂⟩ ⟨trees, c₂'⟩ ⟨cursor, part⟩
  subst cursor
  apply Settled.charge rfl
  apply Settled.charge rfl
  apply Settled.pure
  exact ⟨rfl, rfl, part.map rfl⟩

theorem parseObject_settled (depth : Nat) (c : Cursor) :
    Settled (SettledTree profile.options.duplicateKeys) (parseObject profile parse depth c)
      (parseObject profile.preserving parse' depth c) := by
  apply Settled.charge rfl
  apply Settled.free ((c.advance 1).skipTrivia profile)
  rintro ⟨_, c₁⟩ _
  have members : Settled (SettledPart (settleMembers profile.options.duplicateKeys)) (objectMembers profile parse c₁)
      (objectMembers profile.preserving parse' c₁) := by
    unfold objectMembers
    split
    · exact Settled.pure ⟨rfl, fun _ => rfl, fun some => absurd rfl some⟩
    · exact objectLoop_settled same _ c₁
  apply members.bind
  rintro n ⟨members, c₂⟩ ⟨trees, c₂'⟩ ⟨cursor, part⟩
  subst cursor
  apply (settle_settled part).bind
  intro m kept whole settled
  apply Settled.charge rfl
  apply Settled.charge rfl
  apply Settled.pure
  exact ⟨rfl, rfl, settled.map rfl⟩

end

theorem parseValue_settled (fuel depth : Nat) (c : Cursor) :
    Settled (SettledTree profile.options.duplicateKeys) (parseValue profile fuel depth c)
      (parseValue profile.preserving fuel depth c) := by
  induction fuel generalizing depth c with
  | zero => exact .failed
  | succ fuel ih =>
    apply Settled.free (c.skipTrivia profile)
    rintro ⟨_, c₁⟩ _
    dsimp only
    split
    · exact parseObject_settled (ih (depth + 1)) depth c₁
    split
    · exact parseArray_settled (ih (depth + 1)) depth c₁
    split
    · apply (readString_settled c₁).bind
      rintro n ⟨⟨text, span⟩, c₂⟩ _ ⟨rfl, rfl⟩
      apply Settled.charge rfl
      exact Settled.pure ⟨rfl, rfl, fun _ => rfl, fun some => absurd rfl some⟩
    · apply Settled.free (c₁.readScalar profile)
      rintro ⟨⟨value, span⟩, c₂⟩ _
      apply Settled.charge rfl
      exact Settled.pure ⟨rfl, rfl, fun _ => rfl, fun some => absurd rfl some⟩

theorem parse_settled (input : Bytes) :
    Settled (SettlesTo (SpannedValue.settle profile.options.duplicateKeys)) (parse profile input)
      (parse profile.preserving input) := by
  apply (parseValue_settled (input.length + 1) 0 { rest := input }).bind
  rintro n ⟨root, c⟩ ⟨tree, c'⟩ ⟨cursor, _, settled⟩
  subst cursor
  apply Settled.free (c.skipTrivia profile)
  rintro ⟨_, c₁⟩ _
  dsimp only
  split
  · exact Settled.pure settled
  · exact .failed

end Syntax

end

end NginBase.Json
