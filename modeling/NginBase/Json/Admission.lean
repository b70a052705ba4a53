import NginBase.Json.Syntax
import NginBase.Json.Totality

namespace NginBase.Json

open Library Audited Cost Syntax Reference Nat

/-! The reference parser is the unlimited syntax under a budget: it accepts a text exactly when the
text is well formed and its whole cost fits the limits. -/

def Admits (limit : Nat) : Nat → List (Nat × Nat) → Prop
  | _, [] => True
  | decoded, (raw, text) :: rest => decoded + raw ≤ limit ∧ Admits limit (decoded + text) rest

def decodedLength (strings : List (Nat × Nat)) : Nat := (strings.map Prod.snd).sum

@[simp] theorem decodedLength_nil : decodedLength [] = 0 := rfl

@[simp] theorem decodedLength_append (a b : List (Nat × Nat)) :
    decodedLength (a ++ b) = decodedLength a + decodedLength b := by
  simp [decodedLength]

theorem admits_append (limit decoded : Nat) (a b : List (Nat × Nat)) :
    Admits limit decoded (a ++ b) ↔ Admits limit decoded a ∧ Admits limit (decoded + decodedLength a) b := by
  induction a generalizing decoded with
  | nil => simp [Admits]
  | cons first rest ih =>
    simp only [List.cons_append, Admits, ih, and_assoc, decodedLength, List.map_cons, List.sum_cons, add_assoc]

structure Fits (profile : Profile) (t : Tally) (k : Cost) : Prop where
  nodes : t.nodes + k.nodes ≤ profile.limits.maxNodes
  members : t.members + k.members ≤ profile.limits.maxMembers
  deepest : k.deepest ≤ profile.limits.maxDepth
  strings : Admits profile.limits.maxDecodedStringBytes t.decoded k.strings
  distinct : k.repeated = 0

structure FitsTables (profile : Profile) (t : Tally) (k : Cost) : Prop where
  ids : t.nodes + k.nodes ≤ 2 ^ 32 - 1
  elements : t.elements + k.elements ≤ profile.limits.maxMembers

def spend (t : Tally) (k : Cost) : Tally where
  nodes := t.nodes + k.nodes
  elements := t.elements + k.elements
  members := t.members + k.members
  decoded := t.decoded + decodedLength k.strings

theorem spend_zero (t : Tally) : spend t 0 = t := by simp [spend]

theorem spend_add (t : Tally) (a b : Cost) : spend t (a + b) = spend (spend t a) b := by
  simp [spend, add_assoc]

theorem fits_add (profile : Profile) (t : Tally) (a b : Cost) :
    Fits profile t (a + b) ↔ Fits profile t a ∧ Fits profile (spend t a) b := by
  constructor
  · rintro ⟨nodes, members, deepest, strings, distinct⟩
    simp only [add_nodes, add_members, add_deepest, add_repeated] at *
    obtain ⟨first, second⟩ := (admits_append _ _ _ _).mp strings
    exact ⟨⟨by omega, by omega, by omega, first, by omega⟩,
      ⟨by simp only [spend]; omega, by simp only [spend]; omega, by omega, second, by omega⟩⟩
  · rintro ⟨⟨nodes, members, deepest, strings, distinct⟩, ⟨nodes', members', deepest', strings', distinct'⟩⟩
    simp only [spend] at nodes' members' strings'
    refine ⟨?_, ?_, ?_, ?_, ?_⟩ <;>
      simp only [add_nodes, add_members, add_deepest, add_strings, add_repeated]
    · omega
    · omega
    · omega
    · exact (admits_append _ _ _ _).mpr ⟨strings, strings'⟩
    · omega

theorem fitsTables_add (profile : Profile) (t : Tally) (a b : Cost) :
    FitsTables profile t (a + b) ↔ FitsTables profile t a ∧ FitsTables profile (spend t a) b := by
  constructor
  · rintro ⟨ids, elements⟩
    simp only [add_nodes, add_elements] at *
    exact ⟨⟨by omega, by omega⟩, ⟨by simp only [spend]; omega, by simp only [spend]; omega⟩⟩
  · rintro ⟨⟨ids, elements⟩, ⟨ids', elements'⟩⟩
    simp only [spend] at ids' elements'
    exact ⟨by simp only [add_nodes]; omega, by simp only [add_elements]; omega⟩

def eventBudget (profile : Profile) : Budget Tally Cost where
  fits := Fits profile
  spend := spend
  spend_zero := spend_zero
  spend_add := spend_add
  fits_add := fits_add profile

def documentBudget (profile : Profile) : Budget Tally Cost where
  fits t k := Fits profile t k ∧ FitsTables profile t k
  spend := spend
  spend_zero := spend_zero
  spend_add := spend_add
  fits_add t a b := by
    rw [fits_add, fitsTables_add]
    exact ⟨fun ⟨⟨a, b⟩, c, d⟩ => ⟨⟨a, c⟩, b, d⟩, fun ⟨⟨a, c⟩, b, d⟩ => ⟨⟨a, b⟩, c, d⟩⟩

def LimitFailure (profile : Profile) : Failure → Prop
  | .diagnostic d => d.code = .limitExceeded ∨ d.code = .depthExceeded ∨
      d.code = .duplicateName ∧ profile.options.duplicateKeys = .reject
  | .fuel => False

namespace Reference

variable (profile : Profile)

/-- The reference parser, started with the tally `t`, does what the audited syntax does. -/
abbrev AdmittedBy (budget : Budget Tally Cost) {α : Type} (t : Tally) :
    Except Failure (α × State) → Audited Cost (α × Cursor) → Prop :=
  Checks budget (fun _ => False) (LimitFailure profile) t fun t' p q => p = (q.1, ⟨q.2, t'⟩)

abbrev Admitted {α : Type} (t : Tally) : Except Failure (α × State) → Audited Cost (α × Cursor) → Prop :=
  AdmittedBy profile (documentBudget profile) t

variable {profile} {t : Tally} {c : Cursor}

theorem lex_admitted {budget : Budget Tally Cost} {α : Type} (read : Cursor → Except Failure (α × Cursor))
    (within : budget.fits t 0) : AdmittedBy profile budget t (lex ⟨c, t⟩ read) (.free (read c)) := by
  unfold lex
  cases read c with
  | error e => exact .failed
  | ok r => exact .pure within rfl

structure CountsStrings (profile : Profile) (budget : Budget Tally Cost) : Prop where
  spend : budget.spend = Json.spend
  string : ∀ t raw text, budget.fits t 0 →
    (budget.fits t { strings := [(raw, text)] } ↔ t.decoded + raw ≤ profile.limits.maxDecodedStringBytes)

theorem eventBudget_countsStrings (profile : Profile) : CountsStrings profile (eventBudget profile) :=
  ⟨rfl, fun _ _ _ within => ⟨fun fits => fits.strings.1,
    fun room => ⟨within.nodes, within.members, zero_le _, ⟨room, trivial⟩, rfl⟩⟩⟩

theorem documentBudget_countsStrings (profile : Profile) : CountsStrings profile (documentBudget profile) :=
  ⟨rfl, fun _ _ _ within => ⟨fun fits => fits.1.strings.1,
    fun room => ⟨⟨within.1.nodes, within.1.members, zero_le _, ⟨room, trivial⟩, rfl⟩,
      ⟨within.2.ids, within.2.elements⟩⟩⟩⟩

theorem parseString_admitted {budget : Budget Tally Cost} (counts : CountsStrings profile budget)
    (within : budget.fits t 0) :
    AdmittedBy profile budget t (parseString profile ⟨c, t⟩) (readString profile c) := by
  refine (lex_admitted (Cursor.scanString profile) within).bind ?_
  rintro t' _ ⟨token, c'⟩ within' rfl
  dsimp only
  by_cases plain : token.escaped = false
  · simp only [plain, if_true, StringToken.text, free, done_zero_bind, charge,
      Bool.false_eq_true, if_false]
    exact .pure within' rfl
  · have escaped : token.escaped = true := by simpa using plain
    rw [if_neg plain]
    cases token.text profile with
    | error e =>
      split
      · exact .failed
      · exact .failed
    | ok text =>
      simp only [free, done_zero_bind, escaped, if_true]
      have admitted := counts.string t' token.raw.length text.length within'
      refine .prepay (fun fits => ?_) fun exceeds => ?_
      · have room := admitted.mp fits
        rw [if_neg (by omega)]
        refine .pure (((budget.fits_add t' _ 0).mp (by rwa [add_zero])).2) ?_
        simp [counts.spend, spend, decodedLength]
      · have full : ¬ t'.decoded + token.raw.length ≤ profile.limits.maxDecodedStringBytes :=
          fun room => exceeds (admitted.mpr room)
        rw [if_pos (by omega)]
        exact ⟨_, rfl, .inl rfl⟩

theorem addNode_admitted (value : SpannedValue) (within : (documentBudget profile).fits t 0) :
    Admitted profile t (addNode profile ⟨c, t⟩ value) (do charge { nodes := 1 }; pure (value, c)) := by
  unfold addNode
  dsimp only
  split
  · refine .doomed (.inl rfl) fun b k h fits => ?_
    cases h
    have nodes := fits.1.nodes
    have ids := fits.2.ids
    simp only [add_nodes] at nodes ids
    omega
  · refine .ok (k := ({ nodes := 1 } : Cost) + 0) ?_ ?_
    · rw [add_zero]
      exact ⟨⟨by dsimp only; omega, within.1.members, zero_le _, trivial, rfl⟩,
        ⟨by dsimp only; omega, within.2.elements⟩⟩
    · simp [documentBudget, spend]

section

variable {parse : State → Except Failure (SpannedValue × State)} {parse' : Cursor → Audited Cost (SpannedValue × Cursor)}

theorem arrayLoop_admitted (fuel : Nat) (trees : List SpannedValue)
    (same : ∀ t c, (documentBudget profile).fits t 0 → Admitted profile t (parse ⟨c, t⟩) (parse' c))
    (within : (documentBudget profile).fits t 0) :
    Admitted profile t (arrayLoop profile parse fuel ⟨c, t⟩ trees)
      (do let (new, c) ← Syntax.arrayLoop profile parse' fuel c; pure (trees ++ new, c)) := by
  induction fuel generalizing t c trees with
  | zero => exact .failed
  | succ fuel ih =>
    simp only [Syntax.arrayLoop, bind_assoc']
    refine (same t c within).bind ?_
    rintro t₁ _ ⟨tree, c₁⟩ within₁ rfl
    refine (lex_admitted _ within₁).bind ?_
    rintro t₂ _ ⟨closed, c₂⟩ within₂ rfl
    cases closed with
    | true => exact .pure within₂ rfl
    | false =>
      have rest := ih (trees ++ [tree]) within₂ (c := c₂)
      simpa only [Bool.false_eq_true, if_false, bind_assoc', pure_eq_done, done_zero_bind,
        List.append_assoc, List.singleton_append] using rest

theorem arrayValues_admitted
    (same : ∀ t c, (documentBudget profile).fits t 0 → Admitted profile t (parse ⟨c, t⟩) (parse' c))
    (within : (documentBudget profile).fits t 0) :
    Admitted profile t (arrayValues profile parse ⟨c, t⟩) (Syntax.arrayValues profile parse' c) := by
  refine .ite Iff.rfl (fun _ _ => .pure within rfl) fun _ _ => ?_
  have loop := arrayLoop_admitted (c.rest.length + 1) [] same within (c := c)
  simpa only [List.nil_append, Prod.mk.eta, bind_pure'] using loop

theorem storeArray_admitted (start : Nat) (trees : List SpannedValue) (within : (documentBudget profile).fits t 0) :
    Admitted profile t (storeArray profile ⟨c, t⟩ start trees) (do
      charge { elements := trees.length }
      charge { nodes := 1 }
      pure (.array ⟨profile.source, start, c.offset⟩ trees, c)) := by
  refine .prepay (fun fits => ?_) fun exceeds => ?_
  · have room := fits.2.elements
    dsimp only at room
    have within' : (documentBudget profile).fits (spend t { elements := trees.length }) 0 :=
      (((documentBudget profile).fits_add t _ 0).mp (by rwa [add_zero])).2
    unfold storeArray
    dsimp only
    rw [if_neg (by omega)]
    exact addNode_admitted _ within'
  · unfold storeArray
    dsimp only
    split
    · exact ⟨_, rfl, .inl rfl⟩
    · refine absurd ⟨⟨within.1.nodes, within.1.members, zero_le _, trivial, rfl⟩, ⟨within.2.ids, ?_⟩⟩ exceeds
      dsimp only
      omega

theorem parseArray_admitted {depth : Nat}
    (same : ∀ t c, (documentBudget profile).fits t 0 → Admitted profile t (parse ⟨c, t⟩) (parse' c))
    (within : (documentBudget profile).fits t 0) :
    Admitted profile t (parseArray profile parse depth ⟨c, t⟩) (Syntax.parseArray profile parse' depth c) := by
  refine .prepay (fun fits => ?_) fun exceeds => ?_
  · have shallow := fits.1.deepest
    dsimp only at shallow
    unfold parseArray
    rw [if_neg (by omega)]
    refine (lex_admitted _ within).bind ?_
    rintro t₁ _ ⟨_, c₁⟩ within₁ rfl
    refine (arrayValues_admitted same within₁).bind ?_
    rintro t₂ _ ⟨trees, c₂⟩ within₂ rfl
    exact storeArray_admitted _ _ within₂
  · unfold parseArray
    split
    · exact ⟨_, rfl, .inr (.inl rfl)⟩
    · exact absurd ⟨⟨within.1.nodes, within.1.members, by dsimp only; omega, trivial, rfl⟩,
        ⟨within.2.ids, within.2.elements⟩⟩ exceeds

theorem placeMember_keep (members : List Member) (member : Member) (keySpan : SourceSpan) :
    (∃ members', placeMember profile members member keySpan = .ok members' ∧
        keep profile.options.duplicateKeys members member = some members') ∨
      ∃ e, placeMember profile members member keySpan = .error e ∧ LimitFailure profile e ∧
        keep profile.options.duplicateKeys members member = none := by
  unfold placeMember keep
  cases members.findIdx? (fun earlier => earlier.1 = member.1) with
  | none => exact .inl ⟨_, rfl, rfl⟩
  | some duplicate =>
    cases policy : profile.options.duplicateKeys with
    | reject => exact .inr ⟨_, rfl, .inr (.inr ⟨rfl, policy⟩), rfl⟩
    | keepFirst => exact .inl ⟨_, rfl, rfl⟩
    | keepLast => exact .inl ⟨_, rfl, rfl⟩
    | preserve => exact .inl ⟨_, rfl, rfl⟩

theorem settle_cons {members members' : List Member} {member : Member} (new : List Member)
    (kept : keep profile.options.duplicateKeys members member = some members') :
    settle profile members (member :: new) = settle profile members' new := by
  simp only [settle, keepAll, kept, Option.bind_some]

theorem settle_refused {members : List Member} {member : Member} (new : List Member)
    (refused : keep profile.options.duplicateKeys members member = none) :
    settle profile members (member :: new) = .done [] { repeated := 1 } := by
  simp only [settle, keepAll, refused, Option.bind_none]

theorem objectLoop_admitted (fuel : Nat) (members : List Member)
    (same : ∀ t c, (documentBudget profile).fits t 0 → Admitted profile t (parse ⟨c, t⟩) (parse' c))
    (skips : ∀ c, parse' c = do let (_, c) ← free (c.skipTrivia profile); parse' c)
    (within : (documentBudget profile).fits t 0) :
    Admitted profile t (objectLoop profile parse fuel ⟨c, t⟩ members) (do
      let (new, c) ← Syntax.objectLoop profile parse' fuel c
      let kept ← Syntax.settle profile members new
      pure (kept, c)) := by
  induction fuel generalizing t c members with
  | zero => exact .failed
  | succ fuel ih =>
    simp only [Syntax.objectLoop, bind_assoc']
    refine (parseString_admitted (documentBudget_countsStrings profile) within).bind ?_
    rintro t₁ _ ⟨⟨key, keySpan⟩, c₁⟩ within₁ rfl
    refine (lex_admitted _ within₁).bind ?_
    rintro t₂ _ ⟨_, c₂⟩ within₂ rfl
    simp only [skips c₂, bind_assoc']
    refine (lex_admitted _ within₂).bind ?_
    rintro t₃ _ ⟨_, c₃⟩ within₃ rfl
    refine (same t₃ c₃ within₃).bind ?_
    rintro t₄ _ ⟨value, c₄⟩ within₄ rfl
    rcases placeMember_keep members (key, ⟨profile.source, keySpan.first, value.span.last⟩, value) keySpan with
      ⟨members', placed, kept⟩ | ⟨e, refused, limited, none⟩
    · rw [placed]
      refine (lex_admitted _ within₄).bind ?_
      rintro t₅ _ ⟨closed, c₅⟩ within₅ rfl
      cases closed with
      | true =>
        simp only [if_true, pure_eq_done, done_zero_bind, settle_cons [] kept]
        exact .pure within₅ rfl
      | false =>
        simpa only [Bool.false_eq_true, if_false, bind_assoc', pure_eq_done, done_zero_bind,
          settle_cons _ kept] using ih members' within₅ (c := c₅)
    · rw [refused]
      refine .doomed limited fun b k h fits => ?_
      obtain ⟨⟨closed, c₅⟩, k₁, k₂, _, h, rfl⟩ := bind_done h
      have rest := (((documentBudget profile).fits_add _ _ _).mp fits).2.1.distinct
      cases closed with
      | true =>
        simp only [if_true, pure_eq_done, done_zero_bind, settle_refused [] none] at h
        cases h
        cases rest
      | false =>
        simp only [Bool.false_eq_true, if_false, bind_assoc', pure_eq_done, done_zero_bind,
          settle_refused _ none] at h
        obtain ⟨_, k₃, k₄, _, settled, rfl⟩ := bind_done h
        cases settled
        simp at rest

theorem objectMembers_admitted
    (same : ∀ t c, (documentBudget profile).fits t 0 → Admitted profile t (parse ⟨c, t⟩) (parse' c))
    (skips : ∀ c, parse' c = do let (_, c) ← free (c.skipTrivia profile); parse' c)
    (within : (documentBudget profile).fits t 0) :
    Admitted profile t (objectMembers profile parse ⟨c, t⟩) (do
      let (new, c) ← Syntax.objectMembers profile parse' c
      let kept ← settle profile [] new
      pure (kept, c)) := by
  unfold objectMembers Syntax.objectMembers
  split
  · exact .pure within rfl
  · exact objectLoop_admitted _ [] same skips within

theorem storeObject_admitted (start : Nat) (members : List Member) (within : (documentBudget profile).fits t 0) :
    Admitted profile t (storeObject profile ⟨c, t⟩ start members) (do
      charge { members := members.length }
      charge { nodes := 1 }
      pure (.object ⟨profile.source, start, c.offset⟩ members, c)) := by
  refine .prepay (fun fits => ?_) fun exceeds => ?_
  · have room := fits.1.members
    dsimp only at room
    have within' : (documentBudget profile).fits (spend t { members := members.length }) 0 :=
      (((documentBudget profile).fits_add t _ 0).mp (by rwa [add_zero])).2
    unfold storeObject
    dsimp only
    rw [if_neg (by omega)]
    exact addNode_admitted _ within'
  · unfold storeObject
    dsimp only
    split
    · exact ⟨_, rfl, .inl rfl⟩
    · refine absurd ⟨⟨within.1.nodes, ?_, zero_le _, trivial, rfl⟩, ⟨within.2.ids, within.2.elements⟩⟩ exceeds
      dsimp only
      omega

theorem parseObject_admitted {depth : Nat}
    (same : ∀ t c, (documentBudget profile).fits t 0 → Admitted profile t (parse ⟨c, t⟩) (parse' c))
    (skips : ∀ c, parse' c = do let (_, c) ← free (c.skipTrivia profile); parse' c)
    (within : (documentBudget profile).fits t 0) :
    Admitted profile t (parseObject profile parse depth ⟨c, t⟩) (Syntax.parseObject profile parse' depth c) := by
  refine .prepay (fun fits => ?_) fun exceeds => ?_
  · have shallow := fits.1.deepest
    dsimp only at shallow
    unfold parseObject
    rw [if_neg (by omega)]
    refine (lex_admitted _ within).bind ?_
    rintro t₁ _ ⟨_, c₁⟩ within₁ rfl
    have stored : Admitted profile t₁
        (objectMembers profile parse ⟨c₁, t₁⟩ >>= fun p => storeObject profile p.2.pass c.offset p.1)
        ((do
            let (new, c) ← Syntax.objectMembers profile parse' c₁
            let kept ← Syntax.settle profile [] new
            pure (kept, c)) >>= fun q => do
          charge { members := q.1.length }
          charge { nodes := 1 }
          pure (.object ⟨profile.source, c.offset, (q.2.advance 1).offset⟩ q.1, q.2.advance 1)) := by
      refine (objectMembers_admitted same skips within₁).bind ?_
      rintro t₂ _ ⟨kept, c₂⟩ within₂ rfl
      exact storeObject_admitted _ _ within₂
    simpa only [bind_assoc', pure_eq_done, done_zero_bind] using stored
  · unfold parseObject
    split
    · exact ⟨_, rfl, .inr (.inl rfl)⟩
    · exact absurd ⟨⟨within.1.nodes, within.1.members, by dsimp only; omega, trivial, rfl⟩,
        ⟨within.2.ids, within.2.elements⟩⟩ exceeds

end

theorem parseValue_skips (fuel depth : Nat) (c : Cursor) :
    Syntax.parseValue profile fuel depth c =
      (do let (_, c) ← free (c.skipTrivia profile); Syntax.parseValue profile fuel depth c) := by
  cases skipped : c.skipTrivia profile with
  | error e =>
    cases fuel with
    | zero => rfl
    | succ fuel => simp only [Syntax.parseValue, skipped, free, failed_bind]
  | ok r =>
    obtain ⟨_, _, stop⟩ := Cursor.skipTrivia_over skipped
    cases fuel with
    | zero => rfl
    | succ fuel =>
      simp only [Syntax.parseValue, skipped, free, done_zero_bind,
        Cursor.skipTrivia_noTrivia stop]

theorem parseValue_admitted (fuel depth : Nat) (within : (documentBudget profile).fits t 0) :
    Admitted profile t (parseValue profile fuel depth ⟨c, t⟩) (Syntax.parseValue profile fuel depth c) := by
  induction fuel generalizing t c depth with
  | zero => exact .failed
  | succ fuel ih =>
    refine (lex_admitted _ within).bind ?_
    rintro t₁ _ ⟨_, c₁⟩ within₁ rfl
    refine .ite Iff.rfl (fun _ _ => ?_) fun _ _ => .ite Iff.rfl (fun _ _ => ?_) fun _ _ => ?_
    · exact parseObject_admitted (fun t c => ih (depth + 1)) (parseValue_skips fuel (depth + 1)) within₁
    · exact parseArray_admitted (fun t c => ih (depth + 1)) within₁
    · refine .ite Iff.rfl (fun _ _ => ?_) fun _ _ => ?_
      · refine (parseString_admitted (documentBudget_countsStrings profile) within₁).bind ?_
        rintro t₂ _ ⟨⟨text, span⟩, c₂⟩ within₂ rfl
        exact addNode_admitted _ within₂
      · refine (lex_admitted _ within₁).bind ?_
        rintro t₂ _ ⟨⟨value, span⟩, c₂⟩ within₂ rfl
        exact addNode_admitted _ within₂

theorem start_fits (profile : Profile) : (documentBudget profile).fits {} 0 :=
  ⟨⟨zero_le _, zero_le _, zero_le _, trivial, rfl⟩, ⟨zero_le _, zero_le _⟩⟩

def Readable (profile : Profile) (input : Bytes) : Prop :=
  input.length ≤ profile.limits.maxInputBytes ∧ (profile.options.utf8 = .validate → Unicode.isValidUtf8 input = true)

theorem parse_admitted (input : Bytes) (readable : Readable profile input) :
    Checks (documentBudget profile) (fun _ => False) (LimitFailure profile) {} (fun _ p q => p = q)
      (parse profile input) (Syntax.parse profile input) := by
  unfold parse
  rw [if_neg (by have := readable.1; omega), if_neg fun invalid => by simp [readable.2 invalid.1] at invalid]
  refine (parseValue_admitted (input.length + 1) 0 (start_fits profile)).bind ?_
  rintro t₁ _ ⟨root, c₁⟩ within₁ rfl
  refine (lex_admitted _ within₁).bind ?_
  rintro t₂ _ ⟨_, c₂⟩ within₂ rfl
  dsimp only
  by_cases finished : c₂.rest = []
  · rw [if_neg (not_not.mpr finished), if_pos finished]
    exact .pure within₂ rfl
  · rw [if_pos finished, if_neg finished]
    exact .failed

theorem parse_readable {input : Bytes} {tree : SpannedValue} (h : parse profile input = .ok tree) :
    Readable profile input := by
  unfold parse at h
  split at h
  · cases h
  split at h
  · cases h
  rename_i small valid
  exact ⟨by omega, fun validate => by simpa [validate] using valid⟩

end Reference

end NginBase.Json
