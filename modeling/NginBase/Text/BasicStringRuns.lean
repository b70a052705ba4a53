import NginBase.Text.BasicStringTransfers

namespace NginBase.Text.BasicString

open Library Library.Command Refused List StringView

variable {C Alloc : Type} {L : StringLayout C} {traits : StringAllocatorTraits} {grants : Grants C} {s : Strings C Alloc}
  {lists : Nat → List C}

inductive Call (C : Type)
  | clear (self : Nat)
  | reserve (self newCap : Nat)
  | reserveExact (self newCap : Nat)
  | shrinkToFit (self : Nat)
  | resize (self count : Nat) (ch : C)
  | pushBack (self : Nat) (ch : C)
  | popBack (self : Nat)
  | assign (self : Nat) (view : StringView C)
  | append (self : Nat) (view : StringView C)
  | appendFilled (self count : Nat) (ch : C)
  | insert (self pos : Nat) (view : StringView C)
  | insertFilled (self pos count : Nat) (ch : C)
  | erase (self pos count : Nat)
  | replace (self pos count : Nat) (view : StringView C)
  | removePrefix (self count : Nat)
  | removeSuffix (self count : Nat)
  | swap (self other : Nat)
  | copyAssign (self other : Nat)
  | moveAssign (self other : Nat)
  | copyConstruct (self other : Nat)
  | moveConstruct (self other : Nat)

namespace Call

def run (L : StringLayout C) (traits : StringAllocatorTraits) (grants : Grants C) : Call C → Action C Alloc Unit
  | clear self => update self (cleared L)
  | reserve self newCap => update self (reserved L grants · newCap)
  | reserveExact self newCap => update self (reservedExactly L grants · newCap)
  | shrinkToFit self => update self (shrunkToFit L grants)
  | resize self count ch => update self (resized L grants · count ch)
  | pushBack self ch => update self (pushedBack L grants · ch)
  | popBack self => update self (poppedBack L)
  | assign self view => update self (assigned L grants · view)
  | append self view => update self (appendedView L grants self · view)
  | appendFilled self count ch => update self (filledWith L grants · count ch)
  | insert self pos view => BasicString.insert L grants self pos view
  | insertFilled self pos count ch => BasicString.insertFilled L grants self pos count ch
  | erase self pos count => BasicString.erase L grants self pos count
  | replace self pos count view => BasicString.replace L grants self pos count view
  | removePrefix self count => BasicString.removePrefix L grants self count
  | removeSuffix self count => BasicString.removeSuffix L grants self count
  | swap self other => BasicString.swap L traits grants self other
  | copyAssign self other => BasicString.copyAssign L traits grants self other
  | moveAssign self other => BasicString.moveAssign L traits grants self other
  | copyConstruct self other => BasicString.copyConstruct L grants self other
  | moveConstruct self other => BasicString.moveConstruct L self other

/-- The same call on lists. There is none for a position that does not exist, or a view that shows nothing. -/
def apply (lists : Nat → List C) : Call C → Option (Nat → List C)
  | clear self => some (Function.update lists self [])
  | reserve _ _ | reserveExact _ _ | shrinkToFit _ => some lists
  | resize self count ch => some (Function.update lists self (resizeList (lists self) count ch))
  | pushBack self ch => some (Function.update lists self (lists self ++ [ch]))
  | popBack self => some (Function.update lists self (lists self).dropLast)
  | assign self view => (view.units lists).map fun new => Function.update lists self new
  | append self view => (view.units lists).map fun new => Function.update lists self (lists self ++ new)
  | appendFilled self count ch => some (Function.update lists self (lists self ++ replicate count ch))
  | insert self pos view => do
    let new ← view.units lists
    (replaceList (lists self) pos 0 new).map (Function.update lists self)
  | insertFilled self pos count ch =>
    if count = 0 then some lists
    else (replaceList (lists self) pos 0 (replicate count ch)).map (Function.update lists self)
  | erase self pos count => (replaceList (lists self) pos count []).map (Function.update lists self)
  | replace self pos count view => do
    let new ← view.units lists
    (replaceList (lists self) pos count new).map (Function.update lists self)
  | removePrefix self count =>
    if count ≤ (lists self).length then some (Function.update lists self ((lists self).drop count)) else none
  | removeSuffix self count =>
    if count ≤ (lists self).length then
      some (Function.update lists self ((lists self).take ((lists self).length - count)))
    else none
  | swap self other => some (Function.update (Function.update lists other (lists self)) self (lists other))
  | copyAssign self other => some (Function.update lists self (lists other))
  | moveAssign self other =>
    some (if self = other then lists else Function.update (Function.update lists other []) self (lists other))
  | copyConstruct self other => some (Function.update lists self (lists other))
  | moveConstruct self other => some (Function.update (Function.update lists other []) self (lists other))

def view : Call C → Option (StringView C)
  | assign _ view | append _ view | insert _ _ view | replace _ _ _ view => some view
  | _ => none

def Fits (s : Strings C Alloc) (call : Call C) : Prop :=
  match call.view with
  | some (.within index offset count) => offset + count ≤ (s.strings index).rawSize
  | _ => True

instance (s : Strings C Alloc) (call : Call C) : Decidable (call.Fits s) := by
  unfold Fits
  split
  · infer_instance
  · infer_instance

def needs (lists : Nat → List C) : Call C → Nat
  | reserve _ newCap | reserveExact _ newCap => newCap
  | resize _ count _ => count
  | pushBack self _ => (lists self).length + 1
  | assign _ view => view.size
  | append self view | insert self _ view => (lists self).length + view.size
  | appendFilled self count _ | insertFilled self _ count _ => (lists self).length + count
  | replace self pos count view => (lists self).length - min count ((lists self).length - pos) + view.size
  | _ => 0

def forfeits (traits : StringAllocatorTraits) : Call C → Option Nat
  | copyAssign self other => if Forfeits traits self other then some self else none
  | _ => none

def abandon (traits : StringAllocatorTraits) (lists : Nat → List C) (call : Call C) : Nat → List C :=
  match call.forfeits traits with
  | some self => Function.update lists self []
  | none => lists

end Call

/-- What a call throws, and why: an allocation is refused, a string would be too long, or a position does not exist. -/
def Grounds (L : StringLayout C) (grants : Grants C) (call : Call C) (lists : Nat → List C) (e : StringException) : Prop :=
  (e = .badAlloc ∧ ∃ request bytes, grants request bytes = none) ∨
  ((∃ what, e = .lengthError what) ∧ L.maxCapacity < call.needs lists) ∨
  ((∃ what, e = .outOfRange what) ∧ call.apply lists = none)

def Thrown (L : StringLayout C) (traits : StringAllocatorTraits) (grants : Grants C) (call : Call C) (lists : Nat → List C)
    (s : Strings C Alloc) (e : StringException) (s' : Strings C Alloc) : Prop :=
  Grounds L grants call lists e ∧ Represents L s' (call.abandon traits lists) ∧
    (call.forfeits traits = none → s'.strings = s.strings)

theorem Refused.thrown {call : Call C} {e : StringException} {s' : Strings C Alloc} (represents : Represents L s lists)
    (kept : call.forfeits traits = none) (refused : Refused L grants (call.needs lists) s e s') :
    Thrown L traits grants call lists s e s' := by
  refine ⟨?_, ?_, fun _ => refused.2⟩
  · rcases refused.1 with memory | length
    · exact .inl memory
    · exact .inr (.inl length)
  · unfold Call.abandon
    rw [kept]
    exact represents.of_same refused.2

theorem Fails.thrown {call : Call C} {e : StringException} {s' : Strings C Alloc} {result : Option (List C)} {need : Nat}
    (represents : Represents L s lists) (kept : call.forfeits traits = none)
    (need_ : Refused L grants need s e s' → Refused L grants (call.needs lists) s e s')
    (none : result = none → call.apply lists = none) (fails : Fails L grants need s result e s') :
    Thrown L traits grants call lists s e s' := by
  rcases fails with refused | ⟨behind, what, same⟩
  · exact (need_ refused).thrown represents kept
  refine ⟨.inr (.inr ⟨what, none behind⟩), ?_, fun _ => same⟩
  unfold Call.abandon
  rw [kept]
  exact represents.of_same same

def Performs (L : StringLayout C) (traits : StringAllocatorTraits) (grants : Grants C) (call : Call C)
    (lists : Nat → List C) (s : Strings C Alloc) : Prop :=
  Ensures (call.run L traits grants) s (fun _ s' => ∃ lists', call.apply lists = some lists' ∧ Represents L s' lists')
    (Thrown L traits grants call lists s)

section

variable (represents : Represents L s lists)

include represents

theorem performs_update {call : Call C} {self : Nat} {f : BasicString C Alloc → Action C Alloc (BasicString C Alloc)}
    {new : List C} {need : Nat} (yields : Yields L grants need (f (s.strings self)) s new)
    (enough : need ≤ call.needs lists) (run : call.run L traits grants = update self f)
    (kept : call.forfeits traits = none) (applies : call.apply lists = some (Function.update lists self new)) :
    Performs L traits grants call lists s := by
  unfold Performs
  rw [run]
  apply (update_spec yields).mono
  · intro _ s' becomes
    exact ⟨_, applies, becomes.represents represents⟩
  · intro e s' refused
    exact (refused.of_le enough).thrown represents kept

theorem performs_replace {call : Call C} {self pos count : Nat} {view : StringView C} {new : List C}
    (shows : view.units lists = some new)
    (run : call.run L traits grants = (BasicString.replace L grants self pos count view : Action C Alloc Unit))
    (kept : call.forfeits traits = none)
    (needed : ∀ e s', Refused L grants ((lists self).length - min count ((lists self).length - pos) + new.length) s e s' →
      Refused L grants (call.needs lists) s e s')
    (applies : call.apply lists = (replaceList (lists self) pos count new).map (Function.update lists self)) :
    Performs L traits grants call lists s := by
  unfold Performs
  rw [run]
  apply (replace_spec represents shows pos count).mono
  · intro _ s' ⟨result, is, becomes⟩
    rw [applies, is]
    exact ⟨_, rfl, becomes.represents represents⟩
  · intro e s' fails
    apply fails.thrown represents kept (needed e s')
    intro none
    rw [applies, none]
    rfl

theorem Represents.shows {call : Call C} (fits : call.Fits s) {view : StringView C} (given : call.view = some view) :
    ∃ new, view.units lists = some new := by
  cases view with
  | outside units => exact ⟨units, rfl⟩
  | within index offset count =>
    have inside : offset + count ≤ (s.strings index).rawSize := by
      rwa [Call.Fits, given] at fits
    rw [(represents index).rawSize] at inside
    exact ⟨_, if_pos inside⟩

theorem performs (call : Call C) (fits : call.Fits s) : Performs L traits grants call lists s := by
  cases call with
  | clear self =>
    have cleared : Yields L grants 0 (cleared L (s.strings self)) s [] := (cleared_spec (represents self)).weaken fun _ _ h => h
    exact performs_update represents cleared (Nat.zero_le _) rfl rfl rfl
  | reserve self newCap =>
    exact performs_update represents (reserved_spec (represents self) newCap) (le_refl _) rfl rfl (by simp [Call.apply])
  | reserveExact self newCap =>
    exact performs_update represents (reservedExactly_spec (represents self) newCap) (le_refl _) rfl rfl
      (by simp [Call.apply])
  | shrinkToFit self =>
    exact performs_update represents (shrunkToFit_spec (represents self)) (le_refl _) rfl rfl (by simp [Call.apply])
  | resize self count ch =>
    exact performs_update represents (resized_spec (represents self) count ch) (le_refl _) rfl rfl rfl
  | pushBack self ch =>
    exact performs_update represents (pushedBack_spec (represents self) ch) (le_refl _) rfl rfl rfl
  | popBack self => exact performs_update represents (poppedBack_spec (represents self)) (le_refl _) rfl rfl rfl
  | assign self view =>
    obtain ⟨new, shows⟩ := represents.shows fits rfl
    have enough : new.length ≤ view.size := le_of_eq (length_units shows)
    exact performs_update represents (assigned_spec represents (represents self) shows) enough rfl rfl
      (by simp [Call.apply, shows])
  | append self view =>
    obtain ⟨new, shows⟩ := represents.shows fits rfl
    have enough : (lists self).length + new.length ≤ (lists self).length + view.size := by
      rw [length_units shows]
    exact performs_update represents (appendedView_spec represents (represents self) shows) enough rfl rfl
      (by simp [Call.apply, shows])
  | appendFilled self count ch =>
    exact performs_update represents (filledWith_spec (represents self) count ch) (le_refl _) rfl rfl rfl
  | insert self pos view =>
    obtain ⟨new, shows⟩ := represents.shows fits rfl
    refine performs_replace represents shows rfl rfl ?_ (by simp [Call.apply, shows])
    intro e s' refused
    apply refused.of_le
    rw [length_units shows]
    exact le_refl _
  | insertFilled self pos count ch =>
    by_cases none : count = 0
    · subst none
      exact ⟨lists, rfl, represents⟩
    apply (insertFilled_spec represents pos count ch none).mono
    · intro _ s' ⟨result, is, becomes⟩
      simp only [Call.apply, if_neg none, is]
      exact ⟨_, rfl, becomes.represents represents⟩
    · intro e s' fails
      apply fails.thrown represents rfl id
      intro behind
      simp [Call.apply, none, behind]
  | erase self pos count =>
    refine performs_replace represents rfl rfl rfl ?_ rfl
    intro e s' refused
    exact refused.of_bounded (le_trans (Nat.sub_le _ _) (represents self).length_le)
  | replace self pos count view =>
    obtain ⟨new, shows⟩ := represents.shows fits rfl
    refine performs_replace represents shows rfl rfl ?_ (by simp [Call.apply, shows])
    intro e s' refused
    apply refused.of_le
    rw [length_units shows]
    exact le_refl _
  | removePrefix self count =>
    apply (removePrefix_spec represents count).mono
    · intro _ s' ⟨inside, becomes⟩
      exact ⟨_, if_pos inside, becomes.represents represents⟩
    · intro e s' fails
      rcases fails with refused | ⟨beyond, what, same⟩
      · exact thrown represents rfl refused
      · exact ⟨.inr (.inr ⟨what, if_neg (Nat.not_le_of_lt beyond)⟩), represents.of_same same, fun _ => same⟩
  | removeSuffix self count =>
    apply (removeSuffix_spec represents count).mono
    · intro _ s' ⟨inside, becomes⟩
      exact ⟨_, if_pos inside, becomes.represents represents⟩
    · intro e s' fails
      rcases fails with refused | ⟨beyond, what, same⟩
      · exact thrown represents rfl refused
      · exact ⟨.inr (.inr ⟨what, if_neg (Nat.not_le_of_lt beyond)⟩), represents.of_same same, fun _ => same⟩
  | swap self other =>
    by_cases apart : self = other
    · subst apart
      have unchanged : (Call.swap self self).run L traits grants = (pure () : Action C Alloc Unit) := if_pos rfl
      unfold Performs
      rw [unchanged]
      refine ⟨_, rfl, ?_⟩
      rw [Function.update_idem, Function.update_eq_self]
      exact represents
    · apply (swap_spec represents apart).mono
      · intro _ s' represents'
        exact ⟨_, rfl, represents'⟩
      · intro e s' refused
        exact thrown represents rfl refused
  | copyAssign self other =>
    apply (copyAssign_spec represents).mono
    · intro _ s' represents'
      exact ⟨_, rfl, represents'⟩
    · intro e s' thrown
      rcases thrown with ⟨keeps, refused⟩ | ⟨forfeits, memory, represents'⟩
      · exact thrown represents (if_neg keeps) refused
      have given : (Call.copyAssign self other : Call C).forfeits traits = some self := if_pos forfeits
      refine ⟨.inl memory, ?_, ?_⟩
      · unfold Call.abandon
        rw [given]
        exact represents'
      · intro kept
        rw [given] at kept
        cases kept
  | moveAssign self other =>
    by_cases apart : self = other
    · subst apart
      have unchanged : (Call.moveAssign self self).run L traits grants = (pure () : Action C Alloc Unit) := if_pos rfl
      unfold Performs
      rw [unchanged]
      exact ⟨_, rfl, by rw [if_pos rfl]; exact represents⟩
    · apply (moveAssign_spec represents apart).mono
      · intro _ s' represents'
        exact ⟨_, rfl, by rw [if_neg apart]; exact represents'⟩
      · intro e s' refused
        exact thrown represents rfl refused
  | copyConstruct self other =>
    apply (copyConstruct_spec represents).mono
    · intro _ s' becomes
      exact ⟨_, rfl, becomes.represents represents⟩
    · intro e s' refused
      exact thrown represents rfl refused
  | moveConstruct self other =>
    apply (moveConstruct_spec represents).weaken
    intro _ s' represents'
    exact ⟨_, rfl, represents'⟩

end

def start (L : StringLayout C) (allocators : Nat → Alloc) : Strings C Alloc :=
  { strings := fun i => { sizeAndFlags := 0, storage := .small L.smallStorage, alloc := allocators i } }

theorem start_represents (allocators : Nat → Alloc) : Represents L (start L allocators) fun _ => [] := by
  intro i
  refine ⟨L.sboChars, @holdsIn_small C Alloc L _ [] (replicate L.sboChars L.zero) ?_ ?_ rfl⟩
  · rw [length_nil, zero_add, length_replicate]
  · exact congrArg StringStorage.small replicate_succ

def Valid (L : StringLayout C) (traits : StringAllocatorTraits) (grants : Grants C) : List (Call C) → Strings C Alloc → Prop
  | [], _ => True
  | call :: rest, s => call.Fits s ∧ Valid L traits grants rest (call.run L traits grants s).2

def outcomes (L : StringLayout C) (traits : StringAllocatorTraits) (grants : Grants C) :
    List (Call C) → Strings C Alloc → List (Call C × Bool)
  | [], _ => []
  | call :: rest, s =>
    match call.run L traits grants s with
    | (.ok _, s') => (call, true) :: outcomes L traits grants rest s'
    | (.error _, s') => (call, false) :: outcomes L traits grants rest s'

def replay (traits : StringAllocatorTraits) (calls : List (Call C × Bool)) (lists : Nat → List C) : Option (Nat → List C) :=
  calls.foldlM (fun lists (call, returns) => if returns then call.apply lists else some (call.abandon traits lists)) lists

theorem run_spec (calls : List (Call C)) (s : Strings C Alloc) (lists : Nat → List C) (represents : Represents L s lists)
    (valid : Valid L traits grants calls s) :
    ∃ lists', replay traits (outcomes L traits grants calls s) lists = some lists' ∧
      Represents L (attempt (Call.run L traits grants) calls s) lists' := by
  induction calls generalizing s lists with
  | nil => exact ⟨lists, rfl, represents⟩
  | cons call rest ih =>
    obtain ⟨fits, valid⟩ := valid
    have step : Ensures (call.run L traits grants) s _ _ := performs represents call fits
    unfold outcomes attempt
    rw [foldl_cons]
    rcases result : call.run L traits grants s with ⟨answer, s'⟩
    rw [result] at valid
    cases answer with
    | ok u =>
      obtain ⟨lists₁, applied, represents₁⟩ := step.ok result
      obtain ⟨lists', replayed, represents'⟩ := ih s' lists₁ represents₁ valid
      refine ⟨lists', ?_, represents'⟩
      show (call.apply lists).bind _ = _
      rw [applied]
      exact replayed
    | error e =>
      obtain ⟨-, represents₁, -⟩ := step.error result
      exact ih s' _ represents₁ valid

/-- What a program sees of the strings: the units, a zero after them, a capacity that holds them, and a tag bit
    that tells the storage. -/
def Shows (L : StringLayout C) (s : Strings C Alloc) (lists : Nat → List C) : Prop :=
  ∀ i, let v := s.strings i
    v.content = some (lists i) ∧ v.rawSize = (lists i).length ∧ (v.data.bind fun buffer => buffer[v.rawSize]?) = some L.zero ∧
      (∃ capacity, v.rawCapacity L = some capacity ∧ v.rawSize ≤ capacity) ∧
      (v.isSmall = true ↔ ∃ buffer, v.storage = .small buffer)

theorem Represents.observed (represents : Represents L s lists) : Shows L s lists := by
  intro i v
  have content := (represents i).content
  obtain ⟨capacity, rest, framed, size⟩ := represents i
  have length := framed.length
  simp only [length_append, length_cons] at length
  refine ⟨content, size, ?_, ⟨capacity, framed.rawCapacity, by rw [size]; omega⟩, ?_⟩
  · rw [framed.data, size]
    simp
  · cases framed with
    | small storage tag _ _ => simp [v, storage, tag]
    | heap storage tag _ _ _ => simp [v, storage, tag]

/-- Every run of calls has the effect of the list operations of the calls that return, also when a view shows a part
    of the string that changes. A call throws only when an allocation is refused, a string would be longer than
    `maxCapacity`, or a position does not exist, and then leaves every string as it was. The exception is a copy
    assignment whose allocator is propagated by an assignment that may throw: the string it is called on is empty. -/
theorem basicString_refines_list (L : StringLayout C) (traits : StringAllocatorTraits) (grants : Grants C)
    (allocators : Nat → Alloc) (calls : List (Call C)) (valid : Valid L traits grants calls (start L allocators)) :
    let s := attempt (Call.run L traits grants) calls (start L allocators)
    ∃ lists, replay traits (outcomes L traits grants calls (start L allocators)) (fun _ => []) = some lists ∧
      Shows L s lists ∧
      ∀ call : Call C, call.Fits s → Ensures (call.run L traits grants) s
        (fun _ s' => ∃ lists', call.apply lists = some lists' ∧ Shows L s' lists')
        (fun e s' => Grounds L grants call lists e ∧ Shows L s' (call.abandon traits lists) ∧
          (call.forfeits traits = none → s'.strings = s.strings)) := by
  intro s
  obtain ⟨lists, replayed, represents⟩ := run_spec calls _ _ (start_represents allocators) valid
  refine ⟨lists, replayed, represents.observed, ?_⟩
  intro call fits
  apply Ensures.mono (performs represents call fits)
  · intro _ s' ⟨lists', applied, represents'⟩
    exact ⟨lists', applied, represents'.observed⟩
  · intro e s' ⟨grounds, represents', same⟩
    exact ⟨grounds, represents'.observed, same⟩

def numbers : StringLayout Nat where
  zero := 0
  charBytes := 1
  sboBytes := 4
  grow := DefaultGrowthPolicy.grow
  charPositive := Nat.one_pos
  room := by decide
  addressable := by decide
  packed := by decide

theorem basicString_refines_list_numbers :
    let calls : List (Call Nat) := [.assign 0 (.outside [1, 2, 3]), .append 0 (.within 0 1 2), .replace 0 1 2 (.within 0 2 3),
      .erase 0 9 1, .moveAssign 1 0, .insert 1 0 (.within 1 4 2), .removeSuffix 1 5, .shrinkToFit 1]
    let grants : Grants Nat := fun _ _ => some fun _ => 7
    ∃ lists, replay {} (outcomes numbers {} grants calls (start numbers fun _ => ())) (fun _ => []) = some lists ∧
      lists 1 = [2, 3, 1] ∧ Shows numbers (attempt (Call.run numbers {} grants) calls (start numbers fun _ => ())) lists := by
  intro calls grants
  have valid : Valid numbers {} grants calls (start numbers fun _ => ()) := by
    refine ⟨?_, ?_, ?_, ?_, ?_, ?_, ?_, ?_, trivial⟩
    all_goals decide +kernel
  obtain ⟨lists, replayed, shows, -⟩ := basicString_refines_list numbers {} grants (fun _ => ()) calls valid
  refine ⟨lists, replayed, ?_, shows⟩
  have expected : (replay {} (outcomes numbers {} grants calls (start numbers fun _ => ())) (fun _ => [])).map
      (fun lists => lists 1) = some [2, 3, 1] := by decide +kernel
  rw [replayed] at expected
  exact Option.some.inj expected

theorem copyAssign_forfeits : ¬ ∀ (L : StringLayout Nat) (traits : StringAllocatorTraits) (grants : Grants Nat)
    (calls : List (Call Nat)) (call : Call Nat), Valid L traits grants (calls ++ [call]) (start L fun _ => ()) →
    let s : Strings Nat Unit := attempt (Call.run L traits grants) calls (start L fun _ => ())
    ∀ e s', call.run L traits grants s = (.error e, s') → ∀ i, (s'.strings i).content = (s.strings i).content := by
  intro unchanged
  let grants : Grants Nat := fun request _ => if request = 0 then some fun _ => 0 else none
  let traits : StringAllocatorTraits := { propagateOnCopyAssignment := true, nothrowCopyAssignable := false }
  let calls : List (Call Nat) := [.assign 1 (.outside [1, 2, 3, 4]), .pushBack 0 7]
  let s : Strings Nat Unit := attempt (Call.run numbers traits grants) calls (start numbers fun _ => ())
  have valid : Valid numbers traits grants (calls ++ [.copyAssign 0 1]) (start numbers fun _ => ()) := by
    refine ⟨?_, ?_, ?_, trivial⟩
    all_goals decide +kernel
  rcases result : (Call.copyAssign 0 1).run numbers traits grants s with ⟨answer, s'⟩
  have facts : ((Call.copyAssign 0 1).run numbers traits grants s).1.isOk = false ∧ (s.strings 0).content = some [7] ∧
      (((Call.copyAssign 0 1).run numbers traits grants s).2.strings 0).content = some [] := by decide +kernel
  rw [result] at facts
  obtain ⟨fails, before, after⟩ := facts
  cases answer with
  | ok u => cases fails
  | error e =>
    have same := unchanged numbers traits grants calls (.copyAssign 0 1) valid e s' result 0
    rw [after, before] at same
    cases same

end NginBase.Text.BasicString
