import NginBase.Containers.VectorAssignment

namespace NginBase.Containers.Vector

open Library Library.Command Function

variable {α Alloc : Type} {T : ObjectType α} {traits : AllocatorTraits Alloc} {grants : Nat → Nat → Bool} {limit : Nat}
  {items olds : List α} {s : Vectors α Alloc} {self other : Nat}

section

def Moved (T : ObjectType α) (limit : Nat) (s : Vectors α Alloc) (self other : Nat) (items : List α)
    (s' : Vectors α Alloc) : Prop :=
  Holds T limit (s'.vectors self) items ∧ Holds T limit (s'.vectors other) [] ∧
    ∀ i, i ≠ self → i ≠ other → s'.vectors i = s.vectors i

theorem stealStorageFrom_spec (apart : self ≠ other) (holds : Holds T limit (s.vectors other) items) :
    Ensures (stealStorageFrom self other) s (fun _ s' => Moved T limit s self other items s') fun _ _ => False := by
  unfold stealStorageFrom
  simp only [ensures_bind, ensures_store]
  unfold Moved
  dsimp only
  refine ⟨?_, ?_, ?_⟩
  · rw [update_of_ne apart, update_self]
    exact ⟨holds.slots, holds.size, holds.capacity, holds.fits⟩
  · rw [update_self]
    exact Holds.empty _
  · intro i first second
    rw [update_of_ne second, update_of_ne first]

theorem Moved.of_becomes {s₁ s' : Vectors α Alloc} {v : Vector α Alloc} (becomes : Becomes s self v s₁)
    (moved : Moved T limit s₁ self other items s') : Moved T limit s self other items s' := by
  refine ⟨moved.1, moved.2.1, ?_⟩
  intro i first second
  rw [moved.2.2 i first second, becomes.other first]

section

variable (apart : self ≠ other) (holds : Holds T limit (s.vectors self) olds)
    (holds' : Holds T limit (s.vectors other) items)

include apart holds holds'

theorem steal_spec : Ensures (steal T self other) s (fun _ s' => Moved T limit s self other items s') fun _ _ => False := by
  unfold steal
  rw [ensures_bind]
  apply (releaseStorage_spec holds).weaken
  intro _ s₁ becomes
  rw [← becomes.other apart.symm] at holds'
  apply (stealStorageFrom_spec apart holds').weaken
  intro _ s' moved
  exact moved.of_becomes becomes

theorem takeOver_spec :
    Ensures (takeOver T self other) s (fun _ s' => Moved T limit s self other items s') fun _ _ => False := by
  unfold takeOver
  rw [ensures_bind]
  apply (releaseStorage_spec holds).weaken
  intro _ s₁ becomes
  simp only [ensures_bind, ensures_current, ensures_store]
  have source : Holds T limit (update s₁.vectors self
      { s₁.vectors self with alloc := (s₁.vectors other).alloc } other) items := by
    rw [update_of_ne apart.symm, becomes.other apart.symm]
    exact holds'
  apply (stealStorageFrom_spec (s := ⟨update s₁.vectors self _, s₁.requests⟩) apart source).weaken
  intro _ s' moved
  have becomes' : Becomes s self { s₁.vectors self with alloc := (s₁.vectors other).alloc }
      ⟨update s₁.vectors self _, s₁.requests⟩ := becomes.trans rfl
  exact moved.of_becomes becomes'

end

variable (small : limit < 2 ^ 64)
  (bounded : ∀ request bytes, limit < bytes → bytes < 2 ^ 64 → grants request bytes = false)

include small bounded

section

variable (apart : self ≠ other) (holds : Holds T limit (s.vectors self) olds)
    (holds' : Holds T limit (s.vectors other) items)

include apart holds holds'

theorem assignFromMoved_spec :
    Ensures (assignFromMoved T grants self other) s (fun _ s' => Moved T limit s self other items s') (Refused s) := by
  have size := holds'.size
  have cleared : ∀ {s₁ : Vectors α Alloc} {lefts : List α}, Holds T limit (s₁.vectors self) items →
      Holds T limit (s₁.vectors other) lefts → (∀ i, i ≠ self → i ≠ other → s₁.vectors i = s.vectors i) →
      Ensures (clear T other) s₁ (fun _ s' => Moved T limit s self other items s') (Refused s) := by
    intro s₁ lefts target source rest
    apply (clear_spec source).weaken
    rintro _ s' ⟨o, becomes, empty⟩
    refine ⟨?_, ?_, ?_⟩
    · rw [becomes.other apart]
      exact target
    · rw [becomes.get]
      exact empty
    · intro i first second
      rw [becomes.other second]
      exact rest i first second
  unfold assignFromMoved
  simp only [ensures_bind, ensures_current]
  by_cases grows : (s.vectors self).capacity < (s.vectors other).size
  · rw [if_pos grows, ensures_bind]
    apply (constructFrom_spec small bounded holds').mono
    · rintro data s₁ ⟨filled, o, becomes₁, left⟩
      have fits : items.length * T.bytes ≤ limit := by
        rw [← size]
        exact Nat.le_trans (Nat.mul_le_mul_right _ holds'.size_le) holds'.fits
      rw [← becomes₁.other apart] at holds
      rw [filled, size, ensures_bind]
      apply (adopt_spec holds fits).weaken
      rintro _ s₂ ⟨v, becomes₂, target⟩
      rw [← becomes₂.get] at target
      rw [← becomes₁.get, ← becomes₂.other apart.symm] at left
      apply cleared target left
      intro i first second
      rw [becomes₂.other first, becomes₁.other second]
    · intro _ _ refused
      exact refused
  · rw [if_neg grows, ensures_bind]
    apply (assignInPlace_spec true apart holds holds' (by omega)).weaken
    rintro _ s₁ ⟨target, ⟨lefts, source, _⟩, rest⟩
    exact cleared target source rest

theorem moveAssign_spec :
    Ensures (moveAssign T traits grants self other) s (fun _ s' => Moved T limit s self other items s') (Refused s) := by
  have stolen : Ensures (steal T self other) s (fun _ s' => Moved T limit s self other items s') (Refused s) := by
    apply (steal_spec apart holds holds').weaken
    intro _ _ moved
    exact moved
  have assigned := assignFromMoved_spec small bounded apart holds holds'
  unfold moveAssign
  rw [if_pos apart]
  simp only [ensures_bind, ensures_current]
  by_cases propagates : traits.propagateOnMoveAssignment = true
  · rw [if_pos propagates]
    apply (takeOver_spec apart holds holds').weaken
    intro _ _ moved
    exact moved
  · rw [if_neg propagates]
    by_cases always : traits.isAlwaysEqual = true
    · rw [if_pos always]
      exact stolen
    rw [if_neg always]
    cases traits.equal with
    | none => exact assigned
    | some equal =>
      dsimp only
      split
      · exact stolen
      · exact assigned

end

end

inductive Call (α : Type)
  | pushBack (self : Nat) (argument : Argument) (x : α)
  | pushAt (self index : Nat) (argument : Argument) (x : α)
  | emplaceAt (self index : Nat) (x : α)
  | popBack (self : Nat)
  | erase (self index : Nat)
  | clear (self : Nat)
  | reserve (self newCapacity : Nat)
  | shrinkToFit (self : Nat)
  | moveConstruct (self other : Nat) (apart : self ≠ other)
  | moveAssign (self other : Nat)

namespace Call

def run (T : ObjectType α) (traits : AllocatorTraits Alloc) (grants : Nat → Nat → Bool) : Call α → Action α Alloc Unit
  | pushBack self argument x => Vector.pushBack T grants self argument x
  | pushAt self index argument x => Vector.pushAt T grants self index argument x
  | emplaceAt self index x => Vector.emplaceAt T grants self index x
  | popBack self => Vector.popBack T self
  | erase self index => Vector.erase T self index
  | clear self => Vector.clear T self
  | reserve self newCapacity => Vector.reserve T grants self newCapacity
  | shrinkToFit self => Vector.shrinkToFit T grants self
  | moveConstruct self other _ => Vector.moveConstruct T self other
  | moveAssign self other => Vector.moveAssign T traits grants self other

def apply (lists : Nat → List α) : Call α → Option (Nat → List α)
  | pushBack self _ x => some (update lists self (lists self ++ [x]))
  | pushAt self index _ x => inserted self index x
  | emplaceAt self index x => inserted self index x
  | popBack self => if lists self = [] then none else some (update lists self (lists self).dropLast)
  | erase self index =>
    if index < (lists self).length then
      some (update lists self ((lists self).take index ++ (lists self).drop (index + 1)))
    else none
  | clear self => some (update lists self [])
  | reserve _ _ => some lists
  | shrinkToFit _ => some lists
  | moveConstruct self other _ => some (update (update lists other []) self (lists other))
  | moveAssign self other =>
    if self = other then some lists else some (update (update lists other []) self (lists other))
where
  inserted (self index : Nat) (x : α) : Option (Nat → List α) :=
    if index ≤ (lists self).length then
      some (update lists self ((lists self).take index ++ x :: (lists self).drop index))
    else none

end Call

section

def Represents (T : ObjectType α) (limit : Nat) (s : Vectors α Alloc) (lists : Nat → List α) : Prop :=
  ∀ i, Holds T limit (s.vectors i) (lists i)

def Thrown (s : Vectors α Alloc) (inRange : Bool) (e : VectorException) (s' : Vectors α Alloc) : Prop :=
  s'.vectors = s.vectors ∧
    (inRange = false ∧ (∃ what, e = .outOfRange what) ∨
      inRange = true ∧ (e = .badAlloc ∨ ∃ what, e = .lengthError what))

variable {lists : Nat → List α}

theorem argument_value (argument : Argument) (x : α) : argument.value T x = x := by
  cases argument with
  | copied => exact T.copy_eq x
  | moved => exact T.move_eq x
  | emplaced => rfl

theorem Represents.becomes {s' : Vectors α Alloc} {v : Vector α Alloc} (represents : Represents T limit s lists)
    (becomes : Becomes s self v s') (holds : Holds T limit v items) : Represents T limit s' (update lists self items) := by
  intro i
  by_cases this : i = self
  · subst this
    rw [becomes.get, update_self]
    exact holds
  · rw [becomes.other this, update_of_ne this]
    exact represents i

theorem Represents.moved {s' : Vectors α Alloc} (represents : Represents T limit s lists) (apart : self ≠ other)
    (moved : Moved T limit s self other (lists other) s') :
    Represents T limit s' (update (update lists other []) self (lists other)) := by
  intro i
  by_cases first : i = self
  · subst first
    rw [update_self]
    exact moved.1
  · rw [update_of_ne first]
    by_cases second : i = other
    · subst second
      rw [update_self]
      exact moved.2.1
    · rw [moved.2.2 i first second, update_of_ne second]
      exact represents i

theorem Refused.thrown {s' : Vectors α Alloc} {e : VectorException} (refused : Refused s e s') : Thrown s true e s' :=
  ⟨refused.2, .inr ⟨rfl, refused.1⟩⟩

variable (small : limit ≤ 2 ^ 63)
  (bounded : ∀ request bytes, limit < bytes → bytes < 2 ^ 64 → grants request bytes = false)

include small bounded

theorem inserted_spec (represents : Represents T limit s lists) (what : String) (index : Nat) (argument : Argument) (x : α) :
    Ensures (insertAt T grants what self index argument x) s
      (fun _ s' => ∃ lists', Call.apply.inserted lists self index x = some lists' ∧ Represents T limit s' lists')
      fun e s' => Thrown s (Call.apply.inserted lists self index x).isSome e s' := by
  unfold Call.apply.inserted
  apply (insertAt_spec small bounded (represents self) what argument x).mono
  · intro _ s' ⟨inside, v, becomes, holds⟩
    rw [argument_value] at holds
    rw [if_pos inside]
    exact ⟨_, rfl, represents.becomes becomes holds⟩
  · intro e s' thrown
    rcases thrown with ⟨inside, refused⟩ | ⟨outside, error, same⟩
    · rw [if_pos inside]
      exact refused.thrown
    · rw [if_neg (Nat.not_le.mpr outside)]
      exact ⟨same, .inl ⟨rfl, what, error⟩⟩

theorem call_spec (represents : Represents T limit s lists) (call : Call α) : Ensures (call.run T traits grants) s
      (fun _ s' => ∃ lists', call.apply lists = some lists' ∧ Represents T limit s' lists')
      fun e s' => Thrown s (call.apply lists).isSome e s' := by
  have sized : limit < 2 ^ 64 := Nat.lt_of_le_of_lt small (by decide)
  have kept : ∀ {self : Nat} {v : Vector α Alloc} {s' : Vectors α Alloc}, Becomes s self v s' →
      Holds T limit v (lists self) → Represents T limit s' lists := by
    intro self v s' becomes holds
    have same := represents.becomes becomes holds
    rwa [update_eq_self] at same
  cases call with
  | pushBack self argument x =>
    apply (pushBack_spec small bounded (represents self) argument x).mono
    · intro _ s' ⟨v, becomes, holds⟩
      rw [argument_value] at holds
      exact ⟨_, rfl, represents.becomes becomes holds⟩
    · intro e s' refused
      exact refused.thrown
  | pushAt self index argument x => exact inserted_spec small bounded represents _ index argument x
  | emplaceAt self index x => exact inserted_spec small bounded represents _ index .emplaced x
  | popBack self =>
    simp only [Call.apply]
    apply (popBack_spec (represents self)).mono
    · intro _ s' ⟨present, v, becomes, holds⟩
      rw [if_neg present]
      exact ⟨_, rfl, represents.becomes becomes holds⟩
    · intro e s' ⟨empty, error, same⟩
      rw [if_pos empty]
      exact ⟨same, .inl ⟨rfl, _, error⟩⟩
  | erase self index =>
    simp only [Call.apply]
    apply (erase_spec (represents self)).mono
    · intro _ s' ⟨inside, v, becomes, holds⟩
      rw [if_pos inside]
      exact ⟨_, rfl, represents.becomes becomes holds⟩
    · intro e s' ⟨outside, error, same⟩
      rw [if_neg (Nat.not_lt.mpr outside)]
      exact ⟨same, .inl ⟨rfl, _, error⟩⟩
  | clear self =>
    apply (clear_spec (represents self)).weaken
    intro _ s' ⟨v, becomes, holds⟩
    exact ⟨_, rfl, represents.becomes becomes holds⟩
  | reserve self newCapacity =>
    apply (reserve_spec sized bounded (represents self)).mono
    · intro _ s' ⟨v, becomes, holds, _⟩
      exact ⟨lists, rfl, kept becomes holds⟩
    · intro e s' refused
      exact refused.thrown
  | shrinkToFit self =>
    apply (shrinkToFit_spec sized bounded (represents self)).mono
    · intro _ s' ⟨v, becomes, holds⟩
      exact ⟨lists, rfl, kept becomes holds⟩
    · intro e s' refused
      exact refused.thrown
  | moveConstruct self other apart =>
    apply (takeOver_spec apart (represents self) (represents other)).weaken
    intro _ s' moved
    exact ⟨_, rfl, represents.moved apart moved⟩
  | moveAssign self other =>
    simp only [Call.apply]
    by_cases apart : self = other
    · rw [if_pos apart, Call.run, Vector.moveAssign, if_neg (not_not.mpr apart)]
      exact ⟨lists, rfl, represents⟩
    rw [if_neg apart]
    apply (moveAssign_spec sized bounded apart (represents self) (represents other)).mono
    · intro _ s' moved
      exact ⟨_, rfl, represents.moved apart moved⟩
    · intro e s' refused
      exact refused.thrown

omit small bounded

def completed (T : ObjectType α) (traits : AllocatorTraits Alloc) (grants : Nat → Nat → Bool) :
    List (Call α) → Vectors α Alloc → List (Call α)
  | [], _ => []
  | call :: rest, s =>
    match call.run T traits grants s with
    | (.ok _, s') => call :: completed T traits grants rest s'
    | (.error _, s') => completed T traits grants rest s'

def applyAll (calls : List (Call α)) (lists : Nat → List α) : Option (Nat → List α) :=
  calls.foldlM Call.apply lists

include small bounded

theorem run_spec (calls : List (Call α)) (s : Vectors α Alloc) (lists : Nat → List α) (represents : Represents T limit s lists) :
    ∃ lists', applyAll (completed T traits grants calls s) lists = some lists' ∧
      Represents T limit (attempt (Call.run T traits grants) calls s) lists' := by
  induction calls generalizing s lists with
  | nil => exact ⟨lists, rfl, represents⟩
  | cons call rest ih =>
    have step : Ensures (call.run T traits grants) s _ _ := call_spec small bounded represents call
    unfold completed attempt
    rw [List.foldl_cons]
    rcases result : call.run T traits grants s with ⟨answer, s'⟩
    cases answer with
    | ok u =>
      obtain ⟨lists₁, applied, represents₁⟩ := step.ok result
      obtain ⟨lists', applied', represents'⟩ := ih s' lists₁ represents₁
      refine ⟨lists', ?_, represents'⟩
      rw [applyAll, List.foldlM_cons, applied]
      exact applied'
    | error e =>
      obtain ⟨same, -⟩ := step.error result
      apply ih s' lists
      intro i
      rw [same]
      exact represents i

end

section

variable {grants : Nat → Nat → Bool}

def start (allocators : Nat → Alloc) : Vectors α Alloc := { vectors := fun i => { alloc := allocators i } }

end

end NginBase.Containers.Vector
