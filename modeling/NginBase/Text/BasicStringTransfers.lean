import NginBase.Text.BasicStringRanges

namespace NginBase.Text.BasicString

open Library Library.Command Function List

variable {C Alloc : Type} {L : StringLayout C} {traits : StringAllocatorTraits} {grants : Grants C} {s : Strings C Alloc}
  {v w o : BasicString C Alloc} {units others : List C} {capacity self other : Nat} {lists : Nat → List C}

theorem Framed.of_fields {buffer : List C} (framed : Framed L w buffer capacity) (storage : v.storage = w.storage)
    (flags : v.sizeAndFlags = w.sizeAndFlags) : Framed L v buffer capacity := by
  have tag : v.isSmall = w.isSmall := by rw [isSmall, isSmall, flags]
  cases framed with
  | small storage' tag' length same => exact .small (storage.trans storage') (tag.trans tag') length same
  | heap storage' tag' length large bounded => exact .heap (storage.trans storage') (tag.trans tag') length large bounded

theorem Holds.of_fields (holds : Holds L w units) (storage : v.storage = w.storage)
    (flags : v.sizeAndFlags = w.sizeAndFlags) : Holds L v units := by
  obtain ⟨capacity, rest, framed, size⟩ := holds
  refine ⟨capacity, rest, framed.of_fields storage flags, ?_⟩
  rw [BasicString.rawSize, flags]
  exact size

theorem Holds.cases (holds : Holds L v units) :
    (∃ rest, v.isSmall = true ∧ v.storage = .small (units ++ L.zero :: rest) ∧ units.length + rest.length = L.sboChars) ∨
      ∃ rest capacity, v.isSmall = false ∧ v.storage = .heap (units ++ L.zero :: rest) capacity ∧
        units.length + rest.length = capacity ∧ L.sboChars < capacity ∧ capacity ≤ L.maxCapacity := by
  obtain ⟨capacity, rest, framed, -⟩ := holds
  have length := framed.length
  simp only [length_append, length_cons] at length
  cases framed with
  | small storage tag _ same => exact .inl ⟨rest, tag, storage, by omega⟩
  | heap storage tag _ large bounded => exact .inr ⟨rest, capacity, tag, storage, by omega, large, bounded⟩

theorem swapValueState_spec (holds : Holds L v units) (holds' : Holds L w others) :
    ∃ v' w', swapValueState v w = some (v', w') ∧ Holds L v' others ∧ Holds L w' units := by
  unfold swapValueState
  have size := holds.rawSize
  have size' := holds'.rawSize
  rcases holds.cases with ⟨rest, tag, storage, length⟩ | ⟨rest, capacity, tag, storage, length, large, bounded⟩
  · rcases holds'.cases with ⟨rest', tag', storage', length'⟩ | ⟨rest', capacity', tag', storage', length', large', bounded'⟩
    · rw [tag, tag']
      exact ⟨_, _, rfl, holds'.of_fields rfl rfl, holds.of_fields rfl rfl⟩
    · refine ⟨{ v with sizeAndFlags := w.rawSize ||| heapFlag, storage := .heap (others ++ L.zero :: rest') capacity' },
        { w with sizeAndFlags := v.rawSize, storage := .small (units ++ L.zero :: rest) }, ?_, ?_, ?_⟩
      · simp [tag, tag', smallData, heapData, heapCapacity, storage, storage']
      · exact ⟨_, holdsIn_heap length' large' bounded' rfl (by rw [size'])⟩
      · exact ⟨_, holdsIn_small length rfl size⟩
  · rcases holds'.cases with ⟨rest', tag', storage', length'⟩ | ⟨rest', capacity', tag', storage', length', large', bounded'⟩
    · refine ⟨{ v with sizeAndFlags := w.rawSize, storage := .small (others ++ L.zero :: rest') },
        { w with sizeAndFlags := v.rawSize ||| heapFlag, storage := .heap (units ++ L.zero :: rest) capacity }, ?_, ?_, ?_⟩
      · simp [tag, tag', smallData, heapData, heapCapacity, storage, storage']
      · exact ⟨_, holdsIn_small length' rfl size'⟩
      · exact ⟨_, holdsIn_heap length large bounded rfl (by rw [size])⟩
    · rw [tag, tag']
      exact ⟨_, _, rfl, holds'.of_fields rfl rfl, holds.of_fields rfl rfl⟩

section

variable (empty : HoldsIn L v [] L.sboChars)

include empty

theorem copySmall_spec (fits : units.length ≤ L.sboChars) :
    ∃ v₁ v₂, v.writeData 0 (units ++ [L.zero]) = some v₁ ∧ v₁.setSmallSize L units.length = some v₂ ∧ Holds L v₂ units := by
  obtain ⟨rest, framed, -⟩ := empty
  have length := framed.length
  simp only [nil_append, length_cons] at length
  obtain ⟨after, written, total⟩ : ∃ after, Block.write ([] ++ L.zero :: rest) 0 (units ++ [L.zero]) =
      some ([] ++ (units ++ [L.zero]) ++ after) ∧ (units ++ [L.zero]).length + after.length = (L.zero :: rest).length :=
    Block.write_next (by simp only [length_append, length_cons, length_nil]; omega)
  obtain ⟨v₁, run₁, framed₁, -⟩ := framed.writeData written
  have framed₁ : Framed L v₁ (units ++ L.zero :: after) L.sboChars := by simpa using framed₁
  simp only [length_append, length_cons, length_nil] at total
  cases framed₁ with
  | small storage tag _ _ =>
    exact ⟨v₁, _, run₁, setSmallSize_eq storage, _, holdsIn_small (by omega) rfl rfl⟩
  | heap storage tag _ large _ => exact absurd large (Nat.lt_irrefl _)

theorem copyConstructed_spec (holds : Holds L o units) : Yields L grants 0 (copyConstructed L grants v o) s units := by
  have size := holds.rawSize
  unfold Yields copyConstructed
  rw [size]
  rcases holds.cases with ⟨rest, tag, storage, length⟩ | ⟨rest, capacity, tag, storage, length, large, bounded⟩
  · have small : o.smallData = some (units ++ L.zero :: rest) := by rw [smallData, storage]
    obtain ⟨v₁, v₂, run₁, run₂, holds₂⟩ := copySmall_spec empty (show units.length ≤ _ by omega)
    rw [if_pos tag]
    simp only [ensures_bind, ensures_defined small, ensures_defined (read_terminated rest), ensures_defined run₁,
      ensures_defined run₂]
    exact ⟨True.intro, holds₂⟩
  · have heap : o.heapData = some (units ++ L.zero :: rest) := by rw [heapData, storage]
    have room : o.heapCapacity = some capacity := by rw [heapCapacity, storage]
    rw [if_neg (by simp [tag])]
    simp only [ensures_bind, ensures_defined room]
    apply (allocateWith_spec capacity).mono
    · rintro fresh s₁ ⟨same, length', _⟩
      obtain ⟨after, filled, total⟩ : ∃ after, Block.write ([] ++ fresh) 0 (units ++ [L.zero]) =
          some ([] ++ (units ++ [L.zero]) ++ after) ∧ _ := Block.write_next (by simp; omega)
      rw [nil_append, nil_append] at filled
      obtain ⟨v', committed, holds'⟩ : ∃ v', v.commitHeap L (units ++ [L.zero] ++ after) capacity units.length = some v' ∧
          HoldsIn L v' units capacity :=
        commitHeap_spec (append_assoc _ _ _) (by rw [length_append, total, length']) large bounded
      simp only [ensures_defined heap, ensures_defined (read_terminated rest), ensures_defined filled,
        ensures_defined committed]
      exact ⟨same, _, holds'⟩
    · intro e s' refused
      exact refused.of_bounded bounded

theorem moveConstructed_spec (holds : Holds L o units) :
    ∃ v' o', moveConstructed L v o = some (v', o') ∧ Holds L v' units ∧ Holds L o' [] := by
  have size := holds.rawSize
  obtain ⟨_, _, framed, -⟩ := id holds
  obtain ⟨o', left, holds'⟩ := framed.emptied
  unfold moveConstructed
  rw [size]
  rcases holds.cases with ⟨rest, tag, storage, length⟩ | ⟨rest, capacity, tag, storage, length, large, bounded⟩
  · have small : o.smallData = some (units ++ L.zero :: rest) := by rw [smallData, storage]
    obtain ⟨v₁, v₂, run₁, run₂, holds₂⟩ := copySmall_spec empty (show units.length ≤ _ by omega)
    refine ⟨v₂, o', ?_, holds₂, _, holds'⟩
    rw [if_pos tag, small]
    simp only [Option.bind_eq_bind, Option.bind_some, read_terminated, run₁, run₂, left]
    rfl
  · refine ⟨{ v with sizeAndFlags := units.length ||| heapFlag, storage := o.storage }, o', ?_, ?_, _, holds'⟩
    · rw [if_neg (by simp [tag]), left]
      rfl
    · exact ⟨_, holdsIn_heap length large bounded storage rfl⟩

end

theorem takeValue_spec (holds : Holds L v others) (taken : Holds L w units) (alloc : Alloc) :
    ∃ v', takeValue L v w alloc = some v' ∧ Holds L v' units := by
  obtain ⟨_, _, framed, -⟩ := holds
  obtain ⟨empty, emptied, holds'⟩ := framed.emptied
  have cleared : Holds L { empty with alloc } [] := Holds.of_fields ⟨_, holds'⟩ rfl rfl
  obtain ⟨v', w', swapped, holds₁, -⟩ := swapValueState_spec cleared taken
  refine ⟨v', ?_, holds₁⟩
  unfold takeValue
  rw [emptied]
  simp only [Option.bind_eq_bind, Option.bind_some, swapped]
  rfl

section

variable (represents : Represents L s lists)

include represents

theorem represents_two {s' : Strings C Alloc} {v w : BasicString C Alloc} {a b : List C}
    (same : s'.strings = Function.update (Function.update s.strings other w) self v) (holds : Holds L v a)
    (holds' : Holds L w b) : Represents L s' (Function.update (Function.update lists other b) self a) := by
  intro i
  rw [same]
  by_cases own : i = self
  · rw [own, update_self, update_self]
    exact holds
  rw [update_of_ne own, update_of_ne own]
  by_cases theirs : i = other
  · rw [theirs, update_self, update_self]
    exact holds'
  · rw [update_of_ne theirs, update_of_ne theirs]
    exact represents i

theorem copyConstruct_spec : Ensures (copyConstruct L grants self other) s (fun _ s' => Becomes L s self (lists other) s')
      (Refused L grants 0 s) := by
  obtain ⟨v, run, empty⟩ : ∃ v, constructed L (s.strings other).alloc = some v ∧ HoldsIn L v [] L.sboChars :=
    constructed_spec _
  unfold copyConstruct
  simp only [ensures_bind, ensures_current, ensures_defined run]
  apply (copyConstructed_spec empty (represents other)).mono
  · rintro v' s₁ ⟨same, holds⟩
    exact ⟨v', by dsimp only; rw [same], holds⟩
  · intro e s' refused
    exact refused

theorem moveConstruct_spec : Ensures (moveConstruct L self other) s
      (fun _ s' => Represents L s' (Function.update (Function.update lists other []) self (lists other))) fun _ _ => False := by
  obtain ⟨v, run, empty⟩ : ∃ v, constructed L (s.strings other).alloc = some v ∧ HoldsIn L v [] L.sboChars :=
    constructed_spec _
  obtain ⟨v', o', moved, holds, holds'⟩ := moveConstructed_spec empty (represents other)
  unfold moveConstruct
  simp only [ensures_bind, ensures_current, ensures_defined run, ensures_defined moved]
  exact represents_two represents rfl holds holds'

theorem view_units : (view other (s.strings other)).units lists = some (lists other) := by
  have size := (represents other).rawSize
  unfold view
  rw [size]
  simp [StringView.units]

end

/-- The allocator is passed on by an assignment that may throw, so the own units are given up first. -/
def Forfeits (traits : StringAllocatorTraits) (self other : Nat) : Prop :=
  self ≠ other ∧ traits.propagateOnCopyAssignment = true ∧ traits.nothrowCopyAssignable = false

instance : Decidable (Forfeits traits self other) := inferInstanceAs (Decidable (_ ∧ _ ∧ _))

section

variable (represents : Represents L s lists)

include represents

theorem copyAssign_spec : Ensures (copyAssign L traits grants self other) s
      (fun _ s' => Represents L s' (Function.update lists self (lists other)))
      (fun e s' => ¬Forfeits traits self other ∧ Refused L grants 0 s e s' ∨
        Forfeits traits self other ∧ (e = .badAlloc ∧ ∃ request bytes, grants request bytes = none) ∧
          Represents L s' (Function.update lists self [])) := by
  unfold copyAssign
  split
  · rename_i same
    rw [same, Function.update_eq_self]
    exact represents
  rename_i apart
  unfold copyAssignFrom
  simp only [ensures_bind, ensures_current]
  split
  · rename_i propagates
    split
    · rename_i nothrow
      obtain ⟨temp, run, empty⟩ : ∃ v, constructed L (s.strings other).alloc = some v ∧ HoldsIn L v [] L.sboChars :=
        constructed_spec _
      simp only [ensures_bind, ensures_defined run]
      apply (copyConstructed_spec empty (represents other)).mono
      · rintro temp' s₁ ⟨same, holds⟩
        obtain ⟨v', taken, holds'⟩ := takeValue_spec (represents self) holds (s.strings other).alloc
        rw [ensures_defined taken]
        exact Becomes.represents represents ⟨v', by dsimp only; rw [same], holds'⟩
      · intro e s' refused
        exact .inl ⟨by simp [Forfeits, nothrow], refused⟩
    · rename_i throwing
      obtain ⟨_, _, framed, -⟩ := represents self
      obtain ⟨empty, run, holds⟩ := framed.emptied
      have empty' : HoldsIn L { empty with alloc := (s.strings other).alloc } [] L.sboChars := by
        obtain ⟨rest, framed', size⟩ := holds
        exact ⟨rest, framed'.of_fields rfl rfl, size⟩
      simp only [ensures_bind, ensures_defined run]
      apply (copyConstructed_spec empty' (represents other)).mono
      · rintro v' s₁ ⟨same, holds'⟩
        refine Becomes.represents represents ⟨v', ?_, holds'⟩
        dsimp only at same ⊢
        rw [same]
        exact Function.update_idem _ _ _
      · intro e s' refused
        have memory := refused.1.resolve_right fun length => Nat.not_lt_zero _ length.2
        refine .inr ⟨⟨apart, propagates, by simpa using throwing⟩, memory, ?_⟩
        exact Becomes.represents represents ⟨_, refused.2, _, empty'⟩
  · rename_i stays
    apply (update_spec (assigned_spec represents (represents self) (view_units represents))).mono
    · intro _ s' becomes
      exact becomes.represents represents
    · intro e s' refused
      exact .inl ⟨by simp [Forfeits, stays], refused.of_bounded (represents other).length_le⟩

theorem moveAssign_spec (apart : self ≠ other) : Ensures (moveAssign L traits grants self other) s
      (fun _ s' => Represents L s' (Function.update (Function.update lists other []) self (lists other)))
      (Refused L grants 0 s) := by
  obtain ⟨_, _, framed, -⟩ := represents self
  obtain ⟨empty, emptied, holds⟩ := framed.emptied
  unfold moveAssign moveAssignFrom
  rw [if_neg apart]
  simp only [ensures_bind, ensures_current]
  split
  · split
    · obtain ⟨temp, run, empty⟩ : ∃ v, constructed L (s.strings other).alloc = some v ∧ HoldsIn L v [] L.sboChars :=
        constructed_spec _
      obtain ⟨temp', o', moved, holds₁, holds₂⟩ := moveConstructed_spec empty (represents other)
      obtain ⟨v', taken, holds₃⟩ := takeValue_spec (represents self) holds₁ temp'.alloc
      simp only [ensures_bind, ensures_defined run, ensures_defined moved, ensures_defined taken]
      exact represents_two represents rfl holds₃ holds₂
    · have empty' : HoldsIn L { empty with alloc := (s.strings other).alloc } [] L.sboChars := by
        obtain ⟨rest, framed', size⟩ := holds
        exact ⟨rest, framed'.of_fields rfl rfl, size⟩
      obtain ⟨v', o', moved, holds₁, holds₂⟩ := moveConstructed_spec empty' (represents other)
      simp only [ensures_bind, ensures_defined emptied, ensures_defined moved]
      exact represents_two represents rfl holds₁ holds₂
  split
  · obtain ⟨v', o', swapped, holds₁, holds₂⟩ := swapValueState_spec ⟨_, holds⟩ (represents other)
    simp only [ensures_bind, ensures_defined emptied, ensures_defined swapped]
    exact represents_two represents rfl holds₁ holds₂
  · rw [ensures_bind]
    apply (update_spec (assigned_spec represents (represents self) (view_units represents))).mono
    · intro _ s₁ becomes
      have represents₁ := becomes.represents represents
      unfold update
      simp only [ensures_bind]
      apply (cleared_spec (represents₁ other)).weaken
      rintro o' s₂ ⟨same, holds'⟩
      have represents' : Represents L { s₂ with strings := Function.update s₂.strings other o' } _ :=
        Becomes.represents represents₁ ⟨o', by dsimp only; rw [same], holds'⟩
      rw [update_comm apart] at represents'
      exact represents'
    · intro e s' refused
      exact refused.of_bounded (represents other).length_le

theorem swap_spec (apart : self ≠ other) : Ensures (swap L traits grants self other) s
      (fun _ s' => Represents L s' (Function.update (Function.update lists other (lists self)) self (lists other)))
      (Refused L grants 0 s) := by
  unfold swap swapDistinct
  rw [if_neg apart]
  simp only [ensures_bind, ensures_current]
  split
  · obtain ⟨v', o', swapped, holds₁, holds₂⟩ := swapValueState_spec (represents self) (represents other)
    simp only [ensures_bind, ensures_defined swapped]
    split
    · have first : Holds L { v' with alloc := (s.strings other).alloc } (lists other) := holds₁.of_fields rfl rfl
      have second : Holds L { o' with alloc := (s.strings self).alloc } (lists self) := holds₂.of_fields rfl rfl
      refine represents_two represents ?_ first second
      exact update_comm apart _ _ _
    · refine represents_two represents ?_ holds₁ holds₂
      exact update_comm apart _ _ _
  · simp only [ensures_bind]
    apply (constructedFrom_spec represents _ (view_units represents)).mono
    · rintro newThis s₁ ⟨same₁, holds₁⟩
      have own : (view self (s.strings self)).units lists = some (lists self) := view_units represents
      apply (constructedFrom_spec (represents.of_same same₁) _ own).mono
      · rintro newOther s₂ ⟨same₂, holds₂⟩
        obtain ⟨v', taken, holds₃⟩ := takeValue_spec (represents self) holds₁ (s.strings self).alloc
        obtain ⟨o', taken', holds₄⟩ := takeValue_spec (represents other) holds₂ (s.strings other).alloc
        simp only [ensures_defined taken, ensures_defined taken']
        refine represents_two represents ?_ holds₃ holds₄
        dsimp only
        rw [same₂, same₁]
        exact update_comm apart _ _ _
      · intro e s' refused
        exact (refused.of_same same₁).of_bounded (represents self).length_le
    · intro e s' refused
      exact refused.of_bounded (represents other).length_le

end

end NginBase.Text.BasicString
