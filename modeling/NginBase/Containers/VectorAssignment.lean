import NginBase.Containers.VectorLaws

namespace NginBase.Containers.Vector

open Library Library.Command Function List ObjectType

variable {α Alloc : Type} {T : ObjectType α} {limit : Nat} {items olds : List α}
  {s : Vectors α Alloc} {self other : Nat}

section

variable {grants : Nat → Nat → Bool}

theorem constructFrom_spec (small : limit < 2 ^ 64)
    (bounded : ∀ request bytes, limit < bytes → bytes < 2 ^ 64 → grants request bytes = false)
    (holds : Holds T limit (s.vectors other) items) : Ensures (constructFrom T grants other) s
      (fun data s' => data = items.map some ∧ ∃ o, Becomes s other o s' ∧
        Holds T limit o (items.map (T.leftBy (construction T false)))) (Refused s) := by
  obtain ⟨spare, data, free⟩ := holds.slots
  have size := holds.size
  have modest : (s.vectors other).size * T.bytes ≤ limit :=
    Nat.le_trans (Nat.mul_le_mul_right _ holds.size_le) holds.fits
  unfold constructFrom allocateStorage
  simp only [ensures_bind]
  apply ensures_allocate
  · intro granted
    obtain ⟨-, slots⟩ := allocated (T := T) bounded (Nat.lt_of_le_of_lt modest small) granted
    have moved := transfer_spec (T := T) (construction T false) items (replicate items.length none) spare
      (by simp) (spare_replicate _)
    rw [← size, ← data] at moved
    rw [slots]
    simp only [ensures_defined moved]
    refine ⟨?_, _, rfl, ⟨spare, rfl, free⟩, ?_, ?_, holds.fits⟩
    · simp
    · simpa using size
    · rw [holds.capacity, data]
      simp
  · exact ⟨.inl rfl, rfl⟩

theorem adopt_spec (holds : Holds T limit (s.vectors self) olds) (fits : items.length * T.bytes ≤ limit) :
    Ensures (adopt T self (items.map some) items.length) s
      (fun _ s' => ∃ v, Becomes s self v s' ∧ Holds T limit v items) fun _ _ => False := by
  unfold adopt
  rw [ensures_bind]
  apply (releaseStorage_spec holds).weaken
  intro _ s' becomes
  exact ⟨_, becomes.trans rfl, ⟨⟨[], by simp, spare_nil⟩, rfl, by simp, fits⟩⟩

end

theorem assignSlots (moves : Bool) {spare : Storage α} (spare' : Storage α) (free : T.Spare spare)
    (room : items.length ≤ olds.length + spare.length) :
    ∃ data left lefts, T.assignLoop moves (min olds.length items.length) 0 (olds.map some ++ spare)
          (items.map some ++ spare') = some (data, left) ∧
      T.transferLoop moves (items.length - min olds.length items.length) (min olds.length items.length) data left =
        some (items.map some ++ ((olds.drop items.length).map some ++ spare.drop (items.length - olds.length)),
          lefts.map some ++ spare') ∧
      lefts.length = items.length ∧ (moves = false → lefts = items) := by
  by_cases shrinks : items.length < olds.length
  · have shared : min olds.length items.length = items.length := by omega
    obtain ⟨lefts, assigned, length, kept⟩ := assignLoop_spec (T := T) moves items (olds.take items.length) [] []
      ((olds.drop items.length).map some ++ spare) spare' rfl (by simp; omega)
    rw [nil_append, nil_append, nil_append, nil_append, ← append_assoc, ← map_append,
      take_append_drop] at assigned
    rw [shared]
    refine ⟨_, _, lefts, assigned, ?_, length, kept⟩
    rw [Nat.sub_self, Nat.sub_eq_zero_of_le (Nat.le_of_lt shrinks)]
    rfl
  · have shared : min olds.length items.length = olds.length := by omega
    have front : (items.take olds.length).length = olds.length := by simp; omega
    have split : items.map some = (items.take olds.length).map some ++ (items.drop olds.length).map some := by
      rw [← map_append, take_append_drop]
    obtain ⟨lefts, assigned, length, kept⟩ := assignLoop_spec (T := T) moves (items.take olds.length) olds [] []
      spare ((items.drop olds.length).map some ++ spare') rfl front.symm
    have constructed := transferLoop_spec (T := T) moves (items.drop olds.length)
      ((items.take olds.length).map some) (lefts.map some) spare spare' (by simp [length]) (by simp; omega) free
    rw [nil_append, nil_append, nil_append, nil_append, ← append_assoc, ← split, front,
      length_nil] at assigned
    rw [length_map, front, length_drop] at constructed
    rw [shared]
    refine ⟨_, _, lefts ++ (items.drop olds.length).map (fun x => if moves then (T.move x).2 else x), assigned, ?_, ?_, ?_⟩
    · rw [constructed, split, List.drop_of_length_le (Nat.not_lt.mp shrinks), List.append_assoc]
      simp [comp_def]
    · rw [length_append, length_map, length_drop]
      omega
    · intro copies
      rw [kept copies, copies]
      simp

theorem trimSlots {spare : Storage α} (free : T.Spare spare) (shrinks : items.length < olds.length) :
    ∃ rest, T.destroyRange (items.map some ++ ((olds.drop items.length).map some ++ spare.drop (items.length - olds.length)))
        items.length (olds.length - items.length) = some (items.map some ++ rest) ∧
      T.Spare rest ∧ items.length + rest.length = olds.length + spare.length := by
  obtain ⟨cleared, run, length, free'⟩ := destroyRange_spec (T := T) (olds.drop items.length)
    (items.map some) spare
  rw [length_map, length_drop] at run
  rw [length_drop] at length
  refine ⟨cleared ++ spare, ?_, Spare.append_iff.mpr ⟨free', free⟩, ?_⟩
  · rw [Nat.sub_eq_zero_of_le (Nat.le_of_lt shrinks)]
    exact run
  · rw [length_append]
    omega

theorem assignInPlace_spec (moves : Bool) (apart : self ≠ other) (holds : Holds T limit (s.vectors self) olds)
    (holds' : Holds T limit (s.vectors other) items) (room : items.length ≤ (s.vectors self).capacity) :
    Ensures (assignInPlace T moves self other) s (fun _ s' => Holds T limit (s'.vectors self) items ∧
        (∃ lefts, Holds T limit (s'.vectors other) lefts ∧ (moves = false → lefts = items)) ∧
        ∀ i, i ≠ self → i ≠ other → s'.vectors i = s.vectors i) fun _ _ => False := by
  obtain ⟨spare, data, free⟩ := holds.slots
  obtain ⟨spare', data', free'⟩ := holds'.slots
  have size := holds.size
  have size' := holds'.size
  have capacity := holds.capacity
  have capacity' := holds'.capacity
  rw [data, length_append, length_map] at capacity
  rw [data', length_append, length_map] at capacity'
  obtain ⟨first, left, lefts, assigned, constructed, length, kept⟩ :=
    assignSlots (T := T) moves spare' free (by omega : items.length ≤ olds.length + spare.length)
  rw [← data, ← data', ← size, ← size'] at assigned
  rw [← size, ← size'] at constructed
  have stored : ∀ rest, T.Spare rest → items.length + rest.length = olds.length + spare.length →
      ∀ s' : Vectors α Alloc,
        s'.vectors = update (update s.vectors other
          { s.vectors other with data := lefts.map some ++ spare' }) self
          { s.vectors self with data := items.map some ++ rest, size := (s.vectors other).size } →
        Holds T limit (s'.vectors self) items ∧
        (∃ lefts, Holds T limit (s'.vectors other) lefts ∧ (moves = false → lefts = items)) ∧
        ∀ i, i ≠ self → i ≠ other → s'.vectors i = s.vectors i := by
    intro rest clear total s' same
    refine ⟨?_, ⟨lefts, ?_, kept⟩, ?_⟩
    · rw [same, update_self]
      refine ⟨⟨rest, rfl, clear⟩, size', ?_, holds.fits⟩
      rw [capacity, length_append, length_map]
      omega
    · rw [same, update_of_ne apart.symm, update_self]
      refine ⟨⟨spare', rfl, free'⟩, by rw [length]; exact size', ?_, holds'.fits⟩
      rw [capacity', length_append, length_map, length]
    · intro i first second
      rw [same, update_of_ne first, update_of_ne second]
  unfold assignInPlace
  simp only [ensures_bind, ensures_current, ensures_defined assigned, ensures_defined constructed]
  by_cases shrinks : (s.vectors other).size < (s.vectors self).size
  · obtain ⟨rest, trimmed, clear, total⟩ := trimSlots (T := T) free (by omega : items.length < olds.length)
    rw [← size, ← size'] at trimmed
    rw [if_pos shrinks, ensures_bind, ensures_defined trimmed]
    exact stored rest clear total _ rfl
  · have none : (olds.drop (s.vectors other).size).map some = [] := by
      rw [drop_of_length_le (by omega)]
      rfl
    rw [if_neg shrinks]
    apply stored ((olds.drop (s.vectors other).size).map some ++
      spare.drop ((s.vectors other).size - (s.vectors self).size)) _ _ _ rfl
    · rw [none]
      exact free.imp_right fun all slot mem => all slot (mem_of_mem_drop mem)
    · rw [none, nil_append, length_drop]
      omega

section

variable {traits : AllocatorTraits Alloc} {grants : Nat → Nat → Bool}

def elements (v : Vector α Alloc) : Storage α := v.data.take v.size

def Valid (T : ObjectType α) (v : Vector α Alloc) : Prop := ∃ items, Holds T (2 ^ 64 - 1) v items

/-- The target holds the elements of the source, and the source the same ones as before. -/
def Copied (s s' : Vectors α Alloc) (self other : Nat) : Prop :=
  (s'.vectors self).size = (s.vectors other).size ∧ elements (s'.vectors self) = elements (s.vectors other) ∧
  (s'.vectors self).size ≤ (s'.vectors self).capacity ∧
  (s'.vectors other).size = (s.vectors other).size ∧ elements (s'.vectors other) = elements (s.vectors other)

def InPlace (traits : AllocatorTraits Alloc) (s : Vectors α Alloc) (self other : Nat) : Prop :=
  traits.propagateOnCopyAssignment = false ∧ (s.vectors other).size ≤ (s.vectors self).capacity

def ConstructsByCopy (T : ObjectType α) : Prop := T.bitwise = true ∨ T.nothrowMove = false ∧ T.copyConstructible = true

theorem Holds.elements_eq {v : Vector α Alloc} (holds : Holds T limit v items) : elements v = items.map some := by
  obtain ⟨spare, data, -⟩ := holds.slots
  rw [elements, data, holds.size, ← length_map (f := some), take_left]

theorem construction_moves_iff : construction T false = .moves ↔ ¬ ConstructsByCopy T := by
  unfold construction ConstructsByCopy
  cases T.bitwise <;> cases T.nothrowMove <;> cases T.copyConstructible <;> simp

theorem unbounded (request bytes : Nat) (large : 2 ^ 64 - 1 < bytes) (small : bytes < 2 ^ 64) :
    grants request bytes = false := by
  omega

theorem assignFromCopy_spec (apart : self ≠ other) (holds : Holds T (2 ^ 64 - 1) (s.vectors self) olds)
    (holds' : Holds T (2 ^ 64 - 1) (s.vectors other) items) : Ensures (assignFromCopy T traits grants self other) s
      (fun _ s' => Holds T (2 ^ 64 - 1) (s'.vectors self) items ∧
        ((InPlace traits s self other ∧ Holds T (2 ^ 64 - 1) (s'.vectors other) items) ∨
          ¬ InPlace traits s self other ∧
            Holds T (2 ^ 64 - 1) (s'.vectors other) (items.map (T.leftBy (construction T false))))) fun _ _ => True := by
  have size := holds'.size
  have fits : items.length * T.bytes ≤ 2 ^ 64 - 1 := by
    rw [← size]
    exact Nat.le_trans (Nat.mul_le_mul_right _ holds'.size_le) holds'.fits
  unfold assignFromCopy
  simp only [ensures_bind, ensures_current]
  by_cases propagates : traits.propagateOnCopyAssignment = true
  · have elsewhere : ¬ InPlace traits s self other := by
      intro inPlace
      rw [inPlace.1] at propagates
      cases propagates
    rw [if_pos propagates, ensures_bind]
    apply (releaseStorage_spec holds).weaken
    intro _ s₁ becomes₁
    have source := becomes₁.other apart.symm
    simp only [ensures_bind, ensures_current, ensures_store]
    rw [becomes₁.get]
    by_cases empty : (s.vectors other).size = 0
    · obtain rfl : items = [] := eq_nil_of_length_eq_zero (size.symm.trans empty)
      rw [if_pos empty]
      refine ⟨?_, .inr ⟨elsewhere, ?_⟩⟩
      · dsimp only
        rw [update_self]
        exact Holds.empty _
      · dsimp only
        rw [update_of_ne apart.symm, source]
        exact holds'
    · rw [if_neg empty, ensures_bind]
      have source₂ : Holds T (2 ^ 64 - 1)
          (update s₁.vectors self ({ alloc := (s.vectors other).alloc } : Vector α Alloc) other) items := by
        rw [update_of_ne apart.symm, source]
        exact holds'
      apply (constructFrom_spec (s := ⟨update s₁.vectors self _, s₁.requests⟩) (by decide) unbounded source₂).mono
      · rintro data s₃ ⟨filled, o, becomes₃, left⟩
        simp only [ensures_bind, ensures_store]
        refine ⟨?_, .inr ⟨elsewhere, ?_⟩⟩
        · rw [update_self, filled]
          exact ⟨⟨[], by simp, spare_nil⟩, size, by simp [size], by rw [size]; exact fits⟩
        · rw [update_of_ne apart.symm, becomes₃.get]
          exact left
      · intro _ _ _
        trivial
  · rw [if_neg propagates]
    rw [Bool.not_eq_true] at propagates
    by_cases grows : (s.vectors self).capacity < (s.vectors other).size
    · have elsewhere : ¬ InPlace traits s self other := fun inPlace => Nat.not_le.mpr grows inPlace.2
      rw [if_pos grows, ensures_bind]
      apply (constructFrom_spec (by decide) unbounded holds').mono
      · rintro data s₁ ⟨filled, o, becomes₁, left⟩
        have target : Holds T (2 ^ 64 - 1) (s₁.vectors self) olds := by
          rw [becomes₁.other apart]
          exact holds
        rw [filled, size]
        apply (adopt_spec target fits).weaken
        rintro _ s₂ ⟨v, becomes₂, holds₂⟩
        refine ⟨?_, .inr ⟨elsewhere, ?_⟩⟩
        · rw [becomes₂.get]
          exact holds₂
        · rw [becomes₂.other apart.symm, becomes₁.get]
          exact left
      · intro _ _ _
        trivial
    · rw [if_neg grows]
      apply (assignInPlace_spec false apart holds holds' (by omega)).weaken
      rintro _ s' ⟨target, ⟨lefts, source, kept⟩, _⟩
      rw [kept rfl] at source
      exact ⟨target, .inl ⟨⟨propagates, Nat.not_lt.mp grows⟩, source⟩⟩

theorem leftBy_eq_iff (items : List α) :
    items.map (T.leftBy (construction T false)) = items ↔ ConstructsByCopy T ∨ ∀ x ∈ items, (T.move x).2 = x := by
  unfold leftBy
  by_cases copies : ConstructsByCopy T
  · have never : construction T false ≠ .moves := fun moves => construction_moves_iff.mp moves copies
    simp [never, copies]
  have every : items.map (fun x => (T.move x).2) = items ↔ ∀ x ∈ items, (T.move x).2 = x := by
    conv_lhs => rhs; rw [← map_id items]
    exact map_inj_left
  simpa [construction_moves_iff.mpr copies, copies] using every

/-- A copy assignment that ends leaves its source alone exactly if it assigns in place, or the elements are not
    moved by the construction of new ones, or moving changes none of them. -/
theorem copyAssign_copies_iff (self other : Nat) (s s' : Vectors α Alloc) (target : Valid T (s.vectors self))
    (source : Valid T (s.vectors other)) (ends : copyAssign T traits grants self other s = (.ok (), s')) :
    Copied s s' self other ↔
      self = other ∨ InPlace traits s self other ∨ ConstructsByCopy T ∨
        ∀ x, some x ∈ elements (s.vectors other) → (T.move x).2 = x := by
  obtain ⟨olds, holds⟩ := target
  obtain ⟨items, holds'⟩ := source
  by_cases apart : self = other
  · subst apart
    rw [copyAssign, if_neg (not_not.mpr rfl)] at ends
    cases ends
    exact iff_of_true ⟨rfl, rfl, holds.size_le, rfl, rfl⟩ (.inl rfl)
  · rw [copyAssign, if_pos apart] at ends
    obtain ⟨made, left⟩ := (assignFromCopy_spec apart holds holds').ok ends
    have moved : (∀ x, some x ∈ elements (s.vectors other) → (T.move x).2 = x) ↔ ∀ x ∈ items, (T.move x).2 = x := by
      rw [holds'.elements_eq]
      simp
    rcases left with ⟨inPlace, kept⟩ | ⟨elsewhere, kept⟩
    · refine iff_of_true ⟨?_, ?_, made.size_le, ?_, ?_⟩ (.inr (.inl inPlace))
      · rw [made.size, holds'.size]
      · rw [made.elements_eq, holds'.elements_eq]
      · rw [kept.size, holds'.size]
      · rw [kept.elements_eq, holds'.elements_eq]
    · have copied : Copied s s' self other ↔ items.map (T.leftBy (construction T false)) = items := by
        unfold Copied
        rw [made.size, made.elements_eq, kept.size, kept.elements_eq, holds'.size, holds'.elements_eq]
        have room : items.length ≤ (s'.vectors self).capacity := by
          rw [← made.size]
          exact made.size_le
        simp only [true_and, room, length_map]
        exact map_inj_right fun x y => Option.some.inj
      rw [copied, leftBy_eq_iff, moved]
      simp [apart, elsewhere]

def texts : ObjectType (List Nat) where
  bytes := 32
  bitwise := false
  trivialDestructor := false
  nothrowMove := true
  copyConstructible := true
  copy x := x
  move x := (x, [])
  copyAssign _ x := x
  moveAssign _ x := (x, [])
  bytes_pos := by decide
  trivial_of_bitwise := by decide
  copy_eq _ := rfl
  move_eq _ := rfl
  copyAssign_eq _ _ := rfl
  moveAssign_eq _ _ := rfl

def single (text : List Nat) : Vector (List Nat) Unit := { alloc := (), data := [some text], size := 1, capacity := 1 }

theorem single_valid (text : List Nat) : Valid texts (single text) :=
  ⟨[text], ⟨[], rfl, spare_nil⟩, rfl, rfl, (by decide : 1 * 32 ≤ 2 ^ 64 - 1)⟩

theorem copyAssign_copies_single :
    let s : Vectors (List Nat) Unit := { vectors := fun i => if i = 0 then single [1] else single [7, 8] }
    ∃ s', copyAssign texts {} (fun _ _ => true) 0 1 s = (.ok (), s') ∧ Copied s s' 0 1 := by
  intro s
  have inPlace : InPlace ({} : AllocatorTraits Unit) s 0 1 := ⟨rfl, Nat.le_refl 1⟩
  have ends : copyAssign texts {} (fun _ _ => true) 0 1 s = (.ok (), (copyAssign texts {} (fun _ _ => true) 0 1 s).2) := rfl
  exact ⟨_, ends, (copyAssign_copies_iff 0 1 s _ (single_valid [1]) (single_valid [7, 8]) ends).mpr (.inr (.inl inPlace))⟩

theorem copyAssign_moves_source :
    let s : Vectors (List Nat) Unit := { vectors := fun i => if i = 0 then { alloc := () } else single [7, 8] }
    Valid texts (s.vectors 0) ∧ Valid texts (s.vectors 1) ∧
    ∃ s', copyAssign texts {} (fun _ _ => true) 0 1 s = (.ok (), s') ∧
      elements (s.vectors 1) = [some [7, 8]] ∧ elements (s'.vectors 1) = [some []] ∧ ¬ Copied s s' 0 1 := by
  intro s
  have left : elements ((copyAssign texts {} (fun _ _ => true) 0 1 s).2.vectors 1) = [some []] := by decide +kernel
  have ends : (copyAssign texts {} (fun _ _ => true) 0 1 s).1 = .ok () := by decide +kernel
  refine ⟨⟨[], Holds.empty ()⟩, single_valid [7, 8], _, Prod.ext ends rfl, rfl, left, ?_⟩
  intro copied
  have same := left.symm.trans copied.2.2.2.2
  exact absurd same (by decide)

end

end NginBase.Containers.Vector
