import NginBase.Containers.Vector

namespace NginBase.Containers.Vector

open Library Library.Command Function List ObjectType

variable {α Alloc : Type} (T : ObjectType α) (limit : Nat)

/-- The vector holds the elements in its first slots and nothing in the others; its storage has at most `limit`
    bytes. -/
structure Holds (v : Vector α Alloc) (items : List α) : Prop where
  slots : ∃ spare, v.data = items.map some ++ spare ∧ T.Spare spare
  size : v.size = items.length
  capacity : v.capacity = v.data.length
  fits : v.capacity * T.bytes ≤ limit

variable {T limit} {v : Vector α Alloc} {items : List α}

theorem Holds.size_le (holds : Holds T limit v items) : v.size ≤ v.capacity := by
  obtain ⟨spare, data, -⟩ := holds.slots
  rw [holds.capacity, holds.size, data, length_append, length_map]
  exact Nat.le_add_right _ _

theorem Holds.empty (alloc : Alloc) : Holds T limit ({ alloc } : Vector α Alloc) [] where
  slots := ⟨[], rfl, spare_nil⟩
  size := rfl
  capacity := rfl
  fits := by simp

theorem Holds.destroyed (holds : Holds T limit v items) :
    ∃ data, destroyElements T v = some data ∧ Holds T limit { v with data, size := 0 } [] := by
  obtain ⟨spare, data, free⟩ := holds.slots
  obtain ⟨cleared, run, length, free'⟩ := destroyRange_spec (T := T) items [] spare
  refine ⟨cleared ++ spare, ?_, ⟨cleared ++ spare, rfl, Spare.append_iff.mpr ⟨free', free⟩⟩, rfl, ?_, holds.fits⟩
  · rw [destroyElements, data, holds.size]
    exact run
  · rw [holds.capacity, data, length_append, length_append, length_map, length]

section

variable {β : Type} {grants : Nat → Nat → Bool} {s : Vectors α Alloc} {failed : VectorException → Vectors α Alloc → Prop}

@[simp] theorem ensures_current {post : Vector α Alloc → Vectors α Alloc → Prop} (self : Nat) :
    Ensures (current self) s post failed ↔ post (s.vectors self) s := by
  unfold current
  simp

@[simp] theorem ensures_store {post : Unit → Vectors α Alloc → Prop} (self : Nat) (v : Vector α Alloc) :
    Ensures (store self v) s post failed ↔ post () { s with vectors := update s.vectors self v } := Iff.rfl

theorem ensures_defined {post : β → Vectors α Alloc → Prop} {result : Option β} {x : β} (is : result = some x) :
    Ensures (defined result) s post failed ↔ post x s := by
  rw [is]
  exact ensures_pure x

theorem ensures_allocate {post : Storage α → Vectors α Alloc → Prop} (bytes : Nat) (good : grants s.requests bytes = true →
      post (replicate (bytes / T.bytes) none) { s with requests := s.requests + 1 })
    (bad : failed .badAlloc { s with requests := s.requests + 1 }) :
    Ensures (allocate T grants bytes) s post failed := by
  unfold allocate
  simp only [ensures_bind, ensures_get]
  by_cases granted : grants s.requests bytes = true
  · rw [if_pos granted]
    exact good granted
  · rw [if_neg granted]
    exact bad

end

section

def Becomes (s : Vectors α Alloc) (self : Nat) (v : Vector α Alloc) (s' : Vectors α Alloc) : Prop :=
  s'.vectors = update s.vectors self v

def Refused (s : Vectors α Alloc) (e : VectorException) (s' : Vectors α Alloc) : Prop :=
  (e = .badAlloc ∨ ∃ what, e = .lengthError what) ∧ s'.vectors = s.vectors

theorem Becomes.get {s s' : Vectors α Alloc} {self : Nat} (becomes : Becomes s self v s') : s'.vectors self = v := by
  rw [becomes]
  exact update_self _ _ _

theorem Becomes.other {s s' : Vectors α Alloc} {self other : Nat} (becomes : Becomes s self v s') (apart : other ≠ self) :
    s'.vectors other = s.vectors other := by
  rw [becomes]
  exact update_of_ne apart _ _

theorem Becomes.trans {s s' s'' : Vectors α Alloc} {self : Nat} {v' : Vector α Alloc} (first : Becomes s self v s')
    (second : Becomes s' self v' s'') : Becomes s self v' s'' := by
  rw [Becomes, second, first]
  exact update_idem _ _ _

variable {grants : Nat → Nat → Bool} (small : limit < 2 ^ 64)
  (bounded : ∀ request bytes, limit < bytes → bytes < 2 ^ 64 → grants request bytes = false)
  {s : Vectors α Alloc} {self : Nat}

theorem releaseStorage_spec (holds : Holds T limit (s.vectors self) items) : Ensures (releaseStorage T self) s
      (fun _ s' => Becomes s self { s.vectors self with data := [], size := 0, capacity := 0 } s') fun _ _ => False := by
  obtain ⟨data, run, -⟩ := holds.destroyed
  unfold releaseStorage
  simp only [ensures_bind, ensures_current, ensures_defined run]
  rfl

theorem relocate_spec {n : Nat} (holds : Holds T limit (s.vectors self) items) (room : items.length ≤ n)
    (fits : n * T.bytes ≤ limit) : Ensures (relocate T self n (replicate n none)) s
      (fun _ s' => ∃ v, Becomes s self v s' ∧ Holds T limit v items ∧ v.capacity = n) fun _ _ => False := by
  obtain ⟨spare, data, -⟩ := holds.slots
  have moved := transfer_spec (T := T) (relocation T) items (replicate n none) spare (by simpa using room)
    (spare_replicate n)
  rw [← holds.size, ← data] at moved
  obtain ⟨cleared, destroyed, -⟩ := destroyRange_spec (T := T) (items.map (T.leftBy (relocation T))) [] spare
  rw [length_map, ← holds.size] at destroyed
  have old : ∃ slots, (if T.bitwise then some ((items.map (T.leftBy (relocation T))).map some ++ spare)
      else T.destroyRange ((items.map (T.leftBy (relocation T))).map some ++ spare) 0 (s.vectors self).size) = some slots := by
    by_cases bitwise : T.bitwise = true
    · exact ⟨_, if_pos bitwise⟩
    · rw [if_neg bitwise]
      exact ⟨_, destroyed⟩
  obtain ⟨slots, ends⟩ := old
  unfold relocate
  simp only [ensures_bind, ensures_current, ensures_defined moved, ensures_defined ends]
  refine ⟨_, rfl, ⟨⟨_, rfl, ?_⟩, holds.size, ?_, fits⟩, rfl⟩
  · rw [drop_replicate]
    exact spare_replicate _
  · have := holds.size
    simp only [length_append, length_map, length_drop, length_replicate]
    omega

include small bounded

omit small in
theorem allocated {n request : Nat} (fits : n * T.bytes < 2 ^ 64) (granted : grants request (n * T.bytes % 2 ^ 64) = true) :
    n * T.bytes ≤ limit ∧ n * T.bytes % 2 ^ 64 / T.bytes = n := by
  have modulo := Nat.mod_eq_of_lt fits
  rw [modulo] at granted ⊢
  constructor
  · by_contra large
    rw [bounded request _ (Nat.not_le.mp large) fits] at granted
    cases granted
  · exact Nat.mul_div_cancel n T.bytes_pos

theorem reserve_spec {n : Nat} (holds : Holds T limit (s.vectors self) items) : Ensures (reserve T grants self n) s
      (fun _ s' => ∃ v, Becomes s self v s' ∧ Holds T limit v items ∧ n ≤ v.capacity) (Refused s) := by
  unfold reserve
  simp only [ensures_bind, ensures_current]
  by_cases enough : n ≤ (s.vectors self).capacity
  · rw [if_pos enough]
    exact ⟨s.vectors self, (update_eq_self _ _).symm, holds, enough⟩
  rw [if_neg enough]
  by_cases overflow : (2 ^ 64 - 1) / T.bytes < n
  · rw [if_pos overflow]
    exact ⟨.inr ⟨_, rfl⟩, rfl⟩
  rw [if_neg overflow]
  have fits : n * T.bytes < 2 ^ 64 := by
    have := (Nat.le_div_iff_mul_le T.bytes_pos).mp (Nat.not_lt.mp overflow)
    omega
  have room : items.length ≤ n := by
    have := holds.size_le
    have := holds.size
    omega
  rw [ensures_bind]
  apply ensures_allocate
  · intro granted
    obtain ⟨modest, slots⟩ := allocated (T := T) bounded fits granted
    rw [slots]
    apply (relocate_spec (s := { s with requests := s.requests + 1 }) holds room modest).weaken
    rintro _ s' ⟨v, becomes, holds', capacity⟩
    exact ⟨v, becomes, holds', Nat.le_of_eq capacity.symm⟩
  · exact ⟨.inl rfl, rfl⟩

theorem shrinkToFit_spec (holds : Holds T limit (s.vectors self) items) : Ensures (shrinkToFit T grants self) s
      (fun _ s' => ∃ v, Becomes s self v s' ∧ Holds T limit v items) (Refused s) := by
  have kept : ∃ v, Becomes s self v s ∧ Holds T limit v items :=
    ⟨s.vectors self, (update_eq_self _ _).symm, holds⟩
  unfold shrinkToFit
  simp only [ensures_bind, ensures_current]
  by_cases full : (s.vectors self).size = (s.vectors self).capacity
  · rw [if_pos full]
    exact kept
  rw [if_neg full]
  by_cases none : (s.vectors self).size = 0
  · rw [if_pos none]
    obtain rfl : items = [] := eq_nil_of_length_eq_zero (holds.size.symm.trans none)
    exact ⟨_, rfl, ⟨[], rfl, spare_nil⟩, holds.size, rfl, by simp⟩
  · rw [if_neg none]
    by_cases close : (s.vectors self).capacity < (s.vectors self).size * 2 % 2 ^ 64
    · rw [if_pos close]
      exact kept
    rw [if_neg close]
    have modest : (s.vectors self).size * T.bytes ≤ limit :=
      Nat.le_trans (Nat.mul_le_mul_right _ holds.size_le) holds.fits
    rw [ensures_bind]
    apply ensures_allocate
    · intro granted
      obtain ⟨-, slots⟩ := allocated (T := T) bounded (Nat.lt_of_le_of_lt modest small) granted
      rw [slots]
      apply (relocate_spec (s := { s with requests := s.requests + 1 }) holds (Nat.le_of_eq holds.size.symm) modest).weaken
      rintro _ s' ⟨v, becomes, holds', _⟩
      exact ⟨v, becomes, holds'⟩
    · exact ⟨.inl rfl, rfl⟩

end

section

theorem nextCapacity_gt {capacity : Nat} (modest : capacity ≤ 2 ^ 63) : capacity < nextCapacity capacity := by
  unfold nextCapacity
  rw [Nat.shiftRight_eq_div_pow]
  by_cases zero : capacity = 0
  · subst zero
    decide
  · have exact : (capacity + capacity / 2 ^ 1 + 1) % 2 ^ 64 = capacity + capacity / 2 + 1 := by omega
    rw [if_pos zero, if_neg (by omega)]
    omega

variable {grants : Nat → Nat → Bool} (small : limit ≤ 2 ^ 63)
  (bounded : ∀ request bytes, limit < bytes → bytes < 2 ^ 64 → grants request bytes = false)
  {s : Vectors α Alloc} {self : Nat}

theorem Holds.modest (small : limit ≤ 2 ^ 63) (holds : Holds T limit v items) : v.capacity ≤ 2 ^ 63 := by
  have fits := holds.fits
  have := Nat.le_mul_of_pos_right v.capacity T.bytes_pos
  omega

include small bounded in
theorem ensureCapacityForOne_spec (holds : Holds T limit (s.vectors self) items) :
    Ensures (ensureCapacityForOne T grants self) s
      (fun _ s' => ∃ v, Becomes s self v s' ∧ Holds T limit v items ∧ v.size < v.capacity) (Refused s) := by
  unfold ensureCapacityForOne
  simp only [ensures_bind, ensures_current]
  by_cases free : (s.vectors self).size < (s.vectors self).capacity
  · rw [if_pos free]
    exact ⟨s.vectors self, (update_eq_self _ _).symm, holds, free⟩
  rw [if_neg free]
  have grows := nextCapacity_gt (holds.modest small)
  apply (reserve_spec (by omega) bounded holds).mono
  · rintro _ s' ⟨v, becomes, holds', capacity⟩
    have := holds.size_le
    have := holds.size
    have := holds'.size
    exact ⟨v, becomes, holds', by omega⟩
  · intro _ _ refused
    exact refused

theorem Holds.construct (holds : Holds T limit v items) (free : v.size < v.capacity) (x : α) :
    ∃ data, T.construct v.data v.size x = some data ∧
      Holds T limit { v with data, size := v.size + 1 } (items ++ [x]) := by
  obtain ⟨spare, data, clear⟩ := holds.slots
  have length := holds.capacity
  rw [data, length_append, length_map] at length
  have size := holds.size
  cases spare with
  | nil =>
    rw [length_nil] at length
    omega
  | cons slot spare =>
    rw [Spare.cons_iff] at clear
    have made : T.construct (items.map some ++ slot :: spare) (items.map some).length x = _ :=
      construct_middle clear.1 x
    rw [length_map, ← size, ← data] at made
    refine ⟨_, made, ⟨spare, by simp, clear.2⟩, by simp [size], ?_, holds.fits⟩
    rw [length]
    simp

theorem constructAtEnd_spec (holds : Holds T limit (s.vectors self) items)
    (free : (s.vectors self).size < (s.vectors self).capacity) (x : α) : Ensures (constructAtEnd T self x) s
      (fun _ s' => ∃ v, Becomes s self v s' ∧ Holds T limit v (items ++ [x])) fun _ _ => False := by
  obtain ⟨data, made, holds'⟩ := holds.construct free x
  unfold constructAtEnd
  simp only [ensures_bind, ensures_current, ensures_defined made]
  exact ⟨_, rfl, holds'⟩

include small bounded in
theorem pushBack_spec (holds : Holds T limit (s.vectors self) items) (argument : Argument) (x : α) :
    Ensures (pushBack T grants self argument x) s
      (fun _ s' => ∃ v, Becomes s self v s' ∧ Holds T limit v (items ++ [argument.value T x])) (Refused s) := by
  unfold pushBack
  rw [ensures_bind]
  apply (ensureCapacityForOne_spec small bounded holds).mono
  · intro _ s' ⟨v, becomes, holds', free⟩
    rw [← becomes.get] at holds' free
    apply (constructAtEnd_spec holds' free (argument.value T x)).weaken
    intro _ s'' ⟨v', becomes', holds''⟩
    exact ⟨v', becomes.trans becomes', holds''⟩
  · intro _ _ refused
    exact refused

end

section

variable {index : Nat}

theorem Holds.split (holds : Holds T limit v items) (free : v.size < v.capacity) (index : Nat) :
    ∃ slot spare, v.data = (items.take index).map some ++ ((items.drop index).map some ++ slot :: spare) ∧
      (T.trivialDestructor = true ∨ slot = none) ∧ T.Spare spare ∧ v.capacity = items.length + 1 + spare.length := by
  obtain ⟨spare, data, clear⟩ := holds.slots
  have length := holds.capacity
  rw [data, length_append, length_map] at length
  cases spare with
  | nil =>
    have size := holds.size
    rw [length_nil] at length
    omega
  | cons slot spare =>
    rw [Spare.cons_iff] at clear
    refine ⟨slot, spare, ?_, clear.1, clear.2, ?_⟩
    · rw [data, ← append_assoc, ← map_append, take_append_drop]
    · rw [length, length_cons]
      omega

theorem insertBytes {items : List α} {slot : Option α} {spare : Storage α} (bitwise : T.bitwise = true)
    (inside : index < items.length) (x : α) :
    ((memmove ((items.take index).map some ++ ((items.drop index).map some ++ slot :: spare)) (index + 1) index
        (items.length - index)).bind fun data => T.construct data index x) =
      some ((items.take index).map some ++ some x :: ((items.drop index).map some ++ spare)) := by
  have front : ((items.take index).map some).length = index := by simp; omega
  have back : ((items.drop index).map some).length = items.length - index := by simp
  have present : (items.drop index).map some ≠ [] := by
    intro empty
    rw [empty, length_nil] at back
    omega
  obtain ⟨hole, moved⟩ := memmove_up ((items.take index).map some) ((items.drop index).map some) spare slot present
  have made : T.construct ((items.take index).map some ++ hole :: ((items.drop index).map some ++ spare))
      ((items.take index).map some).length x = _ :=
    construct_middle (.inl (T.trivial_of_bitwise bitwise)) x
  rw [front] at made
  rw [front, back] at moved
  rw [moved, Option.bind_some, made]

theorem insertMoved {items : List α} {slot : Option α} {spare : Storage α}
    (clear : T.trivialDestructor = true ∨ slot = none) (inside : index < items.length) (x : α) :
    ((T.moveConstruct ((items.take index).map some ++ ((items.drop index).map some ++ slot :: spare)) items.length
        (items.length - 1)).bind fun data => (T.shiftRight index (items.length - 1) data).bind fun data =>
        (destroy data index).bind fun data => T.construct data index x) =
      some ((items.take index).map some ++ some x :: ((items.drop index).map some ++ spare)) := by
  have front : ((items.take index).map some).length = index := by simp; omega
  have length : (items.drop index).length = items.length - index := length_drop
  rcases eq_nil_or_concat (items.drop index) with empty | ⟨tail, last, split⟩
  · rw [empty, length_nil] at length
    omega
  rw [concat_eq_append] at split
  rw [split] at length ⊢
  rw [length_append, length_singleton] at length
  generalize (items.take index).map some = before at front ⊢
  have layout : before ++ ((tail ++ [last]).map some ++ slot :: spare) =
      (before ++ tail.map some) ++ some last :: slot :: spare := by simp
  obtain ⟨left, raised⟩ : ∃ left, T.moveConstruct ((before ++ tail.map some) ++ some last :: slot :: spare)
      ((before ++ tail.map some).length + 1) (before ++ tail.map some).length = _ :=
    moveConstruct_up clear last
  obtain ⟨hole, shifted⟩ := shiftRight_spec (T := T) tail left before (some last :: spare)
  have position : (before ++ tail.map some).length = items.length - 1 := by
    rw [length_append, length_map]
    omega
  have layout' : (before ++ tail.map some) ++ some left :: some last :: spare =
      before ++ ((tail ++ [left]).map some ++ some last :: spare) := by simp
  have destroyed := destroy_middle before hole (tail.map some ++ some last :: spare)
  have made : T.construct (before ++ none :: (tail.map some ++ some last :: spare)) before.length x = _ :=
    construct_middle (.inr rfl) x
  rw [position, Nat.sub_add_cancel (by omega)] at raised
  rw [front, show index + tail.length = items.length - 1 by omega] at shifted
  rw [front] at destroyed made
  rw [layout, raised, Option.bind_some, layout', shifted, Option.bind_some, destroyed, Option.bind_some, made]
  simp

theorem Holds.insertInto (holds : Holds T limit v items) (free : v.size < v.capacity) (inside : index < v.size) (x : α) :
    ∃ data, insertInto T v index x = some data ∧
      Holds T limit { v with data, size := v.size + 1 } (items.take index ++ x :: items.drop index) := by
  obtain ⟨slot, spare, layout, clear, clear', capacity⟩ := holds.split free index
  have size := holds.size
  rw [size] at inside
  refine ⟨(items.take index).map some ++ some x :: ((items.drop index).map some ++ spare), ?_, ⟨spare, by simp, clear'⟩, ?_,
    ?_, holds.fits⟩
  · unfold Vector.insertInto
    rw [size, layout]
    by_cases bitwise : T.bitwise = true
    · rw [if_pos bitwise]
      exact insertBytes bitwise inside x
    · rw [if_neg bitwise]
      exact insertMoved clear inside x
  · simp
    omega
  · simp
    omega

theorem destroyLast (items : List α) (last : α) (spare : Storage α) (free : T.Spare spare) :
    ∃ spare', T.destroyRange ((items ++ [last]).map some ++ spare) items.length 1 = some (items.map some ++ spare') ∧
      T.Spare spare' ∧ spare'.length = spare.length + 1 := by
  obtain ⟨cleared, run, length, free'⟩ := destroyRange_spec (T := T) [last] (items.map some) spare
  refine ⟨cleared ++ spare, ?_, Spare.append_iff.mpr ⟨free', free⟩, ?_⟩
  · rw [← run]
    simp
  · rw [length_append, length, length_singleton, Nat.add_comm]

theorem Holds.popBack (holds : Holds T limit v items) (present : v.size ≠ 0) :
    ∃ data, T.destroyRange v.data (v.size - 1) 1 = some data ∧
      Holds T limit { v with data, size := v.size - 1 } items.dropLast := by
  obtain ⟨spare, data, free⟩ := holds.slots
  have size := holds.size
  rcases eq_nil_or_concat items with rfl | ⟨rest, last, rfl⟩
  · exact absurd size present
  rw [concat_eq_append] at data size ⊢
  obtain ⟨spare', run, free', length⟩ := destroyLast (T := T) rest last spare free
  rw [length_append, length_singleton] at size
  refine ⟨rest.map some ++ spare', ?_, ⟨spare', by simp, free'⟩, by simp [size], ?_, holds.fits⟩
  · rw [data, size]
    exact run
  · rw [holds.capacity, data]
    simp
    omega

theorem Holds.eraseFrom (holds : Holds T limit v items) (inside : index < v.size) :
    ∃ data, eraseFrom T v index = some data ∧
      Holds T limit { v with data, size := v.size - 1 } (items.take index ++ items.drop (index + 1)) := by
  obtain ⟨spare, data, free⟩ := holds.slots
  have size := holds.size
  rw [size] at inside
  have front : ((items.take index).map some).length = index := by simp; omega
  have back : (items.drop (index + 1)).length = items.length - 1 - index := by simp; omega
  have split : items.drop index = items[index] :: items.drop (index + 1) := drop_eq_getElem_cons inside
  have layout : v.data = (items.take index).map some ++ some items[index] :: ((items.drop (index + 1)).map some ++ spare) := by
    rw [data, ← cons_append, ← map_cons, ← split, ← append_assoc, ← map_append, take_append_drop]
  suffices erased : ∃ spare', Vector.eraseFrom T v index =
      some ((items.take index ++ items.drop (index + 1)).map some ++ spare') ∧ T.Spare spare' ∧
        spare'.length = spare.length + 1 by
    obtain ⟨spare', run, free', length⟩ := erased
    refine ⟨_, run, ⟨spare', rfl, free'⟩, ?_, ?_, holds.fits⟩
    · simp
      omega
    · rw [holds.capacity, data]
      simp
      omega
  unfold Vector.eraseFrom
  rw [size, layout]
  by_cases bitwise : T.bitwise = true
  · have moved := memmove_down ((items.take index).map some) ((items.drop (index + 1)).map some) spare
      (some items[index])
    rw [front, length_map, back] at moved
    rw [if_pos bitwise, Nat.sub_right_comm, moved]
    refine ⟨_, by rw [map_append, append_assoc], .inl (T.trivial_of_bitwise bitwise), ?_⟩
    simp
    omega
  · obtain ⟨left, shifted⟩ := shiftLeft_spec (T := T) (items.drop (index + 1)) items[index]
      ((items.take index).map some) spare
    rw [front, back] at shifted
    obtain ⟨spare', run, free', length⟩ :=
      destroyLast (T := T) (items.take index ++ items.drop (index + 1)) left spare free
    have position : (items.take index ++ items.drop (index + 1)).length = items.length - 1 := by
      simp
      omega
    rw [position] at run
    refine ⟨spare', ?_, free', length⟩
    rw [if_neg bitwise, shifted, ← run]
    simp

end

section

variable {grants : Nat → Nat → Bool} {s : Vectors α Alloc} {self index : Nat}

theorem insertAt_spec (small : limit ≤ 2 ^ 63)
    (bounded : ∀ request bytes, limit < bytes → bytes < 2 ^ 64 → grants request bytes = false)
    (holds : Holds T limit (s.vectors self) items) (what : String) (argument : Argument) (x : α) :
    Ensures (insertAt T grants what self index argument x) s (fun _ s' => index ≤ items.length ∧ ∃ v, Becomes s self v s' ∧
        Holds T limit v (items.take index ++ argument.value T x :: items.drop index))
      fun e s' => (index ≤ items.length ∧ Refused s e s') ∨
        (items.length < index ∧ e = .outOfRange what ∧ s'.vectors = s.vectors) := by
  have size := holds.size
  unfold insertAt
  simp only [ensures_bind, ensures_current]
  by_cases outside : (s.vectors self).size < index
  · rw [if_pos outside]
    exact .inr ⟨by omega, rfl, rfl⟩
  rw [if_neg outside, ensures_bind]
  apply (ensureCapacityForOne_spec small bounded holds).mono
  · rintro _ s' ⟨v, becomes, holds', free⟩
    rw [← becomes.get] at holds' free
    have size' := holds'.size
    simp only [ensures_bind, ensures_current]
    by_cases last : index = (s'.vectors self).size
    · rw [if_pos last]
      apply (constructAtEnd_spec holds' free (argument.value T x)).weaken
      rintro _ s'' ⟨v', becomes', holds''⟩
      refine ⟨by omega, v', becomes.trans becomes', ?_⟩
      rw [take_of_length_le (by omega), drop_of_length_le (by omega)]
      exact holds''
    · obtain ⟨data, inserted, holds''⟩ := holds'.insertInto free (by omega : index < _) (argument.value T x)
      rw [if_neg last]
      simp only [ensures_bind, ensures_defined inserted]
      exact ⟨by omega, _, becomes.trans rfl, holds''⟩
  · intro e s' refused
    exact .inl ⟨by omega, refused⟩

section

variable (holds : Holds T limit (s.vectors self) items)

include holds

theorem popBack_spec : Ensures (popBack T self) s
      (fun _ s' => items ≠ [] ∧ ∃ v, Becomes s self v s' ∧ Holds T limit v items.dropLast)
      fun e s' => items = [] ∧ e = .outOfRange "Vector::PopBack: vector is empty" ∧ s'.vectors = s.vectors := by
  have size := holds.size
  unfold popBack
  simp only [ensures_bind, ensures_current]
  by_cases none : (s.vectors self).size = 0
  · rw [if_pos none]
    exact ⟨eq_nil_of_length_eq_zero (size.symm.trans none), rfl, rfl⟩
  obtain ⟨data, run, holds'⟩ := holds.popBack none
  rw [if_neg none]
  simp only [ensures_bind, ensures_defined run]
  refine ⟨?_, _, rfl, holds'⟩
  rintro rfl
  exact none size

theorem erase_spec : Ensures (erase T self index) s (fun _ s' => index < items.length ∧
        ∃ v, Becomes s self v s' ∧ Holds T limit v (items.take index ++ items.drop (index + 1)))
      fun e s' => items.length ≤ index ∧ e = .outOfRange "Vector::Erase: index out of range" ∧ s'.vectors = s.vectors := by
  have size := holds.size
  unfold erase
  simp only [ensures_bind, ensures_current]
  by_cases outside : (s.vectors self).size ≤ index
  · rw [if_pos outside]
    exact ⟨by omega, rfl, rfl⟩
  obtain ⟨data, run, holds'⟩ := holds.eraseFrom (Nat.not_le.mp outside)
  rw [if_neg outside]
  simp only [ensures_bind, ensures_defined run]
  exact ⟨by omega, _, rfl, holds'⟩

theorem clear_spec :
    Ensures (clear T self) s (fun _ s' => ∃ v, Becomes s self v s' ∧ Holds T limit v []) fun _ _ => False := by
  obtain ⟨data, run, holds'⟩ := holds.destroyed
  unfold clear
  simp only [ensures_bind, ensures_current, ensures_defined run]
  exact ⟨_, rfl, holds'⟩

end

end

end NginBase.Containers.Vector
