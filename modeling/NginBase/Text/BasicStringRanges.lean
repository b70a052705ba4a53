import NginBase.Text.BasicStringCalls

namespace NginBase.Text.BasicString

open Library Library.Command Block Function List Nat

variable {C Alloc : Type} {L : StringLayout C} {grants : Grants C} {s : Strings C Alloc} {v : BasicString C Alloc}
  {units new : List C} {capacity n self : Nat} {lists : Nat → List C} {view : StringView C}

def Becomes (L : StringLayout C) (s : Strings C Alloc) (self : Nat) (new : List C) (s' : Strings C Alloc) : Prop :=
  ∃ v, s'.strings = Function.update s.strings self v ∧ Holds L v new

theorem Becomes.represents {s' : Strings C Alloc} (represents : Represents L s lists) (becomes : Becomes L s self new s') :
    Represents L s' (Function.update lists self new) := by
  obtain ⟨v, same, holds⟩ := becomes
  intro i
  rw [same]
  by_cases own : i = self
  · rw [own, update_self, update_self]
    exact holds
  · rw [update_of_ne own, update_of_ne own]
    exact represents i

theorem Becomes.of_same {s₁ s' : Strings C Alloc} (same : s₁.strings = s.strings) (becomes : Becomes L s₁ self new s') :
    Becomes L s self new s' := by
  obtain ⟨v, is, holds⟩ := becomes
  exact ⟨v, by rw [is, same], holds⟩

theorem update_spec {f : BasicString C Alloc → Action C Alloc (BasicString C Alloc)} {need : Nat}
    (yields : Yields L grants need (f (s.strings self)) s new) :
    Ensures (update self f) s (fun _ s' => Becomes L s self new s') (Refused L grants need s) := by
  unfold update
  simp only [ensures_bind]
  apply Ensures.mono yields
  · rintro v s₁ ⟨same, holds⟩
    exact ⟨v, by dsimp only; rw [same], holds⟩
  · intro e s' refused
    exact refused

theorem constructedFrom_spec (represents : Represents L s lists) (alloc : Alloc) (shows : view.units lists = some new) :
    Yields L grants new.length (constructedFrom L grants alloc view) s new := by
  obtain ⟨v, run, holds⟩ : ∃ v, constructed L alloc = some v ∧ HoldsIn L v [] L.sboChars := constructed_spec alloc
  unfold Yields constructedFrom
  rw [ensures_bind, ensures_defined run]
  split
  · rename_i none
    rw [← StringView.length_units shows] at none
    rw [length_eq_zero_iff.mp none]
    exact ⟨rfl, _, holds⟩
  · exact assigned_spec represents ⟨_, holds⟩ shows

theorem constructedFilled_spec (alloc : Alloc) (count : Nat) (ch : C) :
    Yields L grants count (constructedFilled L grants alloc count ch) s (replicate count ch) := by
  obtain ⟨v, run, holds⟩ : ∃ v, constructed L alloc = some v ∧ HoldsIn L v [] L.sboChars := constructed_spec alloc
  have filled {w : BasicString C Alloc} {room : Nat} {s₁ : Strings C Alloc} (holds : HoldsIn L w [] room)
      (enough : count ≤ room) (same : s₁.strings = s.strings) :
      Ensures (do
        let w ← defined (w.writeData 0 (replicate count ch))
        defined (w.setSize L count) : Action C Alloc (BasicString C Alloc)) s₁
        (fun v s' => s'.strings = s.strings ∧ Holds L v (replicate count ch)) (Refused L grants count s) := by
    obtain ⟨v₁, v₂, run₁, run₂, holds₂⟩ : ∃ v₁ v₂, w.writeData 0 (replicate count ch) = some v₁ ∧
        v₁.setSize L (([] : List C).length + (replicate count ch).length) = some v₂ ∧
        HoldsIn L v₂ (replicate count ch) room :=
      holds.overwrite nil_prefix (by simpa using enough)
    rw [length_nil, zero_add, length_replicate] at run₂
    rw [ensures_bind, ensures_defined run₁, ensures_defined run₂]
    exact ⟨same, room, holds₂⟩
  obtain ⟨rest, framed, size⟩ := holds
  unfold Yields constructedFilled
  simp only [ensures_bind, ensures_defined run, ensures_defined framed.rawCapacity]
  split
  · simp only [ensures_bind]
    apply (checkedGrow_spec 0 count).mono
    · rintro newCapacity s₁ ⟨same₁, enough, bounded⟩
      rw [same₁]
      apply (reallocated_spec ⟨rest, framed, size⟩ (zero_le _)).mono
      · rintro v' s₂ ⟨same₂, capacity', holds', wide⟩
        have run := filled holds' (le_trans enough wide) same₂
        rwa [ensures_bind] at run
      · intro e s' refused
        exact refused.of_bounded bounded
    · intro e s' refused
      exact refused
  · rename_i fits
    exact filled ⟨rest, framed, size⟩ (Nat.le_of_not_lt fits) rfl

section

variable {head erased tail : List C} {pos eraseCount : Nat}

def Apart (self : Nat) : StringView C → Prop
  | .outside _ => True
  | .within index _ n => index ≠ self ∨ n = 0

theorem Apart.copyable (apart : Apart self view) (offset : Nat) : copyable self offset view = true := by
  cases view with
  | outside units => rfl
  | within index source count =>
    have safe : index ≠ self ∨ Block.Separate offset source count := by
      rcases apart with other | none
      · exact .inl other
      · right
        unfold Block.Separate
        omega
    simpa [BasicString.copyable] using safe

theorem fetch_apart {s₁ : Strings C Alloc} {buffer : List C} (represents : Represents L s lists)
    (shows : view.units lists = some new) (apart : Apart self view) (others : ∀ i, i ≠ self → s₁.strings i = s.strings i)
    (framed : Framed L (s₁.strings self) buffer capacity) (room : (lists self).length ≤ capacity) :
    Ensures (fetch view) s₁ (fun units s' => units = new ∧ s' = s₁) fun _ _ => False := by
  cases view with
  | outside units =>
    cases shows
    exact ⟨rfl, rfl⟩
  | within index offset count =>
    obtain ⟨inside, is⟩ := units_within shows
    by_cases own : index = self
    · subst own
      have none : count = 0 := apart.resolve_left fun other => other rfl
      subst none
      have read : read buffer offset 0 = some [] := by
        rw [read_eq (by rw [framed.length]; omega), take_zero]
      simp only [fetch, ensures_bind, ensures_current, ensures_defined framed.data, ensures_defined read]
      rw [is]
      exact ⟨rfl, True.intro⟩
    · have holds : Holds L (s₁.strings index) (lists index) := by
        rw [others index own]
        exact represents index
      rw [is]
      exact fetch_within holds inside

theorem surroundings_spec (holds : HoldsIn L v (head ++ erased ++ tail) capacity) :
    surroundings v head.length erased.length = some (head, tail) := by
  obtain ⟨rest, framed, size⟩ := holds
  have first : read (head ++ erased ++ tail ++ L.zero :: rest) 0 head.length = some head := by
    have := read_append [] head (erased ++ tail ++ L.zero :: rest)
    simpa using this
  have last : read (head ++ erased ++ tail ++ L.zero :: rest) (head.length + erased.length) tail.length =
      some tail := by
    have := read_append (head ++ erased) tail (L.zero :: rest)
    rwa [length_append] at this
  have count : v.rawSize - head.length - erased.length = tail.length := by
    rw [size]
    simp only [length_append]
    omega
  unfold surroundings
  rw [framed.data, count]
  simp only [Option.bind_eq_bind, Option.bind_some, first, last]
  rfl

theorem moveTail_spec (holds : HoldsIn L v (head ++ erased ++ tail) capacity)
    (fits : head.length + n + tail.length ≤ capacity) :
    ∃ v₁ middle after, moveTail v head.length erased.length n = some v₁ ∧ middle.length = n ∧
      Framed L v₁ (head ++ middle ++ (tail ++ after)) capacity ∧ after ≠ [] := by
  obtain ⟨rest, framed, size⟩ := holds
  unfold moveTail
  split
  · have length := framed.length
    simp only [length_append, length_cons] at length
    have count : v.rawSize - head.length - erased.length = tail.length := by
      rw [size]
      simp only [length_append]
      omega
    have read : read (head ++ erased ++ tail ++ L.zero :: rest) (head.length + erased.length) tail.length =
        some tail := by
      have := read_append (head ++ erased) tail (L.zero :: rest)
      rwa [length_append] at this
    -- what stands between the head and the new place of the tail
    let below := erased ++ tail ++ L.zero :: rest
    have cut : head ++ erased ++ tail ++ L.zero :: rest = head ++ below.take n ++ below.drop n := by
      simp [below]
    have middle : (below.take n).length = n := by
      rw [length_take]
      simp only [below, length_append, length_cons]
      omega
    obtain ⟨after, written, total⟩ : ∃ after, write (head ++ below.take n ++ below.drop n)
        (head ++ below.take n).length tail = some (head ++ below.take n ++ tail ++ after) ∧
        tail.length + after.length = (below.drop n).length := by
      apply write_next
      rw [length_drop]
      simp only [below, length_append, length_cons]
      omega
    rw [length_append, middle, ← cut] at written
    refine ⟨v.withBuffer (head ++ below.take n ++ tail ++ after), below.take n, after, ?_, middle, ?_, ?_⟩
    · rw [framed.data, count]
      simp only [Option.bind_eq_bind, Option.bind_some, move, read, written]
      rfl
    · rw [← append_assoc]
      exact (framed.withBuffer (length_write written)).1
    · rintro rfl
      rw [length_drop] at total
      simp only [below, length_append, length_cons, length_nil] at total
      omega
  · rename_i same
    have same : n = erased.length := by simpa using same
    refine ⟨v, erased, L.zero :: rest, rfl, same.symm, ?_, by simp⟩
    rw [← append_assoc]
    exact framed

section

variable (represents : Represents L s lists)

include represents

theorem replaceRange_spec (parts : lists self = head ++ erased ++ tail) (shows : view.units lists = some new)
    (apart : Apart self view) : Ensures (replaceRange L grants self head.length erased.length view) s
      (fun _ s' => Becomes L s self (head ++ new ++ tail) s') (Refused L grants (head ++ new ++ tail).length s) := by
  have count : view.size = new.length := (StringView.length_units shows).symm
  have holds := represents self
  have bounded := holds.length_le
  obtain ⟨capacity, rest, framed, size⟩ := holds
  have size' : (s.strings self).rawSize = head.length + erased.length + tail.length := by
    rw [size, parts, length_append, length_append]
  rw [parts] at framed size
  have length := framed.length
  simp only [parts, length_append, length_cons] at length bounded
  unfold replaceRange
  rw [ensures_bind, ensures_current, ensures_bind, count]
  have left : (s.strings self).rawSize - erased.length ≤ L.maxCapacity := by omega
  apply (checkedAppendSize_spec new.length left).mono
  · intro newSize s₁ ⟨same₁, total, _⟩
    have total : newSize = (head ++ new ++ tail).length := by
      simp only [length_append]
      omega
    rw [same₁, total, ensures_bind, ensures_defined framed.rawCapacity]
    split
    · rename_i little
      obtain ⟨after, assembled, _⟩ : ∃ after, assemble L L.smallStorage head new tail =
          some (head ++ new ++ tail ++ L.zero :: after) ∧ _ := by
        apply assemble_spec
        rw [L.length_smallStorage]
        omega
      obtain ⟨v', committed, holds'⟩ := framed.commitSmall (read_units after) little
      rw [ensures_bind, ensures_defined (surroundings_spec ⟨rest, framed, size⟩)]
      rw [ensures_bind]
      apply (fetch_spec represents shows).weaken
      intro units s₂ ⟨is, same₂⟩
      rw [is, same₂, ensures_bind, ensures_defined assembled, ensures_bind, ensures_defined committed]
      exact ⟨v', rfl, _, holds'⟩
    split
    · rename_i large inPlace
      have fits : head.length + new.length + tail.length ≤ capacity := by
        have := inPlace.2
        omega
      obtain ⟨v₁, middle, after, moved, length₁, framed₁, more⟩ :
          ∃ v₁ middle after, moveTail (s.strings self) head.length erased.length new.length = some v₁ ∧ _ :=
        moveTail_spec ⟨rest, framed, size⟩ fits
      obtain ⟨old, after, rfl⟩ := exists_cons_of_ne_nil more
      have written : write (head ++ middle ++ (tail ++ old :: after)) head.length new =
          some (head ++ new ++ (tail ++ old :: after)) := write_append length₁
      obtain ⟨v₂, run₂, framed₂, -⟩ := framed₁.writeData written
      rw [← append_assoc] at framed₂
      obtain ⟨v₃, run₃, holds₃⟩ := framed₂.setSize
      rw [ensures_bind, ensures_defined moved, ensures_bind, ensures_store, if_pos (apart.copyable head.length),
        ensures_bind]
      have others : ∀ i, i ≠ self → Function.update s.strings self v₁ i = s.strings i :=
        fun i other => update_of_ne other _ _
      have own : Framed L (Function.update s.strings self v₁ self) (head ++ middle ++ (tail ++ old :: after)) capacity := by
        rw [update_self]
        exact framed₁
      apply (fetch_apart represents shows apart others own (by simp only [parts]; omega)).weaken
      intro units s₂ ⟨is, same₂⟩
      rw [is, same₂, ensures_bind, ensures_defined run₂, ensures_bind, ensures_defined run₃]
      exact ⟨v₃, update_idem _ _ _, _, holds₃⟩
    · rw [ensures_bind]
      apply (checkedGrow_spec capacity (head ++ new ++ tail).length).mono
      · intro newCapacity s₂ ⟨same₂, enough, bounded'⟩
        rw [same₂, ensures_bind]
        apply (allocateWith_spec newCapacity).mono
        · intro block s₃ ⟨same₃, length₃, _⟩
          obtain ⟨after, assembled, full⟩ : ∃ after, assemble L block head new tail =
              some (head ++ new ++ tail ++ L.zero :: after) ∧ _ := by
            apply assemble_spec
            omega
          obtain ⟨v', committed, holds'⟩ : ∃ v', (s.strings self).commitHeap L (head ++ new ++ tail ++ L.zero :: after)
              newCapacity (head ++ new ++ tail).length = some v' ∧ HoldsIn L v' (head ++ new ++ tail) newCapacity :=
            commitHeap_spec rfl (full.trans length₃) (by omega) bounded'
          rw [ensures_bind, ensures_defined (surroundings_spec ⟨rest, framed, size⟩)]
          rw [ensures_bind]
          apply (fetch_spec (represents.of_same same₃) shows).weaken
          intro units s₄ ⟨is, same₄⟩
          rw [is, same₄, ensures_bind, ensures_defined assembled, ensures_bind, ensures_defined committed]
          exact ⟨v', by dsimp only; rw [same₃], _, holds'⟩
        · intro e s' refused
          exact refused.of_bounded bounded'
      · intro e s' refused
        exact refused
  · intro e s' refused
    apply refused.of_le
    simp only [length_append]
    omega

theorem length_overlapping (shows : view.units lists = some new) (shared : overlapsSelf v self view = true) :
    new.length ≤ L.maxCapacity := by
  cases view with
  | outside units => simp [overlapsSelf, overlaps] at shared
  | within index offset count =>
    have inside := (units_within shows).1
    have bounded := (represents index).length_le
    have length : new.length = count := StringView.length_units shows
    omega

theorem detached_spec (shows : view.units lists = some new) : Ensures (detached L grants self view) s
      (fun view' s' => s'.strings = s.strings ∧ view'.units lists = some new ∧ Apart self view') (Refused L grants 0 s) := by
  unfold detached
  rw [ensures_bind, ensures_current]
  split
  · rename_i shared
    obtain ⟨storage, run, holds⟩ : ∃ v, constructed L (s.strings self).alloc = some v ∧ HoldsIn L v [] L.sboChars :=
      constructed_spec _
    simp only [ensures_bind, ensures_defined run]
    apply (assigned_spec represents ⟨_, holds⟩ shows).mono
    · rintro storage' s₁ ⟨same, holds'⟩
      rw [ensures_defined holds'.content]
      exact ⟨same, rfl, True.intro⟩
    · intro e s' refused
      exact refused.of_bounded (length_overlapping represents shows shared)
  · rename_i separate
    refine ⟨rfl, shows, ?_⟩
    cases view with
    | outside units => exact True.intro
    | within index offset count =>
      have inside := (units_within shows).1
      have size := (represents self).rawSize
      by_cases own : index = self
      · subst own
        right
        by_contra nonempty
        apply separate
        have first : offset < (lists index).length := by omega
        have second : 0 < offset + count := by omega
        simp [overlapsSelf, overlaps, StringView.size, nonempty, size, first, second]
      · exact .inl own

end

/-- What `Replace` makes of a list, unless the position is behind its end. -/
def replaceList (units : List C) (pos count : Nat) (new : List C) : Option (List C) :=
  if pos ≤ units.length then some (units.take pos ++ new ++ units.drop (pos + count)) else none

/-- How a call fails: the capacity it needs is refused, or its position does not exist. -/
def Fails (L : StringLayout C) (grants : Grants C) (need : Nat) (s : Strings C Alloc) (result : Option (List C))
    (e : StringException) (s' : Strings C Alloc) : Prop :=
  Refused L grants need s e s' ∨ (result = none ∧ (∃ what, e = .outOfRange what) ∧ s'.strings = s.strings)

section

variable (represents : Represents L s lists)

include represents

theorem replace_spec (shows : view.units lists = some new) (pos count : Nat) :
    Ensures (replace L grants self pos count view) s
      (fun _ s' => ∃ result, replaceList (lists self) pos count new = some result ∧ Becomes L s self result s')
      (Fails L grants ((lists self).length - min count ((lists self).length - pos) + new.length) s
        (replaceList (lists self) pos count new)) := by
  have size := (represents self).rawSize
  unfold replace replaceList
  rw [ensures_bind, ensures_current, size]
  split
  · rename_i behind
    rw [if_neg (Nat.not_le_of_lt behind)]
    exact .inr ⟨rfl, ⟨_, rfl⟩, rfl⟩
  · rename_i inside
    rw [if_pos (Nat.le_of_not_lt inside), ensures_bind]
    apply (detached_spec represents shows).mono
    · intro view' s₁ ⟨same, shows', apart⟩
      have parts : lists self = (lists self).take pos ++ ((lists self).drop pos).take count ++ (lists self).drop (pos + count) := by
        rw [append_assoc, ← drop_drop, take_append_drop, take_append_drop]
      have head : ((lists self).take pos).length = pos := by
        rw [length_take]
        omega
      have erased : (((lists self).drop pos).take count).length = min count ((lists self).length - pos) := by
        rw [length_take, length_drop]
      have replaced : Ensures (replaceRange L grants self _ _ view') s₁ _ _ :=
        replaceRange_spec (represents.of_same same) parts shows' apart
      rw [head, erased] at replaced
      apply replaced.mono
      · intro _ s' becomes
        exact ⟨_, rfl, becomes.of_same same⟩
      · intro e s' refused
        refine .inl ((refused.of_same same).of_le ?_)
        simp only [length_append, length_drop]
        omega
    · intro e s' refused
      exact .inl (refused.of_le (zero_le _))

theorem insertFilled_spec (pos count : Nat) (ch : C) (some_ : count ≠ 0) :
    Ensures (insertFilled L grants self pos count ch) s
      (fun _ s' => ∃ result, replaceList (lists self) pos 0 (replicate count ch) = some result ∧
        Becomes L s self result s')
      (Fails L grants ((lists self).length + count) s (replaceList (lists self) pos 0 (replicate count ch))) := by
  unfold insertFilled
  rw [if_neg some_, ensures_bind, ensures_current, ensures_bind]
  apply (constructedFilled_spec (s.strings self).alloc count ch).mono
  · intro fill s₁ ⟨same, holds⟩
    rw [ensures_bind, ensures_defined holds.content]
    apply (replace_spec (represents.of_same same) rfl pos 0).mono
    · intro _ s' ⟨result, is, becomes⟩
      exact ⟨result, is, becomes.of_same same⟩
    · intro e s' fails
      rcases fails with refused | ⟨none, what, same'⟩
      · rw [List.length_replicate] at refused
        exact .inl (refused.of_same same)
      · exact .inr ⟨none, what, same'.trans same⟩
  · intro e s' refused
    exact .inl (refused.of_le (le_add_left _ _))

theorem removePrefix_spec (count : Nat) : Ensures (removePrefix L grants self count) s
      (fun _ s' => count ≤ (lists self).length ∧ Becomes L s self ((lists self).drop count) s')
      (fun e s' => Refused L grants 0 s e s' ∨
        ((lists self).length < count ∧ (∃ what, e = .outOfRange what) ∧ s'.strings = s.strings)) := by
  have size := (represents self).rawSize
  unfold removePrefix
  rw [ensures_bind, ensures_current, size]
  split
  · rename_i beyond
    exact .inr ⟨beyond, ⟨_, rfl⟩, rfl⟩
  rename_i inside
  apply (replace_spec represents rfl 0 count).mono
  · intro _ s' ⟨result, is, becomes⟩
    cases is
    rw [zero_add] at becomes
    exact ⟨Nat.le_of_not_lt inside, becomes⟩
  · intro e s' fails
    rcases fails with refused | ⟨none, _⟩
    · refine .inl (refused.of_bounded (le_trans ?_ (represents self).length_le))
      exact sub_le _ _
    · cases none

theorem removeSuffix_spec (count : Nat) : Ensures (removeSuffix L grants self count) s
      (fun _ s' => count ≤ (lists self).length ∧ Becomes L s self ((lists self).take ((lists self).length - count)) s')
      (fun e s' => Refused L grants 0 s e s' ∨
        ((lists self).length < count ∧ (∃ what, e = .outOfRange what) ∧ s'.strings = s.strings)) := by
  have size := (represents self).rawSize
  unfold removeSuffix
  rw [ensures_bind, ensures_current, size]
  split
  · rename_i beyond
    exact .inr ⟨beyond, ⟨_, rfl⟩, rfl⟩
  rename_i inside
  have inside := Nat.le_of_not_lt inside
  apply (replace_spec represents rfl ((lists self).length - count) count).mono
  · intro _ s' ⟨result, is, becomes⟩
    rw [replaceList, if_pos (sub_le _ _)] at is
    cases is
    rw [Nat.sub_add_cancel inside, List.drop_length, List.append_nil, List.append_nil] at becomes
    exact ⟨inside, becomes⟩
  · intro e s' fails
    rcases fails with refused | ⟨none, _⟩
    · refine .inl (refused.of_bounded (le_trans ?_ (represents self).length_le))
      exact sub_le _ _
    · rw [replaceList, if_pos (sub_le _ _)] at none
      cases none

end

end

end NginBase.Text.BasicString
