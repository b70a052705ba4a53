import NginBase.Text.BasicStringLaws

namespace NginBase.Text.BasicString

open Library Library.Command Block List Nat StringView

variable {C Alloc : Type} {L : StringLayout C} {grants : Grants C} {s : Strings C Alloc} {v : BasicString C Alloc}
  {units : List C} {capacity n : Nat}

def Yields (L : StringLayout C) (grants : Grants C) (need : Nat) (x : Action C Alloc (BasicString C Alloc))
    (s : Strings C Alloc) (units : List C) : Prop :=
  Ensures x s (fun v s' => s'.strings = s.strings ∧ Holds L v units) (Refused L grants need s)

theorem read_units (rest : List C) : read (units ++ L.zero :: rest) 0 units.length = some units :=
  read_append [] units _

theorem read_terminated (rest : List C) :
    read (units ++ L.zero :: rest) 0 (units.length + 1) = some (units ++ [L.zero]) := by
  have whole := read_append [] (units ++ [L.zero]) rest
  simpa using whole

section

variable (holds : HoldsIn L v units capacity)

include holds

theorem shrunk_spec (tag : v.isSmall = false) (fits : units.length ≤ L.sboChars) : Ensures (do
      let buffer ← defined v.heapData let units ← defined (read buffer 0 v.rawSize) let staged ← defined (stage L units)
      defined (v.commitSmall L staged v.rawSize) : Action C Alloc (BasicString C Alloc)) s
      (fun v' s' => s' = s ∧ HoldsIn L v' units L.sboChars) fun _ _ => False := by
  obtain ⟨rest, framed, size⟩ := holds
  have heap : v.heapData = some (units ++ L.zero :: rest) := by
    have := framed.data
    rwa [data, tag] at this
  obtain ⟨staged, run, read⟩ : ∃ staged, stage L units = some staged ∧ _ := stage_spec fits
  obtain ⟨v', committed, holds'⟩ := framed.commitSmall read fits
  simp only [ensures_bind, ensures_defined heap, size, ensures_defined (read_units rest), ensures_defined run,
    ensures_defined committed]
  exact ⟨True.intro, holds'⟩

theorem reallocated_spec (room : units.length ≤ n) : Ensures (reallocated L grants v n) s
      (fun v' s' => s'.strings = s.strings ∧ ∃ capacity', HoldsIn L v' units capacity' ∧ n ≤ capacity')
      (Refused L grants n s) := by
  unfold reallocated validateCapacity
  rw [ensures_bind]
  split
  · rename_i large
    exact ⟨.inr ⟨⟨_, rfl⟩, large⟩, rfl⟩
  rw [ensures_pure]
  split
  · rename_i little
    split
    · obtain ⟨rest, framed, size⟩ := holds
      exact ⟨rfl, capacity, ⟨rest, framed, size⟩, le_trans little framed.sboChars_le⟩
    rename_i tag
    apply (shrunk_spec holds (by simpa using tag) (le_trans room little)).weaken
    intro v' s' ⟨same, holds'⟩
    exact ⟨by rw [same], L.sboChars, holds', little⟩
  · rw [ensures_bind]
    apply (allocateWith_spec n).mono
    · intro fresh s₁ ⟨same, length, bounded⟩
      obtain ⟨rest, framed, size⟩ := holds
      obtain ⟨after, filled, total⟩ : ∃ after, write ([] ++ fresh) 0 (units ++ [L.zero]) =
          some ([] ++ (units ++ [L.zero]) ++ after) ∧ _ := write_next (by simp; omega)
      rw [nil_append, nil_append] at filled
      obtain ⟨v', committed, holds'⟩ : ∃ v', v.commitHeap L (units ++ [L.zero] ++ after) n units.length = some v' ∧
          HoldsIn L v' units n :=
        commitHeap_spec (append_assoc _ _ _) (by rw [length_append, total, length]) (by omega) bounded
      simp only [ensures_bind, ensures_defined framed.data, size, ensures_defined (read_terminated rest),
        ensures_defined filled, ensures_defined committed]
      exact ⟨same, n, holds', le_refl n⟩
    · intro e s' refused
      exact refused

theorem grown_spec (room : units.length ≤ n) : Ensures (grown L grants v n) s
      (fun v' s' => s'.strings = s.strings ∧ ∃ capacity', HoldsIn L v' units capacity' ∧ n ≤ capacity')
      (Refused L grants n s) := by
  obtain ⟨rest, framed, size⟩ := holds
  unfold grown
  simp only [ensures_bind, ensures_defined framed.rawCapacity]
  apply (checkedGrow_spec capacity n).mono
  · rintro newCapacity s₁ ⟨same, enough, bounded⟩
    rw [same]
    apply (reallocated_spec ⟨rest, framed, size⟩ (le_trans room enough)).mono
    · rintro v' s' ⟨same', capacity', holds', least⟩
      exact ⟨same', capacity', holds', le_trans enough least⟩
    · intro e s' refused
      exact refused.of_bounded bounded
  · intro e s' refused
    exact refused

theorem HoldsIn.write {kept new : List C} (start : kept <+: units) (fits : kept.length + new.length ≤ capacity) :
    ∃ v₁ old after, v.writeData kept.length new = some v₁ ∧ Framed L v₁ (kept ++ new ++ old :: after) capacity ∧
      v₁.sizeAndFlags = v.sizeAndFlags := by
  obtain ⟨rest, framed, size⟩ := holds
  obtain ⟨tail, rfl⟩ := start
  have length := framed.length
  obtain ⟨after, written, total⟩ : ∃ after, write (kept ++ (tail ++ L.zero :: rest)) kept.length new =
      some (kept ++ new ++ after) ∧ new.length + after.length = (tail ++ L.zero :: rest).length :=
    write_next (by simp only [length_append] at length ⊢; omega)
  obtain ⟨old, after, rfl⟩ : ∃ old after', after = old :: after' := by
    apply exists_cons_of_ne_nil
    rintro rfl
    simp only [length_append, length_nil] at length total
    omega
  rw [← append_assoc] at written
  obtain ⟨v₁, run, framed₁, flags⟩ := framed.writeData written
  exact ⟨v₁, old, after, run, framed₁, flags⟩

theorem HoldsIn.overwrite {kept new : List C} (start : kept <+: units) (fits : kept.length + new.length ≤ capacity) :
    ∃ v₁ v₂, v.writeData kept.length new = some v₁ ∧ v₁.setSize L (kept.length + new.length) = some v₂ ∧
      HoldsIn L v₂ (kept ++ new) capacity := by
  obtain ⟨v₁, old, after, run₁, framed₁, -⟩ := holds.write start fits
  obtain ⟨v₂, run₂, holds₂⟩ := framed₁.setSize
  rw [length_append] at run₂
  exact ⟨v₁, v₂, run₁, run₂, holds₂⟩

theorem extended_spec {full : Bool} {new : List C} (total : units.length + new.length = n)
    (fits : full = false → n ≤ capacity) : Yields L grants n (extended L grants v full n new) s (units ++ new) := by
  subst total
  have wide {w : BasicString C Alloc} {room : Nat} {s₁ : Strings C Alloc} (holds : HoldsIn L w units room)
      (enough : units.length + new.length ≤ room) (same : s₁.strings = s.strings) :
      Ensures (do
        let w ← defined (w.writeData w.rawSize new)
        defined (w.setSize L (units.length + new.length)) : Action C Alloc (BasicString C Alloc)) s₁
        (fun v s' => s'.strings = s.strings ∧ Holds L v (units ++ new))
        (Refused L grants (units.length + new.length) s) := by
    obtain ⟨v₁, v₂, run₁, run₂, holds₂⟩ := holds.overwrite (prefix_refl units) enough
    have size := Holds.rawSize ⟨room, holds⟩
    simp only [ensures_bind, size, ensures_defined run₁, ensures_defined run₂]
    exact ⟨same, room, holds₂⟩
  unfold Yields extended grownIf
  rw [ensures_bind]
  cases full with
  | false => exact wide holds (fits rfl) rfl
  | true =>
    apply (grown_spec holds (le_add_right _ _)).mono
    · rintro v' s₁ ⟨same, capacity', holds', enough⟩
      exact wide holds' enough same
    · intro e s' refused
      exact refused

end

section

variable (holds : Holds L v units)

include holds

theorem cut_spec (short : n ≤ units.length) : ∃ v', v.setSize L n = some v' ∧ Holds L v' (units.take n) := by
  obtain ⟨capacity, holds⟩ := holds
  obtain ⟨rest, framed, -⟩ := holds
  obtain ⟨old, after, split⟩ : ∃ old after, units.drop n ++ L.zero :: rest = old :: after :=
    exists_cons_of_ne_nil (by simp)
  have is : units ++ L.zero :: rest = units.take n ++ old :: after := by
    rw [← split, ← append_assoc, take_append_drop]
  rw [is] at framed
  obtain ⟨v', run, holds'⟩ := framed.setSize
  rw [length_take, min_eq_left short] at run
  exact ⟨v', run, capacity, holds'⟩

theorem cleared_spec : Ensures (cleared L v) s (fun v' s' => s'.strings = s.strings ∧ Holds L v' []) fun _ _ => False := by
  obtain ⟨v', run, holds'⟩ := cut_spec holds (zero_le _)
  exact (ensures_defined run).mpr ⟨rfl, holds'⟩

theorem reserved_spec (newCap : Nat) : Yields L grants newCap (reserved L grants v newCap) s units := by
  obtain ⟨capacity, holds⟩ := holds
  obtain ⟨rest, framed, size⟩ := holds
  unfold Yields reserved
  simp only [ensures_bind, ensures_defined framed.rawCapacity]
  split
  · exact ⟨rfl, capacity, rest, framed, size⟩
  have fits : units.length ≤ newCap := by
    have := framed.length
    simp only [length_append] at this
    omega
  apply (grown_spec ⟨rest, framed, size⟩ fits).mono
  · rintro v' s' ⟨same, capacity', holds', _⟩
    exact ⟨same, capacity', holds'⟩
  · intro e s' refused
    exact refused

theorem reservedExactly_spec (newCap : Nat) : Yields L grants newCap (reservedExactly L grants v newCap) s units := by
  obtain ⟨capacity, holds⟩ := holds
  obtain ⟨rest, framed, size⟩ := holds
  unfold Yields reservedExactly
  simp only [ensures_bind, ensures_defined framed.rawCapacity]
  split
  · exact ⟨rfl, capacity, rest, framed, size⟩
  have fits : units.length ≤ newCap := by
    have := framed.length
    simp only [length_append] at this
    omega
  apply (reallocated_spec ⟨rest, framed, size⟩ fits).mono
  · rintro v' s' ⟨same, capacity', holds', _⟩
    exact ⟨same, capacity', holds'⟩
  · intro e s' refused
    exact refused

theorem shrunkToFit_spec : Yields L grants 0 (shrunkToFit L grants v) s units := by
  have bounded := holds.length_le
  obtain ⟨capacity, holds⟩ := holds
  have size := Holds.rawSize ⟨capacity, holds⟩
  unfold Yields shrunkToFit
  split
  · exact ⟨rfl, capacity, holds⟩
  rename_i tag
  have tag : v.isSmall = false := by simpa using tag
  rw [size]
  split
  · rename_i little
    rw [← size]
    apply (shrunk_spec holds tag little).weaken
    intro v' s' ⟨same, holds'⟩
    exact ⟨by rw [same], _, holds'⟩
  · obtain ⟨rest, framed, -⟩ := holds
    have heap : v.heapCapacity = some capacity := by
      have := framed.rawCapacity
      rwa [rawCapacity, tag] at this
    simp only [ensures_bind, ensures_defined heap]
    split
    · apply (reallocated_spec ⟨rest, framed, size⟩ (le_refl _)).mono
      · intro v' s' ⟨same, capacity', holds', _⟩
        exact ⟨same, capacity', holds'⟩
      · intro e s' refused
        exact refused.of_bounded bounded
    · exact ⟨rfl, capacity, rest, framed, size⟩

end

def resizeList (units : List C) (count : Nat) (ch : C) : List C :=
  units.take count ++ replicate (count - units.length) ch

section

variable (holds : Holds L v units)

include holds

theorem resized_spec (count : Nat) (ch : C) :
    Yields L grants count (resized L grants v count ch) s (resizeList units count ch) := by
  have size := holds.rawSize
  unfold Yields resized resizeList
  rw [size]
  split
  · rename_i short
    obtain ⟨v', run, holds'⟩ := cut_spec holds short
    rw [ensures_defined run, Nat.sub_eq_zero_of_le short]
    exact ⟨rfl, by simpa using holds'⟩
  · obtain ⟨capacity, rest, framed, -⟩ := holds
    have total : units.length + (replicate (count - units.length) ch).length = count := by
      rw [length_replicate]
      omega
    rw [ensures_bind, ensures_defined framed.rawCapacity, take_of_length_le (by omega)]
    exact extended_spec ⟨rest, framed, size⟩ total (by simp)

theorem pushedBack_spec (ch : C) : Yields L grants (units.length + 1) (pushedBack L grants v ch) s (units ++ [ch]) := by
  obtain ⟨capacity, rest, framed, size⟩ := holds
  have length := framed.length
  simp only [length_append, length_cons] at length
  unfold Yields pushedBack
  rw [ensures_bind, ensures_defined framed.rawCapacity, size]
  refine extended_spec ⟨rest, framed, size⟩ (by simp) ?_
  intro room
  have := of_decide_eq_false room
  omega

theorem poppedBack_spec : Yields L grants 0 (poppedBack L v) s units.dropLast := by
  unfold Yields poppedBack
  rw [holds.rawSize]
  split
  · rename_i none
    rw [length_eq_zero_iff.mp none] at holds ⊢
    exact ⟨rfl, holds⟩
  · obtain ⟨v', run, holds'⟩ := cut_spec holds (sub_le units.length 1)
    rw [ensures_defined run, dropLast_eq_take]
    exact ⟨rfl, holds'⟩

theorem filledWith_spec (count : Nat) (ch : C) :
    Yields L grants (units.length + count) (filledWith L grants v count ch) s (units ++ replicate count ch) := by
  have bounded := holds.length_le
  obtain ⟨capacity, rest, framed, size⟩ := holds
  unfold Yields filledWith
  split
  · rename_i none
    rw [none, replicate_zero, append_nil]
    exact ⟨rfl, capacity, rest, framed, size⟩
  · rw [ensures_bind, size]
    apply (checkedAppendSize_spec count bounded).mono
    · intro newSize s₁ ⟨same, total, _⟩
      rw [same, ensures_bind, ensures_defined framed.rawCapacity, total]
      exact extended_spec ⟨rest, framed, size⟩ (by rw [length_replicate]) (by simp)
    · intro e s' refused
      exact refused

end

def Represents (L : StringLayout C) (s : Strings C Alloc) (lists : Nat → List C) : Prop :=
  ∀ i, Holds L (s.strings i) (lists i)

section

variable {lists : Nat → List C} {view : StringView C} {new : List C}

theorem Represents.of_same {s' : Strings C Alloc} (represents : Represents L s lists) (same : s'.strings = s.strings) :
    Represents L s' lists := by
  intro i
  rw [same]
  exact represents i

theorem units_within {index offset count : Nat} (shows : (within index offset count).units lists = some new) :
    offset + count ≤ (lists index).length ∧ new = ((lists index).drop offset).take count := by
  simp only [units] at shows
  split at shows
  · rename_i inside
    cases shows
    exact ⟨inside, rfl⟩
  · cases shows

theorem fetch_within {index offset count : Nat} (holds : Holds L (s.strings index) units)
    (inside : offset + count ≤ units.length) :
    Ensures (fetch (.within index offset count)) s (fun shown s' => shown = (units.drop offset).take count ∧ s' = s)
      fun _ _ => False := by
  obtain ⟨capacity, rest, framed, size⟩ := holds
  have read : read (units ++ L.zero :: rest) offset count = some ((units.drop offset).take count) := by
    rw [read_eq (by simp only [length_append]; omega), drop_append_of_le_length (by omega),
      take_append_of_le_length (by rw [length_drop]; omega)]
  simp only [fetch, ensures_bind, ensures_current, ensures_defined framed.data, ensures_defined read]
  exact ⟨True.intro, True.intro⟩

theorem fetch_spec (represents : Represents L s lists) (shows : view.units lists = some new) :
    Ensures (fetch view) s (fun units s' => units = new ∧ s' = s) fun _ _ => False := by
  cases view with
  | outside units =>
    cases shows
    exact ⟨rfl, rfl⟩
  | within index offset count =>
    obtain ⟨inside, is⟩ := units_within shows
    rw [is]
    exact fetch_within (represents index) inside

theorem committed_spec {block : List C} (length : block.length = capacity + 1) (large : L.sboChars < capacity)
    (bounded : capacity ≤ L.maxCapacity) (fits : new.length ≤ capacity) :
    ∃ filled terminated v', write block 0 new = some filled ∧ write filled new.length [L.zero] = some terminated ∧
      v.commitHeap L terminated capacity new.length = some v' ∧ HoldsIn L v' new capacity := by
  obtain ⟨after₁, first, length₁⟩ : ∃ rest, write ([] ++ block) 0 new = some ([] ++ new ++ rest) ∧
      new.length + rest.length = block.length := write_next (by omega)
  obtain ⟨after₂, second, length₂⟩ : ∃ rest, write (new ++ after₁) new.length [L.zero] =
      some (new ++ [L.zero] ++ rest) ∧ [L.zero].length + rest.length = after₁.length :=
    write_next (by simp only [length_singleton]; omega)
  obtain ⟨v', committed, holds⟩ : ∃ v', v.commitHeap L (new ++ [L.zero] ++ after₂) capacity new.length = some v' ∧
      HoldsIn L v' new capacity := by
    refine commitHeap_spec (append_assoc _ _ _) ?_ large bounded
    simp only [length_append] at length₂ ⊢
    omega
  exact ⟨_, _, v', first, second, committed, holds⟩

theorem joined_spec {block old : List C} (length : block.length = capacity + 1) (large : L.sboChars < capacity)
    (bounded : capacity ≤ L.maxCapacity) (fits : old.length + new.length ≤ capacity) :
    ∃ copied filled terminated v', write block 0 old = some copied ∧ write copied old.length new = some filled ∧
      write filled (old.length + new.length) [L.zero] = some terminated ∧
      v.commitHeap L terminated capacity (old.length + new.length) = some v' ∧ HoldsIn L v' (old ++ new) capacity := by
  obtain ⟨after₁, first, length₁⟩ : ∃ rest, write ([] ++ block) 0 old = some ([] ++ old ++ rest) ∧
      old.length + rest.length = block.length := write_next (by omega)
  obtain ⟨after₂, second, length₂⟩ : ∃ rest, write (old ++ after₁) old.length new =
      some (old ++ new ++ rest) ∧ new.length + rest.length = after₁.length := write_next (by omega)
  obtain ⟨after₃, third, length₃⟩ : ∃ rest, write (old ++ new ++ after₂) (old ++ new).length [L.zero] =
      some (old ++ new ++ [L.zero] ++ rest) ∧ [L.zero].length + rest.length = after₂.length :=
    write_next (by simp only [length_singleton]; omega)
  obtain ⟨v', committed, holds⟩ : ∃ v', v.commitHeap L (old ++ new ++ [L.zero] ++ after₃) capacity (old ++ new).length =
      some v' ∧ HoldsIn L v' (old ++ new) capacity := by
    refine commitHeap_spec (append_assoc _ _ _) ?_ large bounded
    simp only [length_append] at length₃ ⊢
    omega
  rw [length_append] at third committed
  exact ⟨_, _, _, v', first, second, third, committed, holds⟩

theorem assigned_spec (represents : Represents L s lists) (holds : Holds L v units) (shows : view.units lists = some new) :
    Yields L grants new.length (assigned L grants v view) s new := by
  have count : view.size = new.length := (length_units shows).symm
  obtain ⟨capacity, rest, framed, size⟩ := holds
  unfold Yields assigned
  dsimp only
  rw [count]
  split
  · rename_i little
    obtain ⟨staged, run, read⟩ : ∃ staged, stage L new = some staged ∧ _ := stage_spec little
    obtain ⟨v', committed, holds'⟩ := framed.commitSmall read little
    rw [ensures_bind]
    apply (fetch_spec represents shows).weaken
    rintro units s₁ ⟨is, same⟩
    rw [is, same, ensures_bind, ensures_defined run, ensures_defined committed]
    exact ⟨rfl, _, holds'⟩
  · rw [ensures_bind, ensures_defined framed.rawCapacity]
    split
    · rename_i fits
      obtain ⟨v₁, old, after, run₁, framed₁, flags⟩ : ∃ v₁ old after, v.writeData 0 new = some v₁ ∧
          Framed L v₁ (new ++ old :: after) capacity ∧ v₁.sizeAndFlags = v.sizeAndFlags :=
        HoldsIn.write ⟨rest, framed, size⟩ nil_prefix (by simpa using fits.2)
      have tag : v.isSmall = false := by simpa using fits.1
      have tag₁ : v₁.isSmall = false := by
        rw [← tag, isSmall, isSmall, flags]
      obtain ⟨v₂, run₂, holds₂⟩ := framed₁.setHeapSize tag₁
      rw [ensures_bind]
      apply (fetch_spec represents shows).weaken
      rintro units s₁ ⟨is, same⟩
      rw [is, same, ensures_bind, ensures_defined run₁, ensures_defined run₂]
      exact ⟨rfl, _, holds₂⟩
    · rw [ensures_bind]
      apply (checkedGrow_spec capacity new.length).mono
      · rintro newCapacity s₁ ⟨same₁, enough, bounded⟩
        rw [same₁, ensures_bind]
        apply (allocateWith_spec newCapacity).mono
        · rintro block s₂ ⟨same₂, length, _⟩
          obtain ⟨filled, terminated, v', first, second, committed, holds'⟩ :=
            committed_spec (v := v) length (by omega) bounded enough
          rw [ensures_bind]
          apply (fetch_spec (represents.of_same same₂) shows).weaken
          rintro units s₃ ⟨is, same₃⟩
          rw [is, same₃, ensures_bind, ensures_defined first, ensures_bind, ensures_defined second,
            ensures_defined committed]
          exact ⟨same₂, _, holds'⟩
        · intro e s' refused
          exact refused.of_bounded bounded
      · intro e s' refused
        exact refused

theorem appendable {self : Nat} (shows : view.units lists = some new) (nonempty : 0 < view.size)
    (size : v.rawSize = (lists self).length) : overlaps v self view || copyable self (lists self).length view := by
  cases view with
  | outside units => simp [copyable]
  | within index offset count =>
    by_cases own : index = self
    · subst own
      have inside := (units_within shows).1
      have positive : 0 < count := nonempty
      have first : offset < v.rawSize := by omega
      have second : 0 < offset + count := by omega
      simp [overlaps, first, second]
    · simp [copyable, own]

theorem appendedView_spec {self : Nat} (represents : Represents L s lists) (holds : Holds L (s.strings self) (lists self))
    (shows : view.units lists = some new) :
    Yields L grants ((lists self).length + new.length) (appendedView L grants self (s.strings self) view) s
      (lists self ++ new) := by
  have count : view.size = new.length := (length_units shows).symm
  have bounded := holds.length_le
  obtain ⟨capacity, rest, framed, size⟩ := holds
  unfold Yields appendedView
  rw [count]
  split
  · rename_i none
    rw [length_eq_zero_iff.mp none, append_nil]
    exact ⟨rfl, capacity, rest, framed, size⟩
  rw [size, ensures_bind]
  apply (checkedAppendSize_spec new.length bounded).mono
  · rintro newSize s₁ ⟨same₁, total, _⟩
    rw [same₁, ensures_bind, ensures_defined framed.rawCapacity]
    split
    · rw [ensures_bind]
      apply (checkedGrow_spec capacity newSize).mono
      · rintro newCapacity s₂ ⟨same₂, enough, bounded⟩
        rw [same₂, ensures_bind]
        apply (allocateWith_spec newCapacity).mono
        · rintro block s₃ ⟨same₃, length, _⟩
          have large : L.sboChars < newCapacity := by
            have := framed.sboChars_le
            omega
          have room : (lists self).length + new.length ≤ newCapacity := by omega
          obtain ⟨copied, filled, terminated, v', first, second, third, committed, holds'⟩ :=
            joined_spec (v := s.strings self) length large bounded room
          simp only [ensures_bind, ensures_defined framed.data, ensures_defined (read_units rest), ensures_defined first]
          apply (fetch_spec (represents.of_same same₃) shows).weaken
          rintro units s₄ ⟨is, same₄⟩
          rw [is, same₄, ensures_defined second, total, ensures_defined third, ensures_defined committed]
          exact ⟨same₃, _, holds'⟩
        · intro e s' refused
          exact refused.of_bounded bounded
      · intro e s' refused
        rwa [total] at refused
    · have safe : overlaps (s.strings self) self view || copyable self (lists self).length view := by
        have nonempty : 0 < view.size := by omega
        exact appendable shows nonempty size
      rw [if_pos safe, ensures_bind]
      have room : (lists self).length + new.length ≤ capacity := by omega
      obtain ⟨v₁, v₂, run₁, run₂, holds₂⟩ := HoldsIn.overwrite ⟨rest, framed, size⟩ (prefix_refl (lists self)) room
      apply (fetch_spec represents shows).weaken
      rintro units s₃ ⟨is, same₃⟩
      rw [is, same₃, ensures_bind, ensures_defined run₁, total, ensures_defined run₂]
      exact ⟨rfl, _, holds₂⟩
  · intro e s' refused
    exact refused

end

end NginBase.Text.BasicString
