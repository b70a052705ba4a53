import NginBase.Text.BasicString

namespace NginBase.Text

open Library Library.Command Block List Nat

section

variable {n : Nat}

theorem and_heapFlag (bounded : n ≤ sizeMask) : n &&& heapFlag = 0 := by
  have small : n < 2 ^ 63 := by unfold sizeMask at bounded; omega
  rw [heapFlag, and_two_pow, testBit_lt_two_pow small]
  rfl

theorem and_sizeMask (bounded : n ≤ sizeMask) : n &&& sizeMask = n := by
  have small : n < 2 ^ 63 := by unfold sizeMask at bounded; omega
  rw [sizeMask, and_two_pow_sub_one_eq_mod, mod_eq_of_lt small]

theorem flagged_and_heapFlag : (n ||| heapFlag) &&& heapFlag = heapFlag := by
  rw [heapFlag, and_two_pow, testBit_or, testBit_two_pow_self, Bool.or_true]
  rfl

theorem flagged_and_sizeMask (bounded : n ≤ sizeMask) : (n ||| heapFlag) &&& sizeMask = n := by
  have apart : heapFlag &&& sizeMask = 0 := by rfl
  rw [and_or_distrib_right, and_sizeMask bounded, apart, or_zero]

end

namespace StringLayout

variable {C : Type} (L : StringLayout C)

theorem maxCapacity_le_sizeMask : L.maxCapacity ≤ sizeMask := min_le_right _ _

theorem quotient_pos : 0 < (2 ^ 64 - 1) / L.charBytes := by
  apply div_pos _ L.charPositive
  have := L.room
  have := L.addressable
  omega

theorem sboChars_le_maxCapacity : L.sboChars ≤ L.maxCapacity := by
  refine Nat.le_min.mpr ⟨?_, L.packed⟩
  have := L.addressable
  exact Nat.sub_le_sub_right (Nat.div_le_div_right (by omega)) 1

theorem bytes_exact {capacity : Nat} (bounded : capacity ≤ L.maxCapacity) :
    (capacity + 1) * L.charBytes % 2 ^ 64 / L.charBytes = capacity + 1 := by
  have units : capacity + 1 ≤ (2 ^ 64 - 1) / L.charBytes := by
    have := L.quotient_pos
    have := le_trans bounded (min_le_left _ _)
    omega
  have bytes : (capacity + 1) * L.charBytes ≤ 2 ^ 64 - 1 := (le_div_iff_mul_le L.charPositive).mp units
  rw [Nat.mod_eq_of_lt (by omega), Nat.mul_div_cancel _ L.charPositive]

theorem length_smallStorage : L.smallStorage.length = L.sboChars + 1 := length_replicate

end StringLayout

def StringView.units {C : Type} (lists : Nat → List C) : StringView C → Option (List C)
  | .outside units => some units
  | .within index offset n => if offset + n ≤ (lists index).length then some (((lists index).drop offset).take n) else none

theorem StringView.length_units {C : Type} {lists : Nat → List C} {view : StringView C} {shown : List C}
    (shows : view.units lists = some shown) : shown.length = view.size := by
  cases view with
  | outside units =>
    cases shows
    rfl
  | within index offset count =>
    simp only [StringView.units] at shows
    split at shows
    · cases shows
      rw [length_take, length_drop]
      show min count _ = count
      omega
    · cases shows

namespace BasicString

variable {C Alloc : Type} {L : StringLayout C} {v : BasicString C Alloc} {buffer : List C} {capacity n : Nat}

/-- The tag bit says which storage is in use, and that storage has room for a zero besides its capacity. -/
inductive Framed (L : StringLayout C) (v : BasicString C Alloc) (buffer : List C) (capacity : Nat) : Prop
  | small (storage : v.storage = .small buffer) (tag : v.isSmall = true) (length : buffer.length = L.sboChars + 1)
      (same : capacity = L.sboChars)
  | heap (storage : v.storage = .heap buffer capacity) (tag : v.isSmall = false) (length : buffer.length = capacity + 1)
      (large : L.sboChars < capacity) (bounded : capacity ≤ L.maxCapacity)

section

variable (framed : Framed L v buffer capacity)

include framed

theorem Framed.data : v.data = some buffer := by
  cases framed with
  | small storage tag length same => rw [BasicString.data, tag, smallData, storage]; rfl
  | heap storage tag length large bounded => rw [BasicString.data, tag, heapData, storage]; rfl

theorem Framed.rawCapacity : v.rawCapacity L = some capacity := by
  cases framed with
  | small storage tag length same => rw [BasicString.rawCapacity, tag, same]; rfl
  | heap storage tag length large bounded => rw [BasicString.rawCapacity, tag, heapCapacity, storage]; rfl

theorem Framed.length : buffer.length = capacity + 1 := by
  cases framed with
  | small storage tag length same => rw [length, same]
  | heap storage tag length large bounded => exact length

theorem Framed.bounded : capacity ≤ L.maxCapacity := by
  cases framed with
  | small storage tag length same => rw [same]; exact L.sboChars_le_maxCapacity
  | heap storage tag length large bounded => exact bounded

theorem Framed.sboChars_le : L.sboChars ≤ capacity := by
  cases framed with
  | small storage tag length same => rw [same]
  | heap storage tag length large bounded => exact le_of_lt large

theorem Framed.withBuffer {buffer' : List C} (same : buffer'.length = buffer.length) :
    Framed L (v.withBuffer buffer') buffer' capacity ∧ (v.withBuffer buffer').sizeAndFlags = v.sizeAndFlags := by
  cases framed with
  | small storage tag length is =>
    have unfolded : v.withBuffer buffer' = { v with storage := .small buffer' } := by rw [BasicString.withBuffer, storage]
    rw [unfolded]
    exact ⟨.small rfl tag (same.trans length) is, rfl⟩
  | heap storage tag length large bounded =>
    have unfolded : v.withBuffer buffer' = { v with storage := .heap buffer' capacity } := by
      rw [BasicString.withBuffer, storage]
    rw [unfolded]
    exact ⟨.heap rfl tag (same.trans length) large bounded, rfl⟩

theorem Framed.resize (fits : n ≤ sizeMask) :
    Framed L { v with sizeAndFlags := if v.isSmall then n else n ||| heapFlag } buffer capacity ∧
      ({ v with sizeAndFlags := if v.isSmall then n else n ||| heapFlag } : BasicString C Alloc).rawSize = n := by
  cases framed with
  | small storage tag length same =>
    rw [if_pos tag]
    refine ⟨.small storage ?_ length same, and_sizeMask fits⟩
    show (n &&& heapFlag == 0) = true
    rw [and_heapFlag fits]
    rfl
  | heap storage tag length large bounded =>
    rw [if_neg (by simp [tag])]
    refine ⟨.heap storage ?_ length large bounded, flagged_and_sizeMask fits⟩
    show ((n ||| heapFlag) &&& heapFlag == 0) = false
    rw [flagged_and_heapFlag]
    rfl

theorem Framed.writeData {offset : Nat} {units buffer' : List C} (written : write buffer offset units = some buffer') :
    ∃ v', v.writeData offset units = some v' ∧ Framed L v' buffer' capacity ∧ v'.sizeAndFlags = v.sizeAndFlags := by
  refine ⟨v.withBuffer buffer', ?_, framed.withBuffer (length_write written)⟩
  rw [BasicString.writeData, framed.data]
  show (write buffer offset units).bind _ = _
  rw [written]
  rfl

end

def HoldsIn (L : StringLayout C) (v : BasicString C Alloc) (units : List C) (capacity : Nat) : Prop :=
  ∃ rest, Framed L v (units ++ L.zero :: rest) capacity ∧ v.rawSize = units.length

def Holds (L : StringLayout C) (v : BasicString C Alloc) (units : List C) : Prop :=
  ∃ capacity, HoldsIn L v units capacity

section

variable {units : List C}

theorem Holds.rawSize (holds : Holds L v units) : v.rawSize = units.length := by
  obtain ⟨capacity, rest, framed, size⟩ := holds
  exact size

theorem Holds.length_le (holds : Holds L v units) : units.length ≤ L.maxCapacity := by
  obtain ⟨capacity, rest, framed, size⟩ := holds
  have length := framed.length
  have bounded := framed.bounded
  simp only [length_append, length_cons] at length
  omega

theorem Framed.setSize {rest : List C} {old : C} (framed : Framed L v (units ++ old :: rest) capacity) :
    ∃ v', v.setSize L units.length = some v' ∧ HoldsIn L v' units capacity := by
  have fits : units.length ≤ sizeMask := by
    have length := framed.length
    have bounded := le_trans framed.bounded L.maxCapacity_le_sizeMask
    simp only [length_append, length_cons] at length
    omega
  obtain ⟨framed', size⟩ := framed.resize fits
  have written : write (units ++ old :: rest) units.length [L.zero] = some (units ++ L.zero :: rest) := by
    have split : write (units ++ [old] ++ rest) units.length [L.zero] = some (units ++ [L.zero] ++ rest) :=
      write_append rfl
    simpa using split
  obtain ⟨v', run, framed'', flags⟩ := framed'.writeData written
  refine ⟨v', run, rest, framed'', ?_⟩
  rw [BasicString.rawSize, flags]
  exact size

theorem Holds.content (holds : Holds L v units) : v.content = some units := by
  obtain ⟨capacity, rest, framed, size⟩ := holds
  rw [BasicString.content, framed.data, size]
  exact read_append [] units (L.zero :: rest)

theorem write_zero (units rest : List C) (old : C) :
    write (units ++ old :: rest) units.length [L.zero] = some (units ++ L.zero :: rest) := by
  have split : write (units ++ [old] ++ rest) units.length [L.zero] = some (units ++ [L.zero] ++ rest) :=
    write_append rfl
  simpa using split

theorem holdsIn_small {rest : List C} (length : units.length + rest.length = L.sboChars)
    (storage : v.storage = .small (units ++ L.zero :: rest)) (flags : v.sizeAndFlags = units.length) :
    HoldsIn L v units L.sboChars := by
  have fits : units.length ≤ sizeMask := by
    have := le_trans L.sboChars_le_maxCapacity L.maxCapacity_le_sizeMask
    omega
  refine ⟨rest, .small storage ?_ ?_ rfl, ?_⟩
  · rw [isSmall, flags, and_heapFlag fits]
    rfl
  · simp only [length_append, length_cons]
    omega
  · rw [BasicString.rawSize, flags, and_sizeMask fits]

theorem holdsIn_heap {rest : List C} (length : units.length + rest.length = capacity) (large : L.sboChars < capacity)
    (bounded : capacity ≤ L.maxCapacity) (storage : v.storage = .heap (units ++ L.zero :: rest) capacity)
    (flags : v.sizeAndFlags = units.length ||| heapFlag) : HoldsIn L v units capacity := by
  have fits : units.length ≤ sizeMask := by
    have := L.maxCapacity_le_sizeMask
    omega
  refine ⟨rest, .heap storage ?_ ?_ large bounded, ?_⟩
  · rw [isSmall, flags, flagged_and_heapFlag]
    rfl
  · simp only [length_append, length_cons]
    omega
  · rw [BasicString.rawSize, flags, flagged_and_sizeMask fits]

theorem setSmallSize_eq {rest : List C} {old : C} (storage : v.storage = .small (units ++ old :: rest)) :
    v.setSmallSize L units.length =
      some { v with sizeAndFlags := units.length, storage := .small (units ++ L.zero :: rest) } := by
  simp [setSmallSize, smallData, storage, write_zero]

theorem setHeapSize_spec {rest : List C} {old : C} (length : units.length + rest.length = capacity)
    (large : L.sboChars < capacity) (bounded : capacity ≤ L.maxCapacity)
    (storage : v.storage = .heap (units ++ old :: rest) capacity) :
    ∃ v', v.setHeapSize L units.length = some v' ∧ HoldsIn L v' units capacity := by
  refine ⟨{ v with sizeAndFlags := units.length ||| heapFlag, storage := .heap (units ++ L.zero :: rest) capacity }, ?_,
    holdsIn_heap length large bounded rfl rfl⟩
  simp [setHeapSize, heapData, heapCapacity, storage, write_zero]

theorem Framed.setHeapSize {rest : List C} {old : C} (framed : Framed L v (units ++ old :: rest) capacity)
    (tag : v.isSmall = false) : ∃ v', v.setHeapSize L units.length = some v' ∧ HoldsIn L v' units capacity := by
  cases framed with
  | small storage small length same =>
    rw [tag] at small
    cases small
  | heap storage _ length large bounded =>
    refine setHeapSize_spec ?_ large bounded storage
    simp only [length_append, length_cons] at length
    omega

theorem commitHeap_spec {block : List C} {rest : List C} {old : C} (is : block = units ++ old :: rest)
    (length : block.length = capacity + 1) (large : L.sboChars < capacity) (bounded : capacity ≤ L.maxCapacity) :
    ∃ v', v.commitHeap L block capacity units.length = some v' ∧ HoldsIn L v' units capacity := by
  apply setHeapSize_spec _ large bounded
  · rw [is]
  · rw [is] at length
    simp only [length_append, length_cons] at length
    omega

theorem Framed.becomeEmptySmall (framed : Framed L v buffer capacity) :
    ∃ rest, v.becomeEmptySmall L = some { v with sizeAndFlags := 0, storage := .small (L.zero :: rest) } ∧
      rest.length = L.sboChars := by
  have emptied (block : List C) (length : block.length = L.sboChars + 1) :
      ∃ rest, ({ v with sizeAndFlags := 0, storage := .small block } : BasicString C Alloc).setSmallSize L 0 =
        some { v with sizeAndFlags := 0, storage := .small (L.zero :: rest) } ∧ rest.length = L.sboChars := by
    obtain ⟨old, rest, rfl⟩ : ∃ old rest, block = old :: rest := exists_cons_of_length_eq_add_one length
    refine ⟨rest, ?_, succ.inj length⟩
    exact @setSmallSize_eq C Alloc L _ [] rest old rfl
  unfold BasicString.becomeEmptySmall
  cases framed with
  | small storage tag length same =>
    rw [if_pos tag, storage]
    exact emptied buffer length
  | heap storage tag length large bounded =>
    rw [if_neg (by simp [tag])]
    exact emptied L.smallStorage L.length_smallStorage

theorem Framed.emptied (framed : Framed L v buffer capacity) :
    ∃ v', v.becomeEmptySmall L = some v' ∧ HoldsIn L v' [] L.sboChars := by
  obtain ⟨rest, run, length⟩ := framed.becomeEmptySmall
  exact ⟨_, run, holdsIn_small (by simpa using length) rfl rfl⟩

theorem constructed_spec (alloc : Alloc) : ∃ v, constructed L alloc = some v ∧ HoldsIn L v [] L.sboChars := by
  have framed : Framed L ({ sizeAndFlags := 0, storage := .small L.smallStorage, alloc } : BasicString C Alloc)
      L.smallStorage L.sboChars := .small rfl (by simp [isSmall]) L.length_smallStorage rfl
  exact framed.emptied

theorem Framed.commitSmall (framed : Framed L v buffer capacity) {source : List C}
    (read : read source 0 units.length = some units) (fits : units.length ≤ L.sboChars) :
    ∃ v', v.commitSmall L source units.length = some v' ∧ HoldsIn L v' units L.sboChars := by
  obtain ⟨rest, emptied, length⟩ := framed.becomeEmptySmall
  obtain ⟨remaining, written, total⟩ : ∃ remaining, write ([] ++ L.zero :: rest) 0 units = some ([] ++ units ++ remaining) ∧
      units.length + remaining.length = (L.zero :: rest).length := write_next (by simp; omega)
  obtain ⟨unit, after, rfl⟩ : ∃ unit after, remaining = unit :: after :=
    exists_cons_of_ne_nil (by rintro rfl; simp at total; omega)
  rw [nil_append] at written
  have total : units.length + after.length = L.sboChars := by
    simp only [length_cons] at total
    omega
  refine ⟨{ v with sizeAndFlags := units.length, storage := .small (units ++ L.zero :: after) }, ?_,
    holdsIn_small total rfl rfl⟩
  simp [BasicString.commitSmall, emptied, read, BasicString.writeData, BasicString.data, isSmall, smallData, written,
    BasicString.withBuffer, setSmallSize, write_zero]

theorem assemble_spec {block head middle tail : List C} (room : head.length + middle.length + tail.length < block.length) :
    ∃ rest, assemble L block head middle tail = some (head ++ middle ++ tail ++ L.zero :: rest) ∧
      (head ++ middle ++ tail ++ L.zero :: rest).length = block.length := by
  obtain ⟨after₁, first, length₁⟩ : ∃ rest, write ([] ++ block) 0 head = some ([] ++ head ++ rest) ∧
      head.length + rest.length = block.length := write_next (by omega)
  obtain ⟨after₂, second, length₂⟩ : ∃ rest, write (head ++ after₁) head.length middle =
      some (head ++ middle ++ rest) ∧ middle.length + rest.length = after₁.length := write_next (by omega)
  obtain ⟨after₃, third, length₃⟩ : ∃ rest, write (head ++ middle ++ after₂) (head ++ middle).length tail =
      some (head ++ middle ++ tail ++ rest) ∧ tail.length + rest.length = after₂.length := write_next (by omega)
  obtain ⟨after₄, fourth, length₄⟩ : ∃ rest,
      write (head ++ middle ++ tail ++ after₃) (head ++ middle ++ tail).length [L.zero] =
        some (head ++ middle ++ tail ++ [L.zero] ++ rest) ∧ [L.zero].length + rest.length = after₃.length :=
    write_next (by simp only [length_singleton]; omega)
  rw [nil_append, nil_append] at first
  rw [length_append] at third
  rw [length_append, length_append] at fourth
  refine ⟨after₄, ?_, ?_⟩
  · simp only [assemble, first, second, third, fourth, Option.bind_eq_bind, Option.bind_some]
    simp
  · simp only [length_append, length_cons, length_nil] at *
    omega

theorem stage_spec (fits : units.length ≤ L.sboChars) :
    ∃ staged, stage L units = some staged ∧ read staged 0 units.length = some units := by
  obtain ⟨after₁, first, length₁⟩ : ∃ rest, write ([] ++ L.smallStorage) 0 units = some ([] ++ units ++ rest) ∧
      units.length + rest.length = L.smallStorage.length := write_next (by rw [L.length_smallStorage]; omega)
  rw [L.length_smallStorage] at length₁
  obtain ⟨after₂, second, -⟩ : ∃ rest, write (units ++ after₁) units.length [L.zero] =
      some (units ++ [L.zero] ++ rest) ∧ [L.zero].length + rest.length = after₁.length :=
    write_next (by simp only [length_singleton]; omega)
  rw [nil_append] at first
  refine ⟨units ++ [L.zero] ++ after₂, by simp [stage, first, second], ?_⟩
  rw [append_assoc]
  exact read_append [] units _

end

section

variable {β : Type} {grants : Grants C} {s : Strings C Alloc} {failed : StringException → Strings C Alloc → Prop}

@[simp] theorem ensures_current {post : BasicString C Alloc → Strings C Alloc → Prop} (self : Nat) :
    Ensures (current self) s post failed ↔ post (s.strings self) s := by
  unfold current
  simp

@[simp] theorem ensures_store {post : Unit → Strings C Alloc → Prop} (self : Nat) (v : BasicString C Alloc) :
    Ensures (store self v) s post failed ↔ post () { s with strings := Function.update s.strings self v } := Iff.rfl

theorem ensures_defined {post : β → Strings C Alloc → Prop} {result : Option β} {x : β} (is : result = some x) :
    Ensures (defined result) s post failed ↔ post x s := by
  rw [is]
  exact ensures_pure x

def Refused (L : StringLayout C) (grants : Grants C) (need : Nat) (s : Strings C Alloc) (e : StringException)
    (s' : Strings C Alloc) : Prop :=
  ((e = .badAlloc ∧ ∃ request bytes, grants request bytes = none) ∨
    (∃ what, e = .lengthError what) ∧ L.maxCapacity < need) ∧ s'.strings = s.strings

theorem Refused.of_same {s₁ s' : Strings C Alloc} {e : StringException} {need : Nat} (same : s₁.strings = s.strings)
    (refused : Refused L grants need s₁ e s') : Refused L grants need s e s' := ⟨refused.1, refused.2.trans same⟩

theorem Refused.of_le {s' : Strings C Alloc} {e : StringException} {need more : Nat} (le : need ≤ more)
    (refused : Refused L grants need s e s') : Refused L grants more s e s' := by
  refine ⟨?_, refused.2⟩
  rcases refused.1 with memory | ⟨length, large⟩
  · exact .inl memory
  · exact .inr ⟨length, lt_of_lt_of_le large le⟩

theorem Refused.of_bounded {s' : Strings C Alloc} {e : StringException} {need any : Nat} (bounded : need ≤ L.maxCapacity)
    (refused : Refused L grants need s e s') : Refused L grants any s e s' := by
  refine ⟨?_, refused.2⟩
  rcases refused.1 with memory | ⟨_, large⟩
  · exact .inl memory
  · exact absurd large (Nat.not_lt_of_le bounded)

theorem checkedGrow_spec (oldCap required : Nat) :
    Ensures (checkedGrow L oldCap required) s (fun grown s' => s' = s ∧ required ≤ grown ∧ grown ≤ L.maxCapacity)
      (Refused L grants required s) := by
  unfold checkedGrow
  split
  · rename_i large
    exact ⟨.inr ⟨⟨_, rfl⟩, large⟩, rfl⟩
  refine ⟨rfl, ?_, ?_⟩
  · repeat' split
    all_goals omega
  · repeat' split
    all_goals omega

theorem checkedAppendSize_spec {lhs : Nat} (rhs : Nat) (bounded : lhs ≤ L.maxCapacity) :
    Ensures (checkedAppendSize L lhs rhs) s (fun size s' => s' = s ∧ size = lhs + rhs ∧ size ≤ L.maxCapacity)
      (Refused L grants (lhs + rhs) s) := by
  have fits : L.maxCapacity < 2 ^ 64 := by
    have := L.maxCapacity_le_sizeMask
    unfold sizeMask at this
    omega
  unfold checkedAppendSize
  split
  · exact ⟨.inr ⟨⟨_, rfl⟩, by omega⟩, rfl⟩
  · refine ⟨rfl, ?_⟩
    omega

theorem allocateWith_spec (capacity : Nat) : Ensures (allocateWith L grants capacity) s
      (fun block s' => s'.strings = s.strings ∧ block.length = capacity + 1 ∧ capacity ≤ L.maxCapacity)
      (Refused L grants capacity s) := by
  unfold allocateWith validateCapacity
  split
  · rename_i large
    exact ⟨.inr ⟨⟨_, rfl⟩, large⟩, rfl⟩
  rename_i bounded
  have bounded : capacity ≤ L.maxCapacity := Nat.le_of_not_lt bounded
  simp only [ensures_bind, ensures_pure, ensures_get]
  split
  · refine ⟨rfl, ?_, bounded⟩
    rw [length_map, length_range, L.bytes_exact bounded]
  · rename_i refused
    exact ⟨.inl ⟨rfl, _, _, refused⟩, rfl⟩

end

end BasicString

end NginBase.Text
