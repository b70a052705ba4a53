import NginBase.Utilities.StringTable

namespace NginBase.Utilities.StringInterner

open Library List Nat

variable {x x' : StringInterner} {hashOf : Bytes → UInt64}

/-- The states of an interner, whatever is interned. Allocation of a page may fail. -/
inductive Reachable (hashOf : Bytes → UInt64) : StringInterner → Prop
  | empty : Reachable hashOf {}
  | insertOrGet {x x' : StringInterner} {memory : Option (Nat → UInt8)} {value : Bytes} {id : Nat} (before : Reachable hashOf x)
      (runs : x.insertOrGet hashOf memory value = some (id, x')) : Reachable hashOf x'
  | clear {x : StringInterner} (before : Reachable hashOf x) : Reachable hashOf x.clear
  | target {x : StringInterner} (before : Reachable hashOf x) : Reachable hashOf x.moveFrom.1
  | source {x : StringInterner} (before : Reachable hashOf x) : Reachable hashOf x.moveFrom.2

/-- What holds of strings of any length and of any number of them. Only the first `2 ^ 32` entries are known to be where
    they say, and no identifier is larger. -/
structure Stable (x : StringInterner) : Prop where
  pages : ∀ page ∈ x.pages, page.Valid
  pages_le : x.pages.length ≤ x.entries.length
  next : x.nextPageCapacity < 2 ^ 32
  stored : ∀ id < 2 ^ 32, ∀ entry, x.entries[id]? = some entry → ∃ s, x.Stored entry s
  ids : ∀ h, ∀ id ∈ (x.buckets h).getD [], id < 2 ^ 32

theorem Stable.empty : Stable {} where
  pages := forall_mem_nil _
  pages_le := le_refl _
  next := by decide
  stored id _ entry here := by simp at here
  ids h := forall_mem_nil _

theorem getEntry_some {id : Nat} {entry : Entry} :
    x.getEntry id = some entry ↔ id ≠ invalidId ∧ x.entries[id]? = some entry := by
  unfold getEntry
  split
  · rename_i outside
    simp only [reduceCtorEq, false_iff, not_and]
    intro valid here
    have inside := (List.getElem?_eq_some_iff.mp here).1
    exact absurd inside (not_lt.mpr (outside.resolve_left valid))
  · rename_i inside
    simp only [not_or] at inside
    exact ⟨fun here => ⟨inside.1, here⟩, And.right⟩

theorem view_entry {id : Nat} {entry : Entry} {s : Bytes} (valid : id ≠ invalidId) (here : x.entries[id]? = some entry)
    (stored : x.Stored entry s) : x.view id = some s := by
  unfold view
  rw [getEntry_some.mpr ⟨valid, here⟩]
  exact stored.read

theorem Stable.findIn (stable : Stable x) (value : Bytes) (ids : List Nat) (small : ∀ id ∈ ids, id < 2 ^ 32) :
    ∃ r, x.findIn value ids = some r ∧ ∀ id, r = some id → id ≠ invalidId ∧ x.view id = some value := by
  induction ids with
  | nil => exact ⟨none, rfl, fun id none_ => by cases none_⟩
  | cons candidate rest hyp =>
    have later := hyp fun id mem => small id (mem_cons_of_mem _ mem)
    unfold StringInterner.findIn
    cases isEntry : x.getEntry candidate with
    | none => exact later
    | some entry =>
      obtain ⟨valid, here⟩ := getEntry_some.mp isEntry
      obtain ⟨s, stored⟩ := stable.stored candidate (small candidate mem_cons_self) entry here
      have viewed := view_entry valid here stored
      dsimp only
      by_cases lengths : entry.length = value.length
      · rw [if_pos lengths]
        by_cases empty : value = []
        · have same : s = value := by
            rw [stored.length, empty] at lengths
            rw [empty]
            exact eq_nil_of_length_eq_zero lengths
          rw [if_pos empty]
          refine ⟨some candidate, rfl, ?_⟩
          intro id is
          cases is
          exact ⟨valid, viewed.trans (congrArg some same)⟩
        · rw [if_neg empty, stored.read]
          by_cases same : s = value
          · subst same
            refine ⟨some candidate, by simp, ?_⟩
            intro id is
            cases is
            exact ⟨valid, viewed⟩
          · simpa [same] using later
      · rw [if_neg lengths]
        exact later

theorem Stable.findId (stable : Stable x) (hash : UInt64) (value : Bytes) :
    ∃ r, x.findId hash value = some r ∧ ∀ id, r = some id → id ≠ invalidId ∧ x.view id = some value := by
  have small := stable.ids hash
  unfold StringInterner.findId
  cases bucket : x.buckets hash with
  | none => exact ⟨none, rfl, fun id none_ => by cases none_⟩
  | some ids =>
    rw [bucket] at small
    exact stable.findIn value ids small

section

variable {value : Bytes}

inductive Outcome (hashOf : Bytes → UInt64) (x : StringInterner) (value : Bytes) : Nat → StringInterner → Prop
  | found {id : Nat} (finds : x.findId (hashOf value) value = some (some id)) (valid : id ≠ invalidId)
      (viewed : x.view id = some value) : Outcome hashOf x value id x
  -- one more than the length is 0 in 32 bits
  | refused (new : x.findId (hashOf value) value = some none) (wraps : value.length % 2 ^ 32 = 2 ^ 32 - 1) :
      Outcome hashOf x value invalidId x
  | stored {x' : StringInterner} (new : x.findId (hashOf value) value = some none)
      (fits : value.length % 2 ^ 32 ≠ 2 ^ 32 - 1) (size : x'.entries.length = x.entries.length + 1)
      (kept : ∀ id < x.entries.length, id < 2 ^ 32 → x'.view id = x.view id)
      (cut : x.entries.length < 2 ^ 32 - 1 → x'.view x.entries.length = some (value.take (value.length % 2 ^ 32))) :
      Outcome hashOf x value (x.entries.length % 2 ^ 32) x'

theorem Inserted.stable {allocated_ x'' : StringInterner} {hash : UInt64} {storage : Nat} {entry : Entry} (stable : Stable x)
    (grown : allocated_.pages.length ≤ x.pages.length + 1) (inserted : Inserted x allocated_ x'' hash value storage entry) :
    Stable x'' := by
  have pages_le := stable.pages_le
  refine ⟨inserted.pages, ?_, inserted.next, ?_, ?_⟩
  · rw [inserted.count, inserted.entries, length_append, length_singleton]
    omega
  · intro id small e here
    rw [inserted.entries] at here
    rcases getElem?_concat_iff.mp here with here | ⟨rfl, rfl⟩
    · obtain ⟨s, stored⟩ := stable.stored id small e here
      exact ⟨s, (inserted.old e s stored).1⟩
    · exact ⟨_, (inserted.new (by omega)).1⟩
  · intro h id mem
    rw [inserted.buckets] at mem
    by_cases same : h = hash
    · subst same
      rw [Function.update_self, Option.getD_some, mem_append, mem_singleton] at mem
      rcases mem with mem | rfl
      · exact stable.ids h id mem
      · exact mod_lt _ (by decide)
    · rw [Function.update_of_ne same] at mem
      exact stable.ids h id mem

theorem Inserted.outcome {allocated_ x'' : StringInterner} {storage : Nat} {entry : Entry} (stable : Stable x)
    (grown : allocated_.pages.length ≤ x.pages.length + 1)
    (inserted : Inserted x allocated_ x'' (hashOf value) value storage entry)
    (new : x.findId (hashOf value) value = some none) (fits : value.length % 2 ^ 32 ≠ 2 ^ 32 - 1) :
    Outcome hashOf x value (x.entries.length % 2 ^ 32) x'' := by
  have pages_le := stable.pages_le
  refine .stored new fits (by rw [inserted.entries]; exact length_append) ?_ ?_
  · intro id inside small
    have here := getElem?_eq_getElem inside
    obtain ⟨s, stored⟩ := stable.stored id small _ here
    by_cases valid : id = invalidId
    · unfold view getEntry
      rw [if_pos (.inl valid), if_pos (.inl valid)]
    · rw [view_entry valid here stored]
      exact view_entry valid (by rw [inserted.entries, getElem?_append_left inside, here]) (inserted.old _ s stored).1
  · intro few
    refine view_entry ?_ ?_ (inserted.new (by omega)).1
    · unfold invalidId
      omega
    · rw [inserted.entries]
      exact getElem?_concat_length

theorem insertOrGet_outcome (hashOf : Bytes → UInt64) (stable : Stable x) (content : Nat → UInt8) (value : Bytes) :
    ∃ id x', x.insertOrGet hashOf (some content) value = some (id, x') ∧ Outcome hashOf x value id x' ∧ Stable x' := by
  obtain ⟨r, finds, found⟩ := stable.findId (hashOf value) value
  unfold insertOrGet
  simp only [finds]
  cases r with
  | some id =>
    obtain ⟨valid, viewed⟩ := found id rfl
    exact ⟨id, x, rfl, .found finds valid viewed, stable⟩
  | none =>
    by_cases wraps : value.length % 2 ^ 32 = 2 ^ 32 - 1
    · have nothing : (value.length % 2 ^ 32 + 1) % 2 ^ 32 = 0 := by
        rw [wraps]
        rfl
      rw [nothing]
      exact ⟨invalidId, x, rfl, .refused finds wraps, stable⟩
    · have fits : value.length % 2 ^ 32 + 1 < 2 ^ 32 := by omega
      rw [mod_eq_of_lt fits]
      obtain ⟨allocated_, storage, allocates, allocated⟩ :=
        allocateBytes_spec stable.pages content (succ_pos (value.length % 2 ^ 32)) fits stable.next
      obtain ⟨x'', entry, result, inserted⟩ := insertAt_inserted (hashOf value) fits allocated
      rw [allocates]
      exact ⟨_, x'', result, inserted.outcome stable allocated.length_le finds wraps, inserted.stable stable allocated.length_le⟩

theorem allocateBytes_memoryless (content : Nat → UInt8) (byteCount : Nat) :
    x.allocateBytes none byteCount = x.allocateBytes (some content) byteCount ∨ x.allocateBytes none byteCount = none := by
  unfold allocateBytes
  split
  · exact .inl rfl
  · split
    · exact .inr rfl
    · exact .inl rfl

theorem insertOrGet_memoryless (content : Nat → UInt8) (value : Bytes) :
    x.insertOrGet hashOf none value = x.insertOrGet hashOf (some content) value ∨
      x.insertOrGet hashOf none value = some (invalidId, x) := by
  unfold insertOrGet
  cases x.findId (hashOf value) value with
  | none => exact .inl rfl
  | some r =>
    cases r with
    | some id => exact .inl rfl
    | none =>
      rcases allocateBytes_memoryless (x := x) content ((value.length % 2 ^ 32 + 1) % 2 ^ 32) with same | refused
      · exact .inl (by rw [same])
      · exact .inr (by rw [refused]; rfl)

theorem insertOrGet_stable (stable : Stable x) {memory : Option (Nat → UInt8)} {id : Nat}
    (runs : x.insertOrGet hashOf memory value = some (id, x')) : Stable x' := by
  have withMemory : ∀ content, x.insertOrGet hashOf (some content) value = some (id, x') → Stable x' := by
    intro content runs
    obtain ⟨id', x'', runs', -, stable'⟩ := insertOrGet_outcome hashOf stable content value
    rw [runs] at runs'
    cases runs'
    exact stable'
  cases memory with
  | some content => exact withMemory content runs
  | none =>
    rcases insertOrGet_memoryless (fun _ => 0) value with same | refused
    · exact withMemory _ (same.symm.trans runs)
    · rw [runs] at refused
      cases refused
      exact stable

theorem Reachable.stable (reachable : Reachable hashOf x) : Stable x := by
  induction reachable with
  | empty => exact .empty
  | insertOrGet _ runs hyp => exact insertOrGet_stable hyp runs
  | clear _ _ => exact .empty
  | target _ hyp => exact hyp
  | source _ _ => exact .empty

end

section

variable {value : Bytes} {id : Nat}

structure Unchanged (hashOf : Bytes → UInt64) (x x' : StringInterner) : Prop where
  size : x'.entries.length = x.entries.length
  views : ∀ id < 2 ^ 32, x'.view id = x.view id
  lookups : ∀ value, x'.tryGetId hashOf value = x.tryGetId hashOf value

def Whole (hashOf : Bytes → UInt64) (x x' : StringInterner) (value : Bytes) (id : Nat) : Prop :=
  id = invalidId ∧ Unchanged hashOf x x' ∨ id ≠ invalidId ∧ x'.view id = some value

/-- The string is known, or it is as long as the one length that is refused, or neither its length nor the number of
    entries leaves 32 bits, or the reduced identifier happens to be that of an entry with the same text. -/
def Storable (hashOf : Bytes → UInt64) (x : StringInterner) (value : Bytes) : Prop :=
  (∃ id, x.tryGetId hashOf value = some (some id)) ∨ value.length % 2 ^ 32 = 2 ^ 32 - 1 ∨
    (value.length < 2 ^ 32 ∧ x.entries.length < 2 ^ 32 - 1) ∨
    (2 ^ 32 ≤ x.entries.length ∧ x.entries.length % 2 ^ 32 ≠ invalidId ∧ x.view (x.entries.length % 2 ^ 32) = some value)

theorem take_mod_eq (value : Bytes) : value.take (value.length % 2 ^ 32) = value ↔ value.length < 2 ^ 32 := by
  constructor
  · intro whole
    have length := congrArg length whole
    rw [length_take] at length
    omega
  · intro short
    rw [mod_eq_of_lt short, take_length]

theorem Outcome.whole_iff (outcome : Outcome hashOf x value id x') : Whole hashOf x x' value id ↔ Storable hashOf x value := by
  cases outcome with
  | found finds valid viewed => exact iff_of_true (.inr ⟨valid, viewed⟩) (.inl ⟨_, finds⟩)
  | refused new wraps => exact iff_of_true (.inl ⟨rfl, rfl, fun _ _ => rfl, fun _ => rfl⟩) (.inr (.inl wraps))
  | stored new fits size kept cut =>
    have unknown : ¬∃ id, x.tryGetId hashOf value = some (some id) := by
      rintro ⟨id, finds⟩
      have := new.symm.trans finds
      simp at this
    have changed : ¬Unchanged hashOf x x' := by
      intro unchanged
      have := unchanged.size
      omega
    simp only [Whole, Storable, changed, unknown, fits, and_false, false_or]
    by_cases few : x.entries.length < 2 ^ 32 - 1
    · have number : x.entries.length % 2 ^ 32 = x.entries.length := mod_eq_of_lt (by omega)
      have valid : x.entries.length ≠ invalidId := Nat.ne_of_lt few
      have crowded : ¬2 ^ 32 ≤ x.entries.length := by omega
      simp only [number, valid, cut few, few, crowded, Option.some.injEq, take_mod_eq, ne_eq, not_false_eq_true, true_and,
        and_true, false_and, or_false]
    · simp only [few, and_false, false_or]
      by_cases invalid : x.entries.length % 2 ^ 32 = invalidId
      · simp only [invalid, ne_eq, not_true_eq_false, false_and, and_false]
      have crowded : 2 ^ 32 ≤ x.entries.length := by
        unfold invalidId at invalid
        by_contra below
        omega
      have small : x.entries.length % 2 ^ 32 < 2 ^ 32 := mod_lt _ (by decide)
      rw [kept _ (by omega) small]
      simp only [crowded, true_and]

/-- In every state and for every string, exactly the storable ones are stored whole or refused without a trace. -/
theorem insertOrGet_whole_iff (hashOf : Bytes → UInt64) {x : StringInterner} (reachable : Reachable hashOf x) (content : Nat → UInt8) (value : Bytes) :
    ∃ id x', x.insertOrGet hashOf (some content) value = some (id, x') ∧
      (Whole hashOf x x' value id ↔ Storable hashOf x value) := by
  obtain ⟨id, x', runs, outcome, -⟩ := insertOrGet_outcome hashOf reachable.stable content value
  exact ⟨id, x', runs, outcome.whole_iff⟩

theorem insertOrGet_whole_iff_empty : ∃ id x', ({} : StringInterner).insertOrGet (fun _ => 0) (some fun _ => 0) [0x61] = some (id, x') ∧
    Whole (fun _ => 0) {} x' [0x61] id := by
  obtain ⟨id, x', runs, iff⟩ := insertOrGet_whole_iff (fun _ => 0) .empty (fun _ => 0) [0x61]
  exact ⟨id, x', runs, iff.mpr (.inr (.inr (.inl ⟨by decide, by decide⟩)))⟩

theorem insertOrGet_truncated : ¬∀ (hashOf : Bytes → UInt64) (x : StringInterner), Reachable hashOf x →
    ∀ (content : Nat → UInt8) (value : Bytes), value.length < 2 ^ 64 →
      ∃ id x', x.insertOrGet hashOf (some content) value = some (id, x') ∧ Whole hashOf x x' value id := by
  intro all
  obtain ⟨n, is⟩ : ∃ n, n = 2 ^ 32 + 1 := ⟨_, rfl⟩
  let value : Bytes := replicate n 0x61
  have length : value.length = 2 ^ 32 + 1 := by rw [length_replicate, is]
  obtain ⟨id, x', runs, whole⟩ := all (fun _ => 0) {} .empty (fun _ => 0) value (by rw [length]; decide)
  obtain ⟨id', x'', runs', outcome, -⟩ := insertOrGet_outcome (fun _ => 0) .empty (fun _ => 0) value
  rw [runs] at runs'
  cases runs'
  rcases outcome.whole_iff.mp whole with ⟨_, finds⟩ | wraps | ⟨short, -⟩ | ⟨crowded, -⟩
  · simp [tryGetId, findId] at finds
  · rw [length] at wraps
    exact absurd wraps (by decide)
  · rw [length] at short
    exact absurd short (by decide)
  · exact absurd crowded (by decide)

end

end NginBase.Utilities.StringInterner
