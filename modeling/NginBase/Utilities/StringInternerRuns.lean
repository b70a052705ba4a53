import NginBase.Utilities.StringTable

namespace NginBase.Utilities

open Library Function List StringInterner

/-- An interner, with the calls of `InsertOrGet` since it was last cleared: the strings and what was returned for them. -/
structure Interned where
  interner : StringInterner := {}
  log : List (Bytes × Nat) := []

namespace Interned

inductive Step (hashOf : Bytes → UInt64) : (Nat → Interned) → (Nat → Interned) → Prop
  | insertOrGet {w : Nat → Interned} {i id : Nat} {content : Nat → UInt8} {value : Bytes} {x : StringInterner}
      (short : value.length < 2 ^ 32 - 1)
      (runs : (w i).interner.insertOrGet hashOf (some content) value = some (id, x))
      (few : x.entries.length < 2 ^ 32 - 1) :
      Step hashOf w (update w i { interner := x, log := (w i).log ++ [(value, id)] })
  | clear {w : Nat → Interned} (i : Nat) : Step hashOf w (update w i { interner := (w i).interner.clear, log := [] })
  | move {w : Nat → Interned} {i j : Nat} (different : i ≠ j) :
      Step hashOf w (update
        (update w i { interner := (w j).interner.moveFrom.1, log := (w j).log })
        j { interner := (w j).interner.moveFrom.2, log := [] })

def Reachable (hashOf : Bytes → UInt64) (w : Nat → Interned) : Prop :=
  Relation.ReflTransGen (Step hashOf) (fun _ => {}) w

structure Bijective (hashOf : Bytes → UInt64) (x : StringInterner) (log : List (Bytes × Nat)) : Prop where
  injective : ∀ p ∈ log, ∀ q ∈ log, p.2 = q.2 ↔ p.1 = q.1
  /-- In order of first insertion, the identifiers are the numbers from 0 on. -/
  dense : (log.map Prod.snd).eraseDups = range x.entries.length
  views : ∀ p ∈ log, x.view p.2 = some p.1
  lookups : ∀ value, ∃ r, x.tryGetId hashOf value = some r ∧ ∀ id, r = some id ↔ (value, id) ∈ log
  /-- No access is outside a page, so the call has a result. -/
  total : ∀ content value, value.length < 2 ^ 32 - 1 → ∃ result, x.insertOrGet hashOf (some content) value = some result
  inside : ∀ e ∈ x.entries, ∃ page, x.pages[e.page]? = some page ∧ e.stop ≤ page.capacity ∧ page.data.length = page.capacity
  disjoint : x.entries.Pairwise fun e e' => e.page ≠ e'.page ∨ e.stop ≤ e'.offset ∨ e'.stop ≤ e.offset

variable {hashOf : Bytes → UInt64} {x : StringInterner} {log : List (Bytes × Nat)}

/-- The table lists the strings of the log in order of first insertion. -/
structure Logged (log : List (Bytes × Nat)) (table : List Bytes) : Prop where
  pairs : ∀ value id, (value, id) ∈ log ↔ table[id]? = some value
  order : (log.map Prod.snd).eraseDups = range table.length

theorem Logged.empty : Logged [] [] := ⟨by simp, rfl⟩

theorem eraseDups_concat {α : Type} [DecidableEq α] (l : List α) (a : α) :
    (l ++ [a]).eraseDups = if a ∈ l then l.eraseDups else l.eraseDups ++ [a] := by
  rw [eraseDups_append]
  split
  · rename_i mem
    simp [removeAll, mem]
  · rename_i fresh
    simp [removeAll, fresh, eraseDups_cons]

theorem Logged.again {table : List Bytes} (logged : Logged log table) {value : Bytes} {id : Nat}
    (here : table[id]? = some value) : Logged (log ++ [(value, id)]) table := by
  have known := (logged.pairs value id).mpr here
  refine ⟨?_, ?_⟩
  · intro value' id'
    rw [mem_append, mem_singleton, logged.pairs]
    constructor
    · rintro (there | ⟨rfl, rfl⟩)
      · exact there
      · exact here
    · exact .inl
  · rw [map_append, map_singleton, eraseDups_concat, if_pos (mem_map_of_mem known), logged.order]

theorem Logged.new {table : List Bytes} (logged : Logged log table) (value : Bytes) :
    Logged (log ++ [(value, table.length)]) (table ++ [value]) := by
  refine ⟨?_, ?_⟩
  · intro value' id'
    rw [mem_append, mem_singleton, Prod.mk.injEq, logged.pairs, getElem?_concat_iff]
    constructor
    · rintro (there | ⟨rfl, rfl⟩)
      · exact .inl there
      · exact .inr ⟨rfl, rfl⟩
    · rintro (there | ⟨rfl, rfl⟩)
      · exact .inl there
      · exact .inr ⟨rfl, rfl⟩
  · have fresh : table.length ∉ log.map Prod.snd := by
      intro mem
      rw [← mem_eraseDups, logged.order, mem_range] at mem
      exact Nat.lt_irrefl _ mem
    rw [map_append, map_singleton, eraseDups_concat, if_neg fresh, logged.order, length_append,
      length_singleton, range_succ]

def Consistent (hashOf : Bytes → UInt64) (i : Interned) : Prop :=
  ∃ table, Holds hashOf i.interner table ∧ Logged i.log table

theorem Consistent.empty (hashOf : Bytes → UInt64) : Consistent hashOf {} := ⟨[], .empty hashOf, .empty⟩

theorem Consistent.insertOrGet {before : Interned} (consistent : Consistent hashOf before) {content : Nat → UInt8}
    {value : Bytes} {id : Nat} (short : value.length < 2 ^ 32 - 1)
    (runs : before.interner.insertOrGet hashOf (some content) value = some (id, x)) (few : x.entries.length < 2 ^ 32 - 1) :
    Consistent hashOf { interner := x, log := before.log ++ [(value, id)] } := by
  obtain ⟨table, holds, logged⟩ := consistent
  obtain ⟨id', x', runs', after⟩ := insertOrGet_spec holds content short
  rw [runs] at runs'
  cases runs'
  rcases after with ⟨rfl, here⟩ | ⟨-, rfl, size, holds'⟩
  · exact ⟨table, holds, logged.again here⟩
  · exact ⟨table ++ [value], holds' (by rw [← size]; exact few), logged.new value⟩

theorem step_consistent {w w' : Nat → Interned} (consistent : ∀ i, Consistent hashOf (w i)) (step : Step hashOf w w') :
    ∀ i, Consistent hashOf (w' i) := by
  intro i
  cases step with
  | insertOrGet short runs few =>
    rename_i k _ _ _ _
    by_cases same : i = k
    · subst same
      rw [update_self]
      exact (consistent i).insertOrGet short runs few
    · rw [update_of_ne same]
      exact consistent i
  | clear k =>
    by_cases same : i = k
    · subst same
      rw [update_self]
      exact .empty hashOf
    · rw [update_of_ne same]
      exact consistent i
  | move different =>
    rename_i k j
    by_cases source : i = j
    · subst source
      rw [update_self]
      exact .empty hashOf
    · rw [update_of_ne source]
      by_cases target : i = k
      · subst target
        rw [update_self]
        exact consistent j
      · rw [update_of_ne target]
        exact consistent i

theorem reachable_consistent {w : Nat → Interned} (reachable : Reachable hashOf w) : ∀ i, Consistent hashOf (w i) := by
  induction reachable with
  | refl => exact fun _ => .empty hashOf
  | tail _ step ih => exact step_consistent ih step

theorem bijective_of_holds {table : List Bytes} (holds : Holds hashOf x table) (logged : Logged log table) :
    Bijective hashOf x log := by
  refine ⟨?_, ?_, ?_, ?_, ?_, ?_, ?_⟩
  · intro ⟨value, id⟩ mem ⟨value', id'⟩ mem'
    have here := (logged.pairs value id).mp mem
    have here' := (logged.pairs value' id').mp mem'
    constructor
    · rintro rfl
      exact Option.some.inj (here.symm.trans here')
    · rintro rfl
      have inside := (List.getElem?_eq_some_iff.mp here).1
      exact (getElem?_inj inside holds.distinct).mp (here.trans here'.symm)
  · rw [logged.order, holds.size]
  · intro ⟨value, id⟩ mem
    obtain ⟨entry, isEntry, stored⟩ := holds.entry ((logged.pairs value id).mp mem)
    unfold view
    rw [getEntry_eq holds, isEntry]
    exact stored.read
  · intro value
    obtain ⟨r, finds, found⟩ := findId_spec holds value
    refine ⟨r, finds, ?_⟩
    intro id
    rw [found, logged.pairs]
  · intro content value short
    obtain ⟨id, x', runs, -⟩ := insertOrGet_spec holds content short
    exact ⟨_, runs⟩
  · intro e mem
    obtain ⟨id, isEntry⟩ := mem_iff_getElem?.mp mem
    obtain ⟨s, -, stored⟩ := holds.stored id e isEntry
    obtain ⟨page, here, stop, -⟩ := stored.placed
    have valid := holds.pages page (mem_of_getElem? here)
    exact ⟨page, here, Nat.le_trans stop valid.used_le, valid.block⟩
  · apply holds.apart.imp
    intro e e' before
    rcases before with lower | ⟨-, below⟩
    · exact .inl (Nat.ne_of_lt lower)
    · exact .inr (.inl below)

/-- In every run of any number of interners. -/
theorem interners_bijective (hashOf : Bytes → UInt64) (w : Nat → Interned) (reachable : Reachable hashOf w) (i : Nat) :
    Bijective hashOf (w i).interner (w i).log := by
  obtain ⟨table, holds, logged⟩ := reachable_consistent reachable i
  exact bijective_of_holds holds logged

theorem interners_bijective_inserted : ∃ w, Reachable (fun _ => 0) w ∧ (w 0).log = [([0x61], 0)] ∧
    (w 0).interner.view 0 = some [0x61] := by
  have short : ([0x61] : Bytes).length < 2 ^ 32 - 1 := by decide
  have empty : Holds (fun _ => 0) {} [] := .empty _
  obtain ⟨id, x, runs, after⟩ := insertOrGet_spec empty (fun _ => 0) short
  rcases after with ⟨-, here⟩ | ⟨-, rfl, size, -⟩
  · cases here
  have few : x.entries.length < 2 ^ 32 - 1 := by
    rw [size]
    decide
  let before : Nat → Interned := fun _ => {}
  let w := update before 0 { interner := x, log := [([0x61], 0)] }
  have reachable : Reachable (fun _ => 0) w := .single (.insertOrGet short runs few)
  have log : (w 0).log = [([0x61], 0)] := rfl
  have bijective := interners_bijective _ w reachable 0
  exact ⟨w, reachable, log, bijective.views ([0x61], 0) (by rw [log]; exact mem_singleton_self _)⟩

end Interned

end NginBase.Utilities
