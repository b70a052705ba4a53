import Mathlib

namespace Library

open List Option

/-! Objects in raw storage. A slot holds a living object or none; the operations are undefined where they would
    read a slot without an object, or lose an object that has to be destroyed. -/

/-- The operations of a type of objects. A move says what it makes and what it leaves behind. Copies and moves
    make an object of the value they are given. -/
structure ObjectType (α : Type) where
  bytes : Nat
  bitwise : Bool
  trivialDestructor : Bool
  nothrowMove : Bool
  copyConstructible : Bool
  copy : α → α
  move : α → α × α
  copyAssign : α → α → α
  moveAssign : α → α → α × α
  bytes_pos : 0 < bytes
  trivial_of_bitwise : bitwise = true → trivialDestructor = true
  copy_eq : ∀ x, copy x = x
  move_eq : ∀ x, (move x).1 = x
  copyAssign_eq : ∀ target x, copyAssign target x = x
  moveAssign_eq : ∀ target x, (moveAssign target x).1 = x

abbrev Storage (α : Type) := List (Option α)

inductive Transfer
  | bytes
  | moves
  | copies
  deriving DecidableEq

namespace ObjectType

variable {α : Type} (T : ObjectType α)

def alive (slots : Storage α) (i : Nat) : Option α := (slots[i]?).join

def construct (slots : Storage α) (i : Nat) (x : α) : Option (Storage α) :=
  match slots[i]? with
  | none => none
  | some none => some (slots.set i (some x))
  | some (some _) => if T.trivialDestructor then some (slots.set i (some x)) else none

def destroy (slots : Storage α) (i : Nat) : Option (Storage α) :=
  match slots[i]? with
  | some (some _) => some (slots.set i none)
  | _ => none

def destroyLoop : Nat → Nat → Storage α → Option (Storage α)
  | 0, _, slots => some slots
  | count + 1, i, slots => (destroy slots i).bind (destroyLoop count (i + 1))

/-- Destroy `count` objects from `start` on, unless there is nothing to do for them. -/
def destroyRange (slots : Storage α) (start count : Nat) : Option (Storage α) :=
  if T.trivialDestructor then some slots else destroyLoop count start slots

def moveConstruct (slots : Storage α) (target source : Nat) : Option (Storage α) :=
  (alive slots source).bind fun x => T.construct (slots.set source (some (T.move x).2)) target (T.move x).1

def moveOnto (slots : Storage α) (target source : Nat) : Option (Storage α) :=
  (alive slots source).bind fun x =>
    (alive slots target).bind fun old =>
      some ((slots.set source (some (T.moveAssign old x).2)).set target (some (T.moveAssign old x).1))

/-- Move each object one place up, from `i` down to the one after `index`. -/
def shiftRight (index : Nat) : Nat → Storage α → Option (Storage α)
  | 0, slots => some slots
  | i + 1, slots => if index < i + 1 then (T.moveOnto slots (i + 1) i).bind (shiftRight index i) else some slots

/-- Move `count` objects one place down, the first one to `i`. -/
def shiftLeft : Nat → Nat → Storage α → Option (Storage α)
  | 0, _, slots => some slots
  | count + 1, i, slots => (T.moveOnto slots i (i + 1)).bind (shiftLeft count (i + 1))

def memmove (slots : Storage α) (target source count : Nat) : Option (Storage α) :=
  if target + count ≤ slots.length ∧ source + count ≤ slots.length then
    some (slots.take target ++ (slots.drop source).take count ++ slots.drop (target + count))
  else none

/-- Construct the objects from `i` on in other storage, moving or copying them. -/
def transferLoop (moves : Bool) : Nat → Nat → Storage α → Storage α → Option (Storage α × Storage α)
  | 0, _, target, source => some (target, source)
  | count + 1, i, target, source =>
    (alive source i).bind fun x =>
      (T.construct target i (if moves then (T.move x).1 else T.copy x)).bind fun target =>
        transferLoop moves count (i + 1) target (if moves then source.set i (some (T.move x).2) else source)

/-- Fill fresh storage with the first `count` objects; what it holds then, and what the source is left with. -/
def transfer (how : Transfer) (count : Nat) (target source : Storage α) : Option (Storage α × Storage α) :=
  match how with
  | .bytes =>
    if count ≤ target.length ∧ count ≤ source.length then some (source.take count ++ target.drop count, source) else none
  | .moves => T.transferLoop true count 0 target source
  | .copies => T.transferLoop false count 0 target source

def assignLoop (moves : Bool) : Nat → Nat → Storage α → Storage α → Option (Storage α × Storage α)
  | 0, _, target, source => some (target, source)
  | count + 1, i, target, source =>
    (alive source i).bind fun x =>
      (alive target i).bind fun old =>
        assignLoop moves count (i + 1) (target.set i (some (if moves then (T.moveAssign old x).1 else T.copyAssign old x)))
          (if moves then source.set i (some (T.moveAssign old x).2) else source)

section

variable (front : Storage α)

theorem get_middle (slot : Option α) (back : Storage α) : (front ++ slot :: back)[front.length]? = some slot := by
  simp

theorem set_middle (slot slot' : Option α) (back : Storage α) :
    (front ++ slot :: back).set front.length slot' = front ++ slot' :: back := by
  simp

theorem alive_middle (x : α) (back : Storage α) : alive (front ++ some x :: back) front.length = some x := by
  rw [alive, get_middle]
  rfl

variable {T}

theorem construct_middle {front : Storage α} {slot : Option α} {back : Storage α}
    (free : T.trivialDestructor = true ∨ slot = none) (x : α) :
    T.construct (front ++ slot :: back) front.length x = some (front ++ some x :: back) := by
  rw [construct, get_middle, set_middle]
  cases slot with
  | none => rfl
  | some old =>
    rcases free with trivially | empty
    · exact if_pos trivially
    · cases empty

theorem destroy_middle (x : α) (back : Storage α) :
    destroy (front ++ some x :: back) front.length = some (front ++ none :: back) := by
  rw [destroy, get_middle, set_middle]

end

section

def Spare (slots : Storage α) : Prop := T.trivialDestructor = true ∨ ∀ slot ∈ slots, slot = none

variable {T}

theorem Spare.cons_iff {slot : Option α} {slots : Storage α} :
    T.Spare (slot :: slots) ↔ (T.trivialDestructor = true ∨ slot = none) ∧ T.Spare slots := by
  unfold Spare
  rw [forall_mem_cons]
  tauto

theorem Spare.append_iff {first second : Storage α} : T.Spare (first ++ second) ↔ T.Spare first ∧ T.Spare second := by
  unfold Spare
  rw [forall_mem_append]
  tauto

theorem spare_replicate (count : Nat) : T.Spare (replicate count none) :=
  .inr fun _ mem => eq_of_mem_replicate mem

theorem spare_nil : T.Spare [] := spare_replicate 0

variable (items : List α) (front back : Storage α)

theorem destroyLoop_spec : destroyLoop items.length front.length (front ++ (items.map some ++ back)) =
      some (front ++ (replicate items.length none ++ back)) := by
  induction items generalizing front with
  | nil => rfl
  | cons x items ih =>
    have next := ih (front ++ [none])
    rw [length_append, append_assoc, append_assoc] at next
    rw [length_cons, destroyLoop, map_cons, cons_append, destroy_middle]
    exact next

theorem destroyRange_spec :
    ∃ cleared, T.destroyRange (front ++ (items.map some ++ back)) front.length items.length =
        some (front ++ (cleared ++ back)) ∧
      cleared.length = items.length ∧ T.Spare cleared := by
  unfold destroyRange
  by_cases trivially : T.trivialDestructor = true
  · rw [if_pos trivially]
    exact ⟨items.map some, rfl, length_map _, .inl trivially⟩
  · rw [if_neg trivially, destroyLoop_spec]
    exact ⟨_, rfl, length_replicate, spare_replicate _⟩

theorem moveOnto_up (x old : α) (back : Storage α) :
    ∃ left, T.moveOnto (front ++ some x :: some old :: back) (front.length + 1) front.length =
      some (front ++ some left :: some x :: back) := by
  have first := alive_middle front x (some old :: back)
  have second := alive_middle (front ++ [some x]) old back
  rw [append_assoc, length_append, length_singleton, singleton_append] at second
  refine ⟨(T.moveAssign old x).2, ?_⟩
  rw [moveOnto, first, bind_some, second, bind_some, set_middle, T.moveAssign_eq]
  have place := set_middle (front ++ [some (T.moveAssign old x).2]) (some old) (some x) back
  rw [append_assoc, length_append, length_singleton, singleton_append, append_assoc,
    singleton_append] at place
  rw [place]

theorem moveOnto_down (old x : α) (back : Storage α) :
    ∃ left, T.moveOnto (front ++ some old :: some x :: back) front.length (front.length + 1) =
      some (front ++ some x :: some left :: back) := by
  have first := alive_middle (front ++ [some old]) x back
  rw [append_assoc, length_append, length_singleton, singleton_append] at first
  have second := alive_middle front old (some x :: back)
  refine ⟨(T.moveAssign old x).2, ?_⟩
  have place := set_middle (front ++ [some old]) (some x) (some (T.moveAssign old x).2) back
  rw [append_assoc, length_append, length_singleton, singleton_append, append_assoc,
    singleton_append] at place
  rw [moveOnto, first, bind_some, second, bind_some, place, set_middle, T.moveAssign_eq]

theorem moveConstruct_up {front : Storage α} {slot : Option α} {back : Storage α}
    (free : T.trivialDestructor = true ∨ slot = none) (x : α) :
    ∃ left, T.moveConstruct (front ++ some x :: slot :: back) (front.length + 1) front.length =
      some (front ++ some left :: some x :: back) := by
  have made : T.construct ((front ++ [some (T.move x).2]) ++ slot :: back) (front ++ [some (T.move x).2]).length x = _ :=
    construct_middle free x
  rw [append_assoc, length_append, length_singleton, singleton_append, append_assoc,
    singleton_append] at made
  refine ⟨(T.move x).2, ?_⟩
  rw [moveConstruct, alive_middle, bind_some, set_middle, T.move_eq, made]

theorem shiftRight_spec (hole : α) (front back : Storage α) :
    ∃ left, T.shiftRight front.length (front.length + items.length) (front ++ ((items ++ [hole]).map some ++ back)) =
      some (front ++ some left :: (items.map some ++ back)) := by
  induction items using reverseRecOn generalizing hole back with
  | nil =>
    refine ⟨hole, ?_⟩
    unfold shiftRight
    cases front <;> simp
  | append_singleton items x ih =>
    obtain ⟨left, moved⟩ := moveOnto_up (T := T) (front ++ items.map some) x hole back
    obtain ⟨left', shifted⟩ := ih left (some x :: back)
    refine ⟨left', ?_⟩
    rw [length_append, length_map] at moved
    have layout : front ++ ((items ++ [x] ++ [hole]).map some ++ back) =
        front ++ items.map some ++ some x :: some hole :: back := by simp
    have layout' : front ++ items.map some ++ some left :: some x :: back =
        front ++ ((items ++ [left]).map some ++ some x :: back) := by simp
    rw [length_append, length_singleton, ← Nat.add_assoc, shiftRight, if_pos (by omega), layout, moved,
      bind_some, layout', shifted]
    simp

theorem shiftLeft_spec (hole : α) (front back : Storage α) :
    ∃ left, T.shiftLeft items.length front.length (front ++ some hole :: (items.map some ++ back)) =
      some (front ++ (items.map some ++ some left :: back)) := by
  induction items generalizing hole front with
  | nil => exact ⟨hole, rfl⟩
  | cons x items ih =>
    obtain ⟨left, moved⟩ := moveOnto_down (T := T) front hole x (items.map some ++ back)
    obtain ⟨left', shifted⟩ := ih left (front ++ [some x])
    refine ⟨left', ?_⟩
    rw [length_append, append_assoc, append_assoc] at shifted
    rw [length_cons, shiftLeft, map_cons, cons_append, moved]
    exact shifted

theorem memmove_up (spare : Storage α) (slot : Option α) (present : back ≠ []) :
    ∃ hole, memmove (front ++ (back ++ slot :: spare)) (front.length + 1) front.length back.length =
      some (front ++ hole :: (back ++ spare)) := by
  cases back with
  | nil => exact absurd rfl present
  | cons hole back =>
    refine ⟨hole, ?_⟩
    rw [memmove, if_pos (by simp; omega)]
    have first : (front ++ (hole :: back ++ slot :: spare)).take (front.length + 1) = front ++ [hole] := by
      rw [take_append, take_of_length_le (by omega)]
      simp
    have second : ((front ++ (hole :: back ++ slot :: spare)).drop front.length).take (hole :: back).length = hole :: back := by
      simp
    have third : (front ++ (hole :: back ++ slot :: spare)).drop (front.length + 1 + (hole :: back).length) = spare := by
      have split : front ++ (hole :: back ++ slot :: spare) = (front ++ (hole :: back ++ [slot])) ++ spare := by simp
      rw [split, drop_left']
      simp
      omega
    rw [first, third]
    simp

theorem memmove_down (spare : Storage α) (slot : Option α) :
    memmove (front ++ slot :: (back ++ spare)) front.length (front.length + 1) back.length =
      some (front ++ (back ++ (slot :: (back ++ spare)).drop back.length)) := by
  rw [memmove, if_pos (by simp; omega)]
  have first : (front ++ slot :: (back ++ spare)).take front.length = front := by simp
  have second : ((front ++ slot :: (back ++ spare)).drop (front.length + 1)).take back.length = back := by
    rw [← singleton_append, ← append_assoc, drop_left' (by simp), take_left]
  have third : (front ++ slot :: (back ++ spare)).drop (front.length + back.length) =
      (slot :: (back ++ spare)).drop back.length := by
    simp
  rw [first, second, third, append_assoc]

end

section

def leftBy (how : Transfer) (x : α) : α := if how = .moves then (T.move x).2 else x

variable {T}

theorem transferLoop_spec (moves : Bool) (items : List α) (front front' spare back : Storage α)
    (same : front.length = front'.length) (room : items.length ≤ spare.length) (free : T.Spare spare) :
    T.transferLoop moves items.length front.length (front ++ spare) (front' ++ (items.map some ++ back)) =
      some (front ++ (items.map some ++ spare.drop items.length),
        front' ++ (items.map (fun x => some (if moves then (T.move x).2 else x)) ++ back)) := by
  induction items generalizing front front' spare with
  | nil => rfl
  | cons x items ih =>
    cases spare with
    | nil => simp at room
    | cons slot spare =>
      rw [Spare.cons_iff] at free
      have source := alive_middle front' x (items.map some ++ back)
      rw [← same] at source
      have made : (if moves then (T.move x).1 else T.copy x) = x := by
        cases moves
        · exact T.copy_eq x
        · exact T.move_eq x
      have left : (if moves then (front' ++ some x :: (items.map some ++ back)).set front.length (some (T.move x).2)
          else front' ++ some x :: (items.map some ++ back)) =
          front' ++ some (if moves then (T.move x).2 else x) :: (items.map some ++ back) := by
        cases moves
        · rfl
        · rw [same]
          exact set_middle _ _ _ _
      have next := ih (front ++ [some x]) (front' ++ [some (if moves then (T.move x).2 else x)]) spare (by simp [same])
        (by simpa using room) free.2
      rw [length_append, length_singleton, append_assoc, append_assoc, append_assoc,
        append_assoc] at next
      rw [length_cons, transferLoop, map_cons, cons_append, source, bind_some, made,
        construct_middle free.1, bind_some, left]
      exact next

theorem transfer_spec (how : Transfer) (items : List α) (fresh spare : Storage α) (room : items.length ≤ fresh.length)
    (free : T.Spare fresh) : T.transfer how items.length fresh (items.map some ++ spare) =
      some (items.map some ++ fresh.drop items.length, (items.map (T.leftBy how)).map some ++ spare) := by
  have loop (moves : Bool) := transferLoop_spec moves items [] [] fresh spare rfl room free
  cases how with
  | bytes =>
    have all : items.length ≤ (items.map some ++ spare).length := by simp
    rw [transfer, if_pos ⟨room, all⟩]
    simp [leftBy]
  | moves =>
    simpa [transfer, leftBy, Function.comp_def] using loop true
  | copies =>
    simpa [transfer, leftBy, Function.comp_def] using loop false

theorem assignLoop_spec (moves : Bool) (items olds : List α) (front front' back back' : Storage α)
    (same : front.length = front'.length) (length : olds.length = items.length) :
    ∃ lefts : List α, T.assignLoop moves items.length front.length (front ++ (olds.map some ++ back))
        (front' ++ (items.map some ++ back')) =
      some (front ++ (items.map some ++ back), front' ++ (lefts.map some ++ back')) ∧
      lefts.length = items.length ∧ (moves = false → lefts = items) := by
  induction items generalizing olds front front' with
  | nil =>
    cases olds with
    | nil => exact ⟨[], rfl, rfl, fun _ => rfl⟩
    | cons old olds => simp at length
  | cons x items ih =>
    cases olds with
    | nil => simp at length
    | cons old olds =>
      have source := alive_middle front' x (items.map some ++ back')
      have target := alive_middle front old (olds.map some ++ back)
      rw [← same] at source
      have made : (if moves then (T.moveAssign old x).1 else T.copyAssign old x) = x := by
        cases moves
        · exact T.copyAssign_eq old x
        · exact T.moveAssign_eq old x
      have left : (if moves then (front' ++ some x :: (items.map some ++ back')).set front.length
            (some (T.moveAssign old x).2)
          else front' ++ some x :: (items.map some ++ back')) =
          front' ++ some (if moves then (T.moveAssign old x).2 else x) :: (items.map some ++ back') := by
        cases moves
        · rfl
        · rw [same]
          exact set_middle _ _ _ _
      obtain ⟨lefts, next, length', kept⟩ := ih olds (front ++ [some x])
        (front' ++ [some (if moves then (T.moveAssign old x).2 else x)]) (by simp [same]) (by simpa using length)
      rw [length_append, length_singleton, append_assoc, append_assoc, append_assoc,
        append_assoc] at next
      refine ⟨(if moves then (T.moveAssign old x).2 else x) :: lefts, ?_, by simp [length'], ?_⟩
      · rw [length_cons, assignLoop, map_cons, map_cons, cons_append, cons_append, source,
          bind_some, target, bind_some, made, left, set_middle]
        exact next
      · rintro rfl
        rw [kept rfl]
        rfl

end

end ObjectType

end Library
