import NginBase.Async.Cancellation

namespace NginBase.Async.Cancellation

open List

structure Entry where
  source : Nat
  context : Nat
  callback : Bool

def Event.context : Event → Option Nat
  | .registered context _ | .refused context _ | .invoked context | .dropped context => some context
  | .resumed _ => none

/-- A state without the places of its registrations in the vectors. A registration exists when its content is some, and is empty
    when that is none. -/
structure View where
  content : Nat → Option (Option Entry)
  canceled : Nat → Bool
  stack : List Frame
  fresh : Nat
  log : List Event

/-- A log that grows by events; only a registration that is refused is followed by its invocation. -/
structure Told (log : List Event) : Prop where
  once : ∀ context, log.count (.invoked context) ≤ 1
  quiet : ∀ context before after, log = before ++ .dropped context :: after → .invoked context ∉ after
  late : ∀ context source before after, log = before ++ .refused context source :: after → after.head? = some (.invoked context)

theorem Told.nil : Told [] where
  once _ := Nat.zero_le _
  quiet context before after same := by simp at same
  late context source before after same := by simp at same

theorem append_singleton_split {α : Type} {l before after : List α} {a b : α} (same : l ++ [b] = before ++ a :: after) :
    (before = l ∧ a = b ∧ after = []) ∨ ∃ rest, after = rest ++ [b] ∧ l = before ++ a :: rest := by
  rcases eq_nil_or_concat after with rfl | ⟨rest, c, rfl⟩
  · obtain ⟨first, second⟩ := append_inj' same rfl
    exact .inl ⟨first.symm, (singleton_inj.mp second).symm, rfl⟩
  apply Or.inr
  have regrouped : l ++ [b] = (before ++ a :: rest) ++ [c] := by simpa using same
  obtain ⟨first, second⟩ := append_inj' regrouped rfl
  obtain rfl := singleton_inj.mp second
  exact ⟨rest, by simp, first⟩

variable {log : List Event} {context source : Nat} {event : Event}

theorem Told.add (told : Told log) (plain : ∀ context, event ≠ .invoked context)
    (enrolled : ∀ context source, event ≠ .refused context source) : Told (log ++ [event]) where
  once context := by
    have before := told.once context
    simpa [plain context] using before
  quiet context before after same := by
    rcases append_singleton_split same with ⟨_, _, rfl⟩ | ⟨rest, rfl, split⟩
    · exact not_mem_nil
    · have unseen := told.quiet context before rest split
      simp [unseen, Ne.symm (plain context)]
  late context source before after same := by
    rcases append_singleton_split same with ⟨_, refused, _⟩ | ⟨rest, rfl, split⟩
    · exact absurd refused.symm (enrolled context source)
    have first := told.late context source before rest split
    rw [head?_append, first]
    rfl

theorem Told.invoke (told : Told log) (new : .invoked context ∉ log) (kept : .dropped context ∉ log) :
    Told (log ++ [.invoked context]) where
  once other := by
    have before := told.once other
    by_cases same : context = other
    · subst same
      simp [count_eq_zero_of_not_mem new]
    · simpa [same] using before
  quiet other before after same := by
    rcases append_singleton_split same with ⟨_, dropped, _⟩ | ⟨rest, rfl, split⟩
    · contradiction
    have unseen := told.quiet other before rest split
    have differ : other ≠ context := by
      rintro rfl
      apply kept
      rw [split]
      simp
    simp [unseen, differ]
  late other source before after same := by
    rcases append_singleton_split same with ⟨_, refused, _⟩ | ⟨rest, rfl, split⟩
    · contradiction
    have first := told.late other source before rest split
    rw [head?_append, first]
    rfl

theorem Told.refuse (told : Told log) (new : ∀ event ∈ log, event.context ≠ some context) :
    Told (log ++ [.refused context source, .invoked context]) where
  once other := by
    have before := told.once other
    by_cases same : context = other
    · subst same
      have unseen : Event.invoked context ∉ log := fun mem => new _ mem rfl
      simp [count_eq_zero_of_not_mem unseen]
    · simpa [same] using before
  quiet other before after same := by
    have regrouped : (log ++ [.refused context source]) ++ [.invoked context] = before ++ .dropped other :: after := by
      simpa using same
    rcases append_singleton_split regrouped with ⟨_, dropped, _⟩ | ⟨rest, rfl, split⟩
    · contradiction
    rcases append_singleton_split split with ⟨_, dropped, _⟩ | ⟨front, rfl, old⟩
    · contradiction
    have unseen := told.quiet other before front old
    have differ : other ≠ context := by
      rintro rfl
      apply new (.dropped other) _ rfl
      rw [old]
      simp
    simp [unseen, differ]
  late other source' before after same := by
    have regrouped : (log ++ [.refused context source]) ++ [.invoked context] = before ++ .refused other source' :: after := by
      simpa using same
    rcases append_singleton_split regrouped with ⟨_, refused, _⟩ | ⟨rest, rfl, split⟩
    · contradiction
    rcases append_singleton_split split with ⟨_, refused, rfl⟩ | ⟨front, rfl, old⟩
    · obtain ⟨rfl, rfl⟩ : other = context ∧ source' = source := by simpa using refused
      rfl
    · have first := told.late other source' before front old
      rw [append_assoc, head?_append, first]
      rfl

variable {stack : List Frame} {a b : Nat} {rest : List Nat}

theorem Due.pending (due : Due source a stack) : a ∈ pending stack := by
  induction stack with
  | nil => exact due.elim
  | cons frame below step =>
    cases frame with
    | looping other rest =>
      rcases due with ⟨mem, _⟩ | due
      · exact mem_append_left _ mem
      · exact mem_append_right _ (step due)
    | running after => exact step due

theorem Due.proceed {other : Nat} (due : Due source b (.looping other (a :: rest) :: stack)) (differ : b ≠ a) :
    Due source b (.looping other rest :: stack) := by
  rcases due with ⟨mem, within_⟩ | due
  · exact .inl ⟨(mem_cons.mp mem).resolve_left differ, within_⟩
  · exact .inr due

structure Story (v : View) : Prop where
  due : ∀ a ∈ pending v.stack, v.content a ≠ none ∧ ∀ e, v.content a = some (some e) →
    v.canceled e.source = true ∧ Due e.source a v.stack
  distinct : (pending v.stack).Nodup
  fired : ∀ a ∈ firing v.stack, v.content a ≠ none
  unique : ∀ a b e e', v.content a = some (some e) → v.content b = some (some e') → e.context = e'.context → a = b
  old : ∀ a e, v.content a = some (some e) → e.context < v.fresh
  past : ∀ event ∈ v.log, ∀ context, event.context = some context → context < v.fresh
  /-- A registration that is there has been invoked when its turn is over. -/
  held : ∀ a e, v.content a = some (some e) → e.callback = true → .registered e.context e.source ∈ v.log ∧
    .dropped e.context ∉ v.log ∧ (.invoked e.context ∈ v.log ↔ v.canceled e.source = true ∧ a ∉ pending v.stack)
  lost : ∀ context source, .registered context source ∈ v.log → .dropped context ∈ v.log ∨
    ∃ a, v.content a = some (some ⟨source, context, true⟩)
  early : ∀ context, .invoked context ∈ v.log → ∃ source,
    (.registered context source ∈ v.log ∨ .refused context source ∈ v.log) ∧ v.canceled source = true
  told : Told v.log

namespace View

variable (v : View)

def setContent (a : Nat) (content : Option (Option Entry)) : View := { v with content := Function.update v.content a content }

def note (events : List Event) : View := { v with log := v.log ++ events }

def about (e : Entry) (event : Nat → Event) : List Event := if e.callback then [event e.context] else []

def reset (a : Nat) : View :=
  match v.content a with
  | some (some e) => (v.setContent a (some none)).note (about e .dropped)
  | _ => v

def moveFrom (a b : Nat) : View := (v.setContent a (v.content b)).setContent b (some none)

def enroll (a source : Nat) (callback : Bool) : View :=
  { v.setContent a (some (some ⟨source, v.fresh, callback⟩)) with fresh := v.fresh + 1 }.note
    (about ⟨source, v.fresh, callback⟩ (.registered · source))

def refuse (a source : Nat) (resume callback : Bool) : View :=
  let v' := { v.setContent a (some none) with fresh := v.fresh + 1 }
  if callback then
    { v'.note [.refused v.fresh source, .invoked v.fresh] with stack := .running (.register resume v.fresh) :: v.stack }
  else v'.note (if resume then [.resumed v.fresh] else [])

def cancel (source : Nat) (list : List Nat) : View :=
  { v with canceled := Function.update v.canceled source true, stack := .looping source list :: v.stack }

end View

end NginBase.Async.Cancellation
