import NginBase.Library.Interleaving

namespace NginBase.Async.Cancellation

open Library.Interleaving Function

/-! Cancellation states, the registrations that point into them, and callbacks that may do anything with both. -/

/-- `CancellationRegistration`: `source` is `m_state`, `resume` says that there are an executor and a handle, `context` stands for
    `m_callbackCtx`, and an index of -1 is none. -/
structure Registration where
  source : Option Nat := none
  resume : Bool := false
  callback : Bool := false
  context : Nat := 0
  index : Option Nat := none
  armed : Bool := false

/-- What is done when a callback has returned: the rest of `Fire`, or of `Register`. -/
inductive After
  | fire (address : Nat)
  | register (resume : Bool) (context : Nat)

/-- A call that is not over: the loop of `Cancel` with the rest of its list, or a callback. -/
inductive Frame
  | looping (source : Nat) (rest : List Nat)
  | running (after : After)

inductive Event
  | registered (context source : Nat)
  /-- A registration with a source that is canceled. -/
  | refused (context source : Nat)
  | invoked (context : Nat)
  | dropped (context : Nat)
  | resumed (context : Nat)
  deriving DecidableEq

/-- Registrations are where their addresses are. `misused` says that one was accessed after its destruction. Callbacks are
    told apart by their contexts, which `fresh` counts. -/
structure State where
  memory : Nat → Option Registration := fun _ => none
  canceled : Nat → Bool := fun _ => false
  registrations : Nat → List Nat := fun _ => []
  stack : List Frame := []
  fresh : Nat := 0
  log : List Event := []
  misused : Bool := false

inductive Action
  | construct (a : Nat)
  | register (a : Nat) (token : Option Nat) (resume callback : Bool)
  | reset (a : Nat)
  | destroy (a : Nat)
  /-- `a` is constructed or assigned from `b`. -/
  | moveConstruct (a b : Nat)
  | moveAssign (a b : Nat)
  | cancel (source : Nat)
  /-- The running callback returns whether to resume. -/
  | return_ (shouldResume : Bool)
  /-- The loop of `Cancel` goes on. -/
  | proceed

namespace State

variable (s : State)

def store (a : Nat) (registration : Registration) : State :=
  { s with memory := update s.memory a (some registration) }

def note (events : List Event) : State := { s with log := s.log ++ events }

def setList (source : Nat) (list : List Nat) : State :=
  { s with registrations := update s.registrations source list }

def push (frame : Frame) : State := { s with stack := frame :: s.stack }

def misuse : State := { s with misused := true }

/-- Where a registration is in the vector: at its index, or where the search finds it. -/
def position (list : List Nat) (a : Nat) (index : Option Nat) : Option Nat :=
  match index with
  | some i => if list[i]? = some a then some i else list.idxOf? a
  | none => list.idxOf? a

def setIndex (a i : Nat) : State :=
  match s.memory a with
  | some registration => s.store a { registration with index := some i }
  | none => s.misuse

def removeAt (source i : Nat) : State :=
  let list := s.registrations source
  match list.getLast? with
  | some moved =>
    if i = list.length - 1 then s.setList source list.dropLast
    else (s.setList source (list.set i moved).dropLast).setIndex moved i
  | none => s

def unregister (source a : Nat) (index : Option Nat) : State :=
  match position (s.registrations source) a index with
  | some i => s.removeAt source i
  | none => s

def about (registration : Registration) (event : Nat → Event) : List Event :=
  if registration.callback then [event registration.context] else []

def reset (a : Nat) : State :=
  match s.memory a with
  | some registration =>
    match registration.source with
    | some source => ((s.unregister source a registration.index).store a {}).note (about registration .dropped)
    | none => s
  | none => s.misuse

def moveFrom (a b : Nat) : State :=
  match s.memory b with
  | some other =>
    match other.source with
    | some source =>
      match position (s.registrations source) b other.index with
      | some i =>
        ((s.setList source ((s.registrations source).set i a)).store a { other with index := some i }).store b {}
      | none => (s.store a other).store b {}
    | none => (s.store a other).store b {}
  | none => s.misuse

def construct (a : Nat) : Option State := if s.memory a = none then some (s.store a {}) else none

def destroy (a : Nat) : State := { s.reset a with memory := update (s.reset a).memory a none }

def moveAssign (a b : Nat) : State := if a = b then s else (s.reset a).moveFrom a b

def enroll (a source : Nat) (resume callback : Bool) : State :=
  let registration : Registration :=
    { source := some source, resume := resume, callback := callback, context := s.fresh,
      index := some (s.registrations source).length, armed := true }
  ({ (s.store a registration).setList source (s.registrations source ++ [a]) with fresh := s.fresh + 1 }).note
    (about registration (.registered · source))

def refuse (a source : Nat) (resume callback : Bool) : State :=
  let s' := { s.store a {} with fresh := s.fresh + 1 }
  if callback then
    (s'.note [.refused s.fresh source, .invoked s.fresh]).push (.running (.register resume s.fresh))
  else s'.note (if resume then [.resumed s.fresh] else [])

def register (a : Nat) (token : Option Nat) (resume callback : Bool) : State :=
  match token with
  | some source =>
    if resume || callback then
      if s.canceled source then (s.reset a).refuse a source resume callback else (s.reset a).enroll a source resume callback
    else s.reset a
  | none => s.reset a

def cancel (source : Nat) : State :=
  if s.canceled source then s
  else { s with canceled := update s.canceled source true
                registrations := update s.registrations source []
                stack := .looping source (s.registrations source) :: s.stack }

def fired (a : Nat) (shouldResume : Bool) : State :=
  match s.memory a with
  | some registration =>
    if registration.armed then
      (s.store a { registration with armed := false }).note
        (if shouldResume && registration.resume then [.resumed registration.context] else [])
    else s
  | none => s.misuse

def fire (a : Nat) : State :=
  match s.memory a with
  | some registration =>
    if registration.callback then (s.note [.invoked registration.context]).push (.running (.fire a)) else s.fired a true
  | none => s.misuse

def return_ (shouldResume : Bool) : Option State :=
  match s.stack with
  | .running (.fire a) :: below => some ({ s with stack := below }.fired a shouldResume)
  | .running (.register resume context) :: below =>
    some ({ s with stack := below }.note (if shouldResume && resume then [.resumed context] else []))
  | _ => none

def proceed : Option State :=
  match s.stack with
  | .looping _ [] :: below => some { s with stack := below }
  | .looping source (a :: rest) :: below => some ({ s with stack := .looping source rest :: below }.fire a)
  | _ => none

def user : Bool :=
  match s.stack with
  | .looping _ _ :: _ => false
  | _ => true

def act (s : State) : Action → Option State
  | .construct a => if s.user then s.construct a else none
  | .register a token resume callback =>
    if s.user ∧ s.memory a ≠ none then some (s.register a token resume callback) else none
  | .reset a => if s.user ∧ s.memory a ≠ none then some (s.reset a) else none
  | .destroy a => if s.user ∧ s.memory a ≠ none then some (s.destroy a) else none
  | .moveConstruct a b => if s.user ∧ s.memory b ≠ none then (s.construct a).map (·.moveFrom a b) else none
  | .moveAssign a b => if s.user ∧ s.memory a ≠ none ∧ s.memory b ≠ none then some (s.moveAssign a b) else none
  | .cancel source => if s.user then some (s.cancel source) else none
  | .return_ shouldResume => s.return_ shouldResume
  | .proceed => s.proceed

def start : State := {}

end State

def loops : List Frame → List Nat
  | [] => []
  | .looping source _ :: below => source :: loops below
  | .running _ :: below => loops below

def pending : List Frame → List Nat
  | [] => []
  | .looping _ rest :: below => rest ++ pending below
  | .running _ :: below => pending below

def firing : List Frame → List Nat
  | [] => []
  | .running (.fire a) :: below => a :: firing below
  | _ :: below => firing below

/-- The turn of a registration comes before the `Cancel` of a source is over. -/
def Due (source a : Nat) : List Frame → Prop
  | [] => False
  | .looping other rest :: below => (a ∈ rest ∧ (source = other ∨ source ∈ loops below)) ∨ Due source a below
  | .running _ :: below => Due source a below

instance decidableDue (source a : Nat) : ∀ stack, Decidable (Due source a stack)
  | [] => .isFalse id
  | .looping other rest :: below =>
    have := decidableDue source a below
    inferInstanceAs (Decidable ((a ∈ rest ∧ (source = other ∨ source ∈ loops below)) ∨ Due source a below))
  | .running _ :: below => decidableDue source a below

namespace State

variable (s : State)

def Holds (a context source : Nat) : Prop :=
  ∃ registration, s.memory a = some registration ∧ registration.source = some source ∧ registration.callback = true ∧
    registration.context = context

structure Exact : Prop where
  once : ∀ context, s.log.count (.invoked context) ≤ 1
  safe : s.misused = false
  quiet : ∀ context before after, s.log = before ++ .dropped context :: after → .invoked context ∉ after
  /-- Nothing is invoked before its source is canceled. -/
  early : ∀ context, .invoked context ∈ s.log → ∃ source,
    (.registered context source ∈ s.log ∨ .refused context source ∈ s.log) ∧ s.canceled source = true
  /-- A live registration is invoked before the `Cancel` of its source is over. -/
  all : ∀ context source, .registered context source ∈ s.log → s.canceled source = true →
    .invoked context ∈ s.log ∨ .dropped context ∈ s.log ∨ ∃ a, s.Holds a context source ∧ Due source a s.stack
  late : ∀ context source before after, s.log = before ++ .refused context source :: after →
    after.head? = some (.invoked context)
  again : ∀ source, s.canceled source = true → s.cancel source = s

/-- A registration with something in it is moved to where its turn comes as it would have come. -/
def Moves (a b : Nat) : Prop :=
  ∀ registration source, s.memory b = some registration → registration.source = some source →
    (b ∈ pending s.stack → Due source a s.stack) ∧ (b ∉ pending s.stack → a ∉ pending s.stack)

instance (a b : Nat) : Decidable (s.Moves a b) :=
  decidable_of_iff
    (∀ registration ∈ s.memory b, ∀ source ∈ registration.source,
      (b ∈ pending s.stack → Due source a s.stack) ∧ (b ∉ pending s.stack → a ∉ pending s.stack))
    ⟨fun all registration source found belongs => all registration found source belongs,
      fun moves registration found source belongs => moves registration source found belongs⟩

/-- The registrations that a running `Cancel` points to are not destroyed, not used for another source, and moved only to one
    another. -/
def Orderly (s : State) : Action → Prop
  | .destroy a => a ∉ pending s.stack ∧ a ∉ firing s.stack
  | .register a (some source) resume callback =>
    (resume || callback) = true → s.canceled source = false → a ∉ pending s.stack
  | .moveConstruct a b => s.Moves a b
  | .moveAssign a b => a ≠ b → s.Moves a b
  | _ => True

instance (s : State) : DecidablePred s.Orderly
  | .destroy a => inferInstanceAs (Decidable (a ∉ pending s.stack ∧ a ∉ firing s.stack))
  | .register a (some source) resume callback =>
    inferInstanceAs (Decidable ((resume || callback) = true → s.canceled source = false → a ∉ pending s.stack))
  | .moveConstruct a b => inferInstanceAs (Decidable (s.Moves a b))
  | .moveAssign a b => inferInstanceAs (Decidable (a ≠ b → s.Moves a b))
  | .construct _ | .register _ none _ _ | .reset _ | .cancel _ | .return_ _ | .proceed => .isTrue trivial

end State

end NginBase.Async.Cancellation
