import NginBase.Library.Interleaving

namespace NginBase.Async

/-! Trees of tasks: bodies that await their children, the promises of their frames, and the queue of a single-threaded
executor. -/

inductive AsyncFaultCode
  | none
  | invalidTaskUsage
  | invalidContinuationState
  | schedulerDispatchFailed
  | continuationDispatchFailed
  | runtimeInvariantViolation
  | unhandledException
  | unknownRuntimeFailure

structure AsyncFault where
  code : AsyncFaultCode
  native : Int := 0
  message : String := ""

def makeAsyncFault (code : AsyncFaultCode) : AsyncFault := { code := code }

inductive Completion (Value Error : Type)
  | succeeded (value : Value)
  | domainError (error : Error)
  | canceled
  | fault (fault : AsyncFault)

namespace TaskTree

/-- What the body of a task does: it awaits a child, as an rvalue when `owned`, and goes on with its value. `context` says that the
    child was made with a task context of its own. -/
inductive Body (Value Error : Type)
  | complete (outcome : Completion Value Error)
  | await (owned context : Bool) (child : Body Value Error) (rest : Value → Body Value Error)

inductive Position (Value Error : Type)
  | initial (body : Body Value Error)
  | awaiting (owned : Bool) (child : Nat) (rest : Value → Body Value Error)
  | running
  | final

/-- A frame with its promise; `name` is its place in the tree, and `index` the number of children it has awaited. `executor`
    says that `m_executor` is valid; there is one executor. -/
structure Frame (Value Error : Type) where
  name : List Nat
  index : Nat := 0
  position : Position Value Error
  finished : Bool := false
  completion : Option (Completion Value Error) := none
  continuation : Option Nat := none
  completionHandler : Bool := false
  executor : Bool
  started : Bool := false

/-- What is seen of a run: bodies that start, go on after an `await`, and end. -/
inductive Event
  | started (name : List Nat)
  | resumed (name : List Nat) (index : Nat)
  | ended (name : List Nat)

inductive Control (Value Error : Type)
  | idle
  | running (frame : Nat) (body : Body Value Error)
  /-- `MarkFinishedAndResume` is called. -/
  | completing (frame : Nat)

/-- A frame that has been destroyed is not there any more. -/
structure State (Value Error : Type) where
  frames : Nat → Option (Frame Value Error)
  fresh : Nat
  queue : List Nat
  control : Control Value Error := .idle
  log : List Event := []

inductive Action
  /-- The executor takes an item of its queue. -/
  | item (i : Nat)
  | proceed

variable {Value Error : Type}

namespace Frame

def isSucceeded (frame : Frame Value Error) : Bool :=
  match frame.completion with
  | some (.succeeded _) => true
  | _ => false

def setCompletion (frame : Frame Value Error) (completion : Completion Value Error) : Frame Value Error :=
  { frame with completion := frame.completion <|> some completion }

def setFault (frame : Frame Value Error) (code : AsyncFaultCode) : Frame Value Error :=
  frame.setCompletion (.fault (makeAsyncFault code))

def propagateFromChild (frame child : Frame Value Error) : Frame Value Error :=
  match child.completion with
  | none | some (.succeeded _) => frame
  | some (.domainError error) => frame.setCompletion (.domainError error)
  | some .canceled => frame.setCompletion .canceled
  | some (.fault fault) => frame.setCompletion (.fault fault)

end Frame

namespace State

variable (s : State Value Error)

def setFrame (f : Nat) (frame : Frame Value Error) : State Value Error :=
  { s with frames := Function.update s.frames f (some frame) }

def goTo (control : Control Value Error) : State Value Error := { s with control := control }

def enqueue (f : Nat) : State Value Error := { s with queue := s.queue ++ [f] }

def note (event : Event) : State Value Error := { s with log := s.log ++ [event] }

/-- An owned child has finished when its parent goes on, so that `ReleaseHandle` destroys it. -/
def destroy (f : Nat) : State Value Error := { s with frames := Function.update s.frames f none }

/-- A coroutine runs from where it is suspended; after an `await`, `await_resume` asserts that the child succeeded. -/
def resume (f : Nat) : Option (State Value Error) := do
  let frame ← s.frames f
  match frame.position with
  | .initial body =>
    return ((s.setFrame f { frame with position := .running }).note (.started frame.name)).goTo (.running f body)
  | .awaiting owned child rest =>
    let awaited ← s.frames child
    match awaited.completion with
    | some (.succeeded value) =>
      let s := if owned then s.destroy child else s
      return ((s.setFrame f { frame with position := .running, index := frame.index + 1 }).note
        (.resumed frame.name frame.index)).goTo (.running f (rest value))
    | _ => none
  | .running | .final => none

def resumeOnExecutor (executor : Bool) (f : Nat) : Option (State Value Error) :=
  if executor then some ((s.enqueue f).goTo .idle) else s.resume f

def awaitTask (awaiting child : Nat) : Option (State Value Error) := do
  let parent ← s.frames awaiting
  let task ← s.frames child
  if task.finished then
    if task.isSucceeded then s.resume awaiting
    else return (s.setFrame awaiting (parent.propagateFromChild task)).goTo (.completing awaiting)
  else if task.continuation.isSome then
    return (s.setFrame awaiting (parent.setFault .invalidContinuationState)).goTo (.completing awaiting)
  else
    let task := { task with continuation := some awaiting, completionHandler := true }
    if task.started then return (s.setFrame child task).goTo .idle
    else if task.executor || parent.executor then
      return ((s.setFrame child { task with executor := true, started := true }).enqueue child).goTo .idle
    else return (s.setFrame child (task.setFault .invalidTaskUsage)).goTo (.completing child)

def propagateChildCompletion (self continuation : Nat) : Option (State Value Error) := do
  let child ← s.frames self
  let parent ← s.frames continuation
  if parent.finished then return s.goTo .idle
  else if child.isSucceeded then s.resumeOnExecutor child.executor continuation
  else return (s.setFrame continuation (parent.propagateFromChild child)).goTo (.completing continuation)

def markFinishedAndResume (f : Nat) : Option (State Value Error) := do
  let frame ← s.frames f
  if frame.finished then return s.goTo .idle
  else
    let s := s.setFrame f { frame with finished := true }
    match frame.continuation with
    | none => return s.goTo .idle
    | some continuation =>
      if frame.completionHandler then s.propagateChildCompletion f continuation
      else s.resumeOnExecutor frame.executor continuation

/-- The next statement of a body; the task of a child is made when it is awaited. -/
def execute (f : Nat) : Body Value Error → Option (State Value Error)
  | .complete outcome => do
    let frame ← s.frames f
    return ((s.setFrame f { frame.setCompletion outcome with position := .final }).note (.ended frame.name)).goTo (.completing f)
  | .await owned context child rest => do
    let frame ← s.frames f
    let s := s.setFrame f { frame with position := .awaiting owned s.fresh rest }
    let s := s.setFrame s.fresh { name := frame.name ++ [frame.index], position := .initial child, executor := context }
    { s with fresh := s.fresh + 1 }.awaitTask f s.fresh

def act (s : State Value Error) : Action → Option (State Value Error)
  | .item i =>
    match s.control, s.queue[i]? with
    | .idle, some f => { s with queue := s.queue.eraseIdx i }.resume f
    | _, _ => none
  | .proceed =>
    match s.control with
    | .idle => none
    | .running f body => s.execute f body
    | .completing f => s.markFinishedAndResume f

def start (body : Body Value Error) : State Value Error where
  frames := Function.update (fun _ => none) 0 (some { name := [], position := .initial body, executor := true, started := true })
  fresh := 1
  queue := [0]

end State

/-- How a body completes, what is seen of it, and how many steps it takes. -/
structure Answer (Value Error : Type) where
  outcome : Completion Value Error
  log : List Event
  steps : Nat

/-- What comes of a body when its child has completed: it goes on after a success, and takes over a failure. -/
def Answer.andThen (child : Answer Value Error) (name : List Nat) (index : Nat) (rest : Value → Answer Value Error) :
    Answer Value Error :=
  match child.outcome with
  | .succeeded value =>
    ⟨(rest value).outcome, child.log ++ .resumed name index :: (rest value).log, child.steps + 2 + (rest value).steps⟩
  | failure => ⟨failure, child.log, child.steps + 1⟩

def Answer.begin (name : List Nat) (body : Answer Value Error) : Answer Value Error :=
  ⟨body.outcome, .started name :: body.log, body.steps + 1⟩

def Answer.later (answer : Answer Value Error) : Answer Value Error := { answer with steps := answer.steps + 1 }

/-- The recursive evaluation: a body stops at the first child that does not succeed. -/
def evaluate : Body Value Error → List Nat → Nat → Answer Value Error
  | .complete outcome, name, _ => ⟨outcome, [.ended name], 1⟩
  | .await _ _ child rest, name, index =>
    (((evaluate child (name ++ [index]) 0).begin (name ++ [index])).andThen name index fun value =>
      evaluate (rest value) name (index + 1)).later

end TaskTree

end NginBase.Async
