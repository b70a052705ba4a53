import Mathlib

namespace NginBase.Async

/-! The promise of a spawned task as its threads see it, and the end of its coroutine step by step. -/

/-- `PromiseRuntimeCommon`, up to what is set before the coroutine starts. `continuation` says that there is one. A spawned task
    has no handler for exceptions, and nothing stores a `completionHandler` but the null of an awaiting operation. -/
structure Promise where
  finished : Bool := false
  /-- The generation of `m_finishedCondition`. -/
  generation : Nat := 0
  continuation : Bool := false
  completionHandler : Bool := false
  detached : Bool := false
  deriving DecidableEq

/-- Where the completing thread is: `FinalAwaiter::await_suspend` around `MarkFinishedAndResume`. `destroy` is
    `destroyOnCompletion`; a task that its child's failure finishes starts at `exchange false`. -/
inductive Completing
  | detachedLoad
  | continuationCheck
  | exchange (destroy : Bool)
  | notify (destroy : Bool)
  | exceptionCheck (destroy : Bool)
  | continuationLoad (destroy : Bool)
  | handlerLoad (destroy : Bool)
  | handler (destroy : Bool)
  | resume (destroy : Bool)
  | returned (destroy : Bool)
  | done
  deriving DecidableEq

namespace Completing

def notifyAll (promise : Promise) : Promise := { promise with generation := (promise.generation + 1) % 2 ^ 32 }

def next (promise : Promise) : Completing → Promise × Completing
  | .detachedLoad => (promise, if promise.detached then .continuationCheck else .exchange false)
  | .continuationCheck => (promise, .exchange !promise.continuation)
  | .exchange destroy =>
    if promise.finished then (promise, .returned destroy) else ({ promise with finished := true }, .notify destroy)
  | .notify destroy => (notifyAll promise, .exceptionCheck destroy)
  | .exceptionCheck destroy => (promise, .continuationLoad destroy)
  | .continuationLoad destroy => (promise, if promise.continuation then .handlerLoad destroy else .returned destroy)
  | .handlerLoad destroy => (promise, if promise.completionHandler then .handler destroy else .resume destroy)
  | .handler destroy => (promise, .returned destroy)
  | .resume destroy => (promise, .returned destroy)
  | .returned _ => (promise, .done)
  | .done => (promise, .done)

def touches : Completing → Bool
  | .returned _ | .done => false
  | _ => true

def early : Completing → Bool
  | .detachedLoad | .continuationCheck | .exchange _ | .notify _ | .exceptionCheck _ | .continuationLoad _ => true
  | _ => false

def resuming : Completing → Bool
  | .handlerLoad _ | .handler _ | .resume _ => true
  | _ => false

def published : Completing → Bool
  | .detachedLoad | .continuationCheck | .exchange _ => false
  | _ => true

/-- The thread has decided to destroy the frame, unless it finds a continuation. -/
def destroying : Completing → Bool
  | .detachedLoad | .done => false
  | .continuationCheck => true
  | .exchange destroy | .notify destroy | .exceptionCheck destroy | .continuationLoad destroy | .handlerLoad destroy
  | .handler destroy | .resume destroy | .returned destroy => destroy

variable {promise : Promise} {phase : Completing}

@[simp] theorem next_continuation : (phase.next promise).1.continuation = promise.continuation := by
  fun_cases next <;> rfl

@[simp] theorem next_completionHandler : (phase.next promise).1.completionHandler = promise.completionHandler := by
  fun_cases next <;> rfl

@[simp] theorem next_detached : (phase.next promise).1.detached = promise.detached := by
  fun_cases next <;> rfl

theorem next_finished (agree : promise.finished = phase.published) :
    (phase.next promise).1.finished = (phase.next promise).2.published := by
  cases phase with
  | exchange destroy =>
    have unfinished : promise.finished = false := agree
    simp [next, unfinished, published]
  | detachedLoad | continuationLoad destroy | handlerLoad destroy =>
    simp only [next]
    split
    · exact agree
    · exact agree
  | _ => exact agree

theorem next_published (before : phase.published = true) : (phase.next promise).2.published = true := by
  cases phase with
  | continuationLoad destroy | handlerLoad destroy =>
    simp only [next]
    split <;> rfl
  | detachedLoad | continuationCheck | exchange destroy => contradiction
  | _ => rfl

theorem next_handler {destroy : Bool} (called : (phase.next promise).2 = .handler destroy) :
    promise.completionHandler = true := by
  cases phase <;> simp only [next] at called
  case handlerLoad =>
    split at called
    case isTrue set => exact set
    case isFalse => contradiction
  all_goals first | contradiction | (split at called <;> contradiction)

theorem next_resuming (found : (phase.next promise).2.resuming = true) :
    phase.resuming = true ∨ promise.continuation = true := by
  cases phase <;> simp only [next] at found
  case continuationLoad =>
    split at found
    case isTrue stored => exact .inr stored
    case isFalse => contradiction
  case handlerLoad => exact .inl rfl
  all_goals first | contradiction | (split at found <;> contradiction)

theorem next_waiting (agree : promise.finished = phase.published) (stored : promise.continuation = true)
    (resumes : ∀ destroy, phase ≠ .resume destroy) (direct : ∀ destroy, phase ≠ .handler destroy) :
    ((phase.next promise).2.early || (phase.next promise).2.resuming) = (phase.early || phase.resuming) := by
  cases phase with
  | detachedLoad =>
    simp only [next]
    split <;> rfl
  | exchange destroy =>
    have unfinished : promise.finished = false := agree
    simp [next, unfinished, early]
  | continuationLoad destroy => simp [next, stored, early, resuming]
  | handlerLoad destroy =>
    simp only [next]
    split <;> rfl
  | resume destroy => exact absurd rfl (resumes destroy)
  | handler destroy => exact absurd rfl (direct destroy)
  | _ => rfl

theorem next_not_destroying (kept : promise.detached = false) (before : phase.destroying = false) :
    (phase.next promise).2.destroying = false := by
  cases phase with
  | detachedLoad => simp [next, kept, destroying]
  | continuationCheck => contradiction
  | exchange destroy | continuationLoad destroy | handlerLoad destroy =>
    simp only [next]
    split
    · exact before
    · exact before
  | returned destroy | done => rfl
  | _ => exact before

theorem next_destroying (detached : promise.detached = true) (alone : promise.continuation = false)
    (before : phase = .detachedLoad ∨ phase.destroying = true) (touches : phase.touches = true) :
    (phase.next promise).2.destroying = true := by
  cases phase with
  | detachedLoad => simp [next, detached, destroying]
  | continuationCheck => simp [next, alone, destroying]
  | exchange destroy | continuationLoad destroy | handlerLoad destroy =>
    have destroys : destroy = true := by simpa [destroying] using before
    simp only [next]
    split
    · exact destroys
    · exact destroys
  | notify destroy | exceptionCheck destroy | handler destroy | resume destroy =>
    have destroys : destroy = true := by simpa [destroying] using before
    exact destroys
  | returned destroy | done => contradiction

end Completing

end NginBase.Async
