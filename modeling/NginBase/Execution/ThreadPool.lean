import NginBase.Library.Interleaving
import NginBase.Library.Tables

namespace NginBase.Execution.ThreadPool

/-! `ThreadPoolScheduler`: workers that take items from their own queues, from the injection queue and from one another. -/

abbrev WorkItem := Option Nat

/-- The items before `head` have been taken. -/
structure WorkerQueue where
  items : List WorkItem := []
  head : Nat := 0
  inside : head ≤ items.length := by simp

namespace WorkerQueue

variable (q : WorkerQueue)

def live : List WorkItem := q.items.drop q.head

def push (item : WorkItem) : WorkerQueue where
  items := q.items ++ [item]
  head := q.head
  inside := by
    have before := q.inside
    simp only [List.length_append]
    omega

def tryPop : WorkItem × WorkerQueue :=
  match q.items.getLast? with
  | none => (none, q)
  | some out =>
    if q.items.length ≤ q.head then (none, q)
    else if more : q.head < q.items.length - 1 then
      (out, { items := q.items.dropLast, head := q.head, inside := by rw [List.length_dropLast]; exact Nat.le_of_lt more })
    else (out, {})

def tryTake (compact : Bool) : WorkItem × WorkerQueue :=
  match q.items[q.head]? with
  | none => (none, q)
  | some out =>
    if more : q.head + 1 < q.items.length then
      if compact && decide (1024 < q.head + 1 ∧ q.items.length < (q.head + 1) * 2) then
        (out, { items := (q.items.set q.head none).drop (q.head + 1) })
      else (out, { items := q.items.set q.head none, head := q.head + 1, inside := by rw [List.length_set]; exact Nat.le_of_lt more })
    else (out, {})

def trySteal : WorkItem × WorkerQueue := q.tryTake true

def tryDequeueInjection : WorkItem × WorkerQueue := q.tryTake false

end WorkerQueue

def LeavesNothing (taken : WorkItem × WorkerQueue) : Prop := taken.1 = none → ∀ item ∈ taken.2.live, item = none

instance (taken : WorkItem × WorkerQueue) : Decidable (LeavesNothing taken) :=
  inferInstanceAs (Decidable (taken.1 = none → ∀ item ∈ taken.2.live, item = none))

inductive Place
  | injection
  | worker (index : Nat)
  deriving DecidableEq

/-- Where a worker is in `WorkerLoop`. A `TryDequeueAny` is the second one when the number of notifications has been
    `observed`, whose remainder is `observedWakeGeneration`. -/
inductive Phase
  | tryPop (observed : Option Nat)
  | tryInjection (observed : Option Nat)
  | trySteal (observed : Option Nat) (offset : Nat)
  | load
  | waiting (observed : Nat)
  | running (item : Nat)
  /-- The running item has submitted another one and not yet notified. -/
  | notifying (item : Nat)
  deriving DecidableEq

def Phase.observed : Phase → Option Nat
  | .tryPop observed | .tryInjection observed | .trySteal observed _ => observed
  | .waiting observed => some observed
  | .load | .running _ | .notifying _ => none

def Phase.notifies : Phase → Bool
  | .notifying _ => true
  | _ => false

def generations : Nat := 2 ^ 32

/-- `notified` counts the notifications, `submitting` the calls of `Execute` from outside that have not yet notified, `fresh` the
    items that were submitted. -/
structure State where
  queues : Place → WorkerQueue := fun _ => {}
  workers : List Phase
  notified : Nat := 0
  submitting : Nat := 0
  fresh : Nat := 0
  log : List Nat := []

inductive Action
  /-- `Execute` from outside. -/
  | submit (empty : Bool)
  | notify
  /-- `Execute` from the item that a worker runs. -/
  | submitLocal (worker : Nat) (empty : Bool)
  /-- The item that a worker runs is over. -/
  | finish (worker : Nat)
  /-- The next step of a worker. -/
  | work (worker : Nat)

namespace State

variable (s : State)

def start (threadCount : Nat) : State :=
  { workers := List.replicate (if threadCount = 0 then 1 else threadCount) (.tryPop none) }

def setPhase (w : Nat) (phase : Phase) : State := { s with workers := s.workers.set w phase }

def setQueue (place : Place) (q : WorkerQueue) : State := { s with queues := Function.update s.queues place q }

def enqueue (place : Place) (empty : Bool) : State :=
  if empty then s.setQueue place ((s.queues place).push none)
  else { s.setQueue place ((s.queues place).push (some s.fresh)) with fresh := s.fresh + 1 }

def took (w : Nat) (item : WorkItem) (otherwise : Phase) : State :=
  match item with
  | some item => { s.setPhase w (.running item) with log := s.log ++ [item] }
  | none => s.setPhase w otherwise

def foundNothing : Option Nat → Phase
  | none => .load
  | some observed => .waiting observed

def work (w : Nat) : Option State :=
  match s.workers[w]? with
  | some (.tryPop observed) =>
    let taken := (s.queues (.worker w)).tryPop
    some ((s.setQueue (.worker w) taken.2).took w taken.1 (.tryInjection observed))
  | some (.tryInjection observed) =>
    let taken := (s.queues .injection).tryDequeueInjection
    some ((s.setQueue .injection taken.2).took w taken.1 (.trySteal observed 1))
  | some (.trySteal observed offset) =>
    if offset < s.workers.length then
      let victim := (w + offset) % s.workers.length
      let taken := (s.queues (.worker victim)).trySteal
      some ((s.setQueue (.worker victim) taken.2).took w taken.1 (.trySteal observed (offset + 1)))
    else some (s.setPhase w (foundNothing observed))
  | some .load => some (s.setPhase w (.tryPop (some s.notified)))
  | some (.waiting observed) =>
    if s.notified % generations = observed % generations then none else some (s.setPhase w (.tryPop none))
  | some (.notifying item) => some { s.setPhase w (.running item) with notified := s.notified + 1 }
  | some (.running _) | none => none

def act (s : State) : Action → Option State
  | .submit empty => some { s.enqueue .injection empty with submitting := s.submitting + 1 }
  | .notify =>
    if 0 < s.submitting then some { s with submitting := s.submitting - 1, notified := s.notified + 1 } else none
  | .submitLocal w empty =>
    match s.workers[w]? with
    | some (.running item) => some ((s.enqueue (.worker w) empty).setPhase w (.notifying item))
    | _ => none
  | .finish w =>
    match s.workers[w]? with
    | some (.running _) => some (s.setPhase w (.tryPop none))
    | _ => none
  | .work w => s.work w

def Blocked (phase : Phase) : Prop :=
  match phase with
  | .waiting observed => s.notified % generations = observed % generations
  | _ => False

/-- With all workers asleep and no `Execute` in progress there is no work; and nothing is run twice. -/
structure Awake : Prop where
  work : (∀ phase ∈ s.workers, s.Blocked phase) → s.submitting = 0 → ∀ place item, some item ∉ (s.queues place).live
  once : s.log.Nodup

def Counts : Prop := ∀ phase ∈ s.workers, ∀ observed ∈ phase.observed, (s.notified + 1) % generations ≠ observed % generations

def second (w : Nat) : Phase → Option (WorkItem × WorkerQueue)
  | .tryPop (some _) => some (s.queues (.worker w)).tryPop
  | .tryInjection (some _) => some (s.queues .injection).tryDequeueInjection
  | .trySteal (some _) offset =>
    if offset < s.workers.length then some (s.queues (.worker ((w + offset) % s.workers.length))).trySteal else none
  | _ => none

def Orderly (s : State) : Action → Prop
  | .notify => s.Counts
  | .work w => ∀ phase ∈ s.workers[w]?, (∀ taken ∈ s.second w phase, LeavesNothing taken) ∧ (phase.notifies = true → s.Counts)
  | _ => True

instance : Decidable s.Counts :=
  inferInstanceAs (Decidable (∀ phase ∈ s.workers, ∀ observed ∈ phase.observed, _ ≠ _))

instance (s : State) : DecidablePred s.Orderly
  | .notify => inferInstanceAs (Decidable s.Counts)
  | .work w => inferInstanceAs (Decidable (∀ phase ∈ s.workers[w]?, _ ∧ _))
  | .submit _ | .submitLocal _ _ | .finish _ => .isTrue trivial

end State

end NginBase.Execution.ThreadPool
