import NginBase.Library.Interleaving

namespace NginBase.Async.WhenAny

open Library.Interleaving List

/-! `WhenAny` once its watchers are detached. A critical section is one step. -/

/-- The first watcher is `executing` until it has given the continuation away. -/
inductive Watcher
  | watching
  | executing
  | over
  deriving DecidableEq

inductive Awaiter
  | ready
  | suspending
  | suspended
  | resuming
  | returned (index : Nat)
  deriving DecidableEq

/-- `queued` handles are in the executor. `calls` are those of `Complete`; `resumed` is where the awaiter was at each resumption. -/
structure State where
  watchers : List Watcher
  completed : Bool := false
  index : Nat := 0
  continuation : Bool := false
  awaiter : Awaiter := .ready
  queued : Nat := 0
  calls : List Nat := []
  resumed : List Awaiter := []

inductive Action
  | await
  | complete (index : Nat)
  | execute (index : Nat)
  | runQueued

namespace State

variable (valid : Bool) (s : State)

def start (tasks : Nat) : State := { watchers := replicate tasks .watching }

def resume : State := { s with awaiter := .resuming, resumed := s.resumed ++ [s.awaiter] }

/-- `valid` is whether there is an executor. -/
def act : Action → Option State
  | .await =>
    match s.awaiter with
    | .ready => some { s with awaiter := if s.completed then .resuming else .suspending }
    | .suspending =>
      some (if s.completed then { s with awaiter := .resuming } else { s with awaiter := .suspended, continuation := true })
    | .resuming => some { s with awaiter := .returned s.index }
    | .suspended | .returned _ => none
  | .complete i =>
    if s.watchers[i]? ≠ some .watching then none
    else if s.completed then some { s with watchers := s.watchers.set i .over, calls := s.calls ++ [i] }
    else
      let next := if s.continuation then .executing else .over
      some { s with watchers := s.watchers.set i next, completed := true, index := i, calls := s.calls ++ [i] }
  | .execute i =>
    if s.watchers[i]? ≠ some .executing then none
    else
      let left := { s with watchers := s.watchers.set i .over }
      some (if valid then { left with queued := s.queued + 1 } else left.resume)
  | .runQueued => if 0 < s.queued then some { s with queued := s.queued - 1 }.resume else none

/-- One handle is on its way exactly while the awaiter is suspended after a completion. -/
structure Sound : Prop where
  handles : s.watchers.count .executing + s.queued = if s.completed ∧ s.awaiter = .suspended then 1 else 0
  pending : s.completed = false → (s.continuation = true ↔ s.awaiter = .suspended) ∧ s.awaiter ≠ .resuming
  returned : ∀ i, s.awaiter = .returned i → s.completed = true ∧ i = s.index
  first : s.calls.head? = if s.completed then some s.index else none
  resumed : s.resumed = [] ∨ s.resumed = [.suspended] ∧ s.awaiter ≠ .ready ∧ s.awaiter ≠ .suspending ∧ s.awaiter ≠ .suspended

variable {valid s}

theorem executing_set {l : List Watcher} {i : Nat} {w : Watcher} (found : l[i]? = some w) (w' : Watcher) :
    (l.set i w').count .executing + (if w = .executing then 1 else 0) = l.count .executing + if w' = .executing then 1 else 0 := by
  obtain ⟨inside, rfl⟩ := List.getElem?_eq_some_iff.mp found
  have counted : l[i] = .executing → 0 < l.count .executing := fun same => count_pos_iff.mpr (same ▸ getElem_mem inside)
  rw [count_set inside]
  split <;> grind

theorem Sound.act (sound : s.Sound) {a : Action} {s' : State} (acted : s.act valid a = some s') : s'.Sound := by
  obtain ⟨handles, pending, returned, first, resumed⟩ := sound
  cases a
  case' complete i | execute i => have counts := @executing_set s.watchers i
  all_goals
    simp only [State.act, resume] at acted
    repeat' split at acted
    all_goals cases acted
    all_goals constructor <;> first | assumption | (simp_all; done) | grind

/-- Once a task has completed, the awaiter returns its index, whether or not the others ever complete. -/
structure Answers (s : State) : Prop where
  once : s.resumed = [] ∨ s.resumed = [.suspended]
  winner : ∀ i, s.awaiter = .returned i → s.calls.head? = some i
  wakes : ∀ valid i, s.calls.head? = some i → (∀ a, (∀ j, a ≠ .complete j) → s.act valid a = none) → s.awaiter = .returned i

theorem whenAny_answers {tasks : Nat} {actions : List Action} (ran : run (act valid) (start tasks) actions = some s) : s.Answers := by
  obtain ⟨handles, pending, returned, first, resumed⟩ : s.Sound := by
    apply invariant (fun _ _ _ sound acted => Sound.act sound acted) ran
    constructor <;> simp [start, count_replicate]
  constructor
  · exact resumed.imp id And.left
  · grind
  · intro valid i called stuck
    have done : s.completed = true := by grind
    have awaits := stuck .await nofun
    cases phase : s.awaiter with
    | ready | suspending | resuming => simp [act, phase] at awaits
    | returned j => grind
    | suspended =>
      have idle : s.queued = 0 := by simpa [act] using stuck .runQueued nofun
      have handing : .executing ∈ s.watchers := count_pos_iff.mp (by simp_all)
      obtain ⟨j, found⟩ := mem_iff_getElem?.mp handing
      simpa [act, found] using stuck (.execute j) nofun

theorem whenAny_answers_second : ∃ s : State, s.awaiter = .returned 1 ∧ s.Answers := by
  have ran : run (act true) (start 2) [.await, .await, .complete 1, .execute 1, .runQueued, .await] = some _ := rfl
  exact ⟨_, rfl, whenAny_answers ran⟩

end State

end NginBase.Async.WhenAny
