import NginBase.Async.Promise
import NginBase.Library.Interleaving

namespace NginBase.Async.OperationAwait

open Library.Interleaving Option Completing List

/-- Where the awaiting thread is in `await_ready` and `await_suspend`. -/
inductive Awaiting
  | readyLoad
  | suspendLoad
  | continuationLoad
  | continuationStore
  | handlerStore
  | suspended
  /-- The coroutine goes on without a suspension. -/
  | goingOn
  /-- Another coroutine awaits the operation, and this one is finished with a fault. -/
  | faulted
  deriving DecidableEq

/-- `continued` counts how often the awaiting coroutine is continued. -/
structure State where
  promise : Promise := {}
  completing : Completing
  awaiting : Awaiting := .readyLoad
  continued : Nat := 0

inductive Action
  | complete
  | await

namespace State

variable (s : State)

/-- The completing thread is about to call `MarkFinishedAndResume`. -/
def start : State := { completing := .exchange false }

/-- `ResumeOnExecutor` is where the coroutine is handed over. -/
def complete : Option State :=
  match s.completing with
  | .done => none
  | .resume destroy => some { s with completing := .returned destroy, continued := s.continued + 1 }
  | phase => some { s with promise := (phase.next s.promise).1, completing := (phase.next s.promise).2 }

def goOn : State := { s with awaiting := .goingOn, continued := s.continued + 1 }

def await : Option State :=
  match s.awaiting with
  | .readyLoad => some (if s.promise.finished then s.goOn else { s with awaiting := .suspendLoad })
  | .suspendLoad => some (if s.promise.finished then s.goOn else { s with awaiting := .continuationLoad })
  | .continuationLoad => some { s with awaiting := if s.promise.continuation then .faulted else .continuationStore }
  | .continuationStore => some { s with awaiting := .handlerStore, promise := { s.promise with continuation := true } }
  | .handlerStore => some { s with awaiting := .suspended, promise := { s.promise with completionHandler := false } }
  | .suspended | .goingOn | .faulted => none

def act (s : State) : Action → Option State
  | .complete => s.complete
  | .await => s.await

def Timely (s : State) : Action → Prop
  | .await => s.awaiting = .continuationStore → s.completing.early = true
  | .complete => True

instance (s : State) : DecidablePred s.Timely
  | .await => inferInstanceAs (Decidable (s.awaiting = .continuationStore → s.completing.early = true))
  | .complete => .isTrue trivial

end State

def Awaiting.stored : Awaiting → Bool
  | .handlerStore | .suspended => true
  | _ => false

namespace State

structure Inv (s : State) : Prop where
  finished : s.promise.finished = s.completing.published
  continuation : s.promise.continuation = s.awaiting.stored
  handler : s.promise.completionHandler = false
  direct : ∀ destroy, s.completing ≠ .handler destroy
  ordinary : s.awaiting ≠ .faulted
  found : s.completing.resuming = true → s.awaiting.stored = true
  /-- A stored continuation is handed over when the completing thread has got past it. -/
  counted : s.continued =
    if s.awaiting.stored then (if s.completing.early || s.completing.resuming then 0 else 1)
    else if s.awaiting = .goingOn then 1 else 0

variable {s s' : State}

theorem start_inv : start.Inv where
  finished := rfl
  continuation := rfl
  handler := rfl
  direct _ := nofun
  ordinary := nofun
  found := nofun
  counted := rfl

theorem Inv.next (inv : s.Inv) (resumes : ∀ destroy, s.completing ≠ .resume destroy) :
    Inv { s with promise := (s.completing.next s.promise).1, completing := (s.completing.next s.promise).2 } where
  finished := next_finished inv.finished
  continuation := by simpa using inv.continuation
  handler := by simpa using inv.handler
  direct destroy called := by
    have set := next_handler called
    rw [inv.handler] at set
    contradiction
  ordinary := inv.ordinary
  found now := by
    cases next_resuming now with
    | inl before => exact inv.found before
    | inr stored => rw [← inv.continuation, stored]
  counted := by
    have before := inv.counted
    cases stored : s.awaiting.stored with
    | false => simpa [stored] using before
    | true =>
      have continuation : s.promise.continuation = true := inv.continuation.trans stored
      rw [before]
      simp only [stored, next_waiting inv.finished continuation resumes inv.direct]

theorem Inv.complete (inv : s.Inv) (acted : s.complete = some s') : s'.Inv := by
  unfold State.complete at acted
  split at acted
  case h_1 => contradiction
  case h_2 destroy resuming =>
    obtain rfl := some.inj acted
    have stored : s.awaiting.stored = true := inv.found (by rw [resuming]; rfl)
    have before := inv.counted
    rw [resuming] at before
    constructor
    · exact inv.finished.trans (by rw [resuming]; rfl)
    · exact inv.continuation
    · exact inv.handler
    · nofun
    · exact inv.ordinary
    · nofun
    · simp [stored, before, Completing.early, Completing.resuming]
  case h_3 resumes =>
    obtain rfl := some.inj acted
    exact inv.next resumes

theorem Inv.goOn (inv : s.Inv) (before : s.awaiting = .readyLoad ∨ s.awaiting = .suspendLoad) : s.goOn.Inv := by
  have fresh : s.awaiting.stored = false ∧ s.awaiting ≠ .goingOn := by
    cases before with
    | inl ready => simp [ready, Awaiting.stored]
    | inr suspend => simp [suspend, Awaiting.stored]
  constructor
  · exact inv.finished
  · exact inv.continuation.trans fresh.1
  · exact inv.handler
  · exact inv.direct
  · nofun
  · intro resuming
    have stored := inv.found resuming
    rw [fresh.1] at stored
    contradiction
  · have none_ := inv.counted
    simp [fresh] at none_
    simp [State.goOn, none_, Awaiting.stored]

theorem Inv.waits (inv : s.Inv) {awaiting : Awaiting} (same : awaiting.stored = s.awaiting.stored)
    (still : s.awaiting ≠ .goingOn) (waits : awaiting ≠ .goingOn) (ordinary : awaiting ≠ .faulted) :
    Inv { s with awaiting := awaiting } where
  finished := inv.finished
  continuation := inv.continuation.trans same.symm
  handler := inv.handler
  direct := inv.direct
  ordinary := ordinary
  found resuming := same.trans (inv.found resuming)
  counted := by
    have before := inv.counted
    simpa [same, still, waits] using before

theorem Inv.await (inv : s.Inv) (timely : s.Timely .await) (acted : s.await = some s') : s'.Inv := by
  unfold State.await at acted
  cases phase : s.awaiting with
  | readyLoad =>
    simp only [phase] at acted
    obtain rfl := some.inj acted
    split
    · exact inv.goOn (.inl phase)
    · exact inv.waits (by rw [phase]; rfl) (by rw [phase]; nofun) nofun nofun
  | suspendLoad =>
    simp only [phase] at acted
    obtain rfl := some.inj acted
    split
    · exact inv.goOn (.inr phase)
    · exact inv.waits (by rw [phase]; rfl) (by rw [phase]; nofun) nofun nofun
  | continuationLoad =>
    have unset : s.promise.continuation = false := by rw [inv.continuation, phase]; rfl
    simp only [phase, unset] at acted
    obtain rfl := some.inj acted
    exact inv.waits (by rw [phase]; rfl) (by rw [phase]; nofun) nofun nofun
  | continuationStore =>
    simp only [phase] at acted
    obtain rfl := some.inj acted
    have early : s.completing.early = true := timely phase
    have none_ := inv.counted
    simp [phase] at none_
    constructor
    · exact inv.finished
    · rfl
    · exact inv.handler
    · exact inv.direct
    · nofun
    · intro _
      rfl
    · simp [early, none_]
  | handlerStore =>
    simp only [phase] at acted
    obtain rfl := some.inj acted
    have stored : Inv { s with awaiting := .suspended } := inv.waits (by rw [phase]; rfl) (by rw [phase]; nofun) nofun nofun
    exact { stored with handler := rfl }
  | suspended | goingOn | faulted => simp [phase] at acted

/-- When neither thread can go on, the coroutine has been continued once, if its continuation was never stored too late. -/
theorem timely_continued_once (actions : List Action) (ran : run act start actions = some s)
    (timely : Along act Timely start actions) (stuck : Stuck act s) : s.continued = 1 := by
  have inv : s.Inv := by
    apply keeps _ timely ran start_inv
    intro s action s' inv timely acted
    cases action with
    | complete => exact inv.complete acted
    | await => exact inv.await timely acted
  have finished : s.completing = .done := by
    have none_ : s.complete = none := stuck .complete
    unfold State.complete at none_
    split at none_
    case h_1 done => exact done
    all_goals contradiction
  have none_ : s.await = none := stuck .await
  have counted := inv.counted
  have ordinary := inv.ordinary
  unfold State.await at none_
  cases phase : s.awaiting with
  | suspended => simpa [phase, finished, Awaiting.stored, early, resuming] using counted
  | goingOn => simpa [phase, Awaiting.stored] using counted
  | faulted => exact absurd phase ordinary
  | _ => simp [phase] at none_

theorem timely_continued_once_suspended : ∃ actions s, run act start actions = some s ∧ Stuck act s ∧
    s.awaiting = .suspended ∧ s.continued = 1 := by
  have settled : ∀ s, run act start (replicate 5 .await ++ replicate 7 .complete) = some s →
      Stuck act s ∧ s.awaiting = .suspended := by
    intro s ran
    obtain rfl := some.inj ran
    refine ⟨?_, rfl⟩
    intro action
    cases action <;> rfl
  obtain ⟨s, ran⟩ : ∃ s, run act start (replicate 5 .await ++ replicate 7 .complete) = some s := ⟨_, rfl⟩
  obtain ⟨stuck, suspended⟩ := settled s ran
  exact ⟨_, s, ran, stuck, suspended, timely_continued_once _ ran (by decide) stuck⟩

theorem late_never_continued : ∃ actions s, run act start actions = some s ∧ Stuck act s ∧ s.continued = 0 := by
  refine ⟨replicate 3 .await ++ replicate 5 .complete ++ replicate 2 .await, _, rfl, ?_, rfl⟩
  intro action
  cases action <;> rfl

end State

end NginBase.Async.OperationAwait
