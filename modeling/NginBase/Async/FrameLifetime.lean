import NginBase.Async.Promise
import NginBase.Library.Interleaving

namespace NginBase.Async.FrameLifetime

open Library.Interleaving Option Completing

/-! Who destroys the frame of a spawned coroutine: the thread that completes it, or the `Operation` that owns it. -/

/-- Where the owner is: the calls of `Operation`, `SyncWait` and `Detach`. -/
inductive Owning
  | holding
  /-- `TryTakeResult`, and the coroutine that awaited the operation. -/
  | takeLoad
  | take
  | waitLoad
  | waitGeneration
  | waitAgain (generation : Nat)
  | blocked (generation : Nat)
  | readyLoad
  | suspendLoad
  | continuationLoad
  | continuationStore
  | suspended
  /-- `IsCompleted` in `Detach`. -/
  | detachCheck
  | releaseLoad
  | detachStore
  | destroy
  | gone
  deriving DecidableEq

inductive Call
  | isCompleted
  | takeResult
  | wait
  | await
  | release

/-- Where the coroutine is; `running` until it reaches its final suspension or its child has failed. -/
inductive Coroutine
  | running
  | completing (phase : Completing)
  deriving DecidableEq

/-- `registering` says that the thread of a suspended owner is still in `await_suspend`. `destroyed` counts, and `misused` says
    that the promise was accessed after that. -/
structure State where
  promise : Promise := {}
  coroutine : Coroutine := .running
  owner : Owning
  registering : Bool := false
  destroyed : Nat := 0
  misused : Bool := false
  deriving DecidableEq

inductive Action
  | call (call : Call)
  | own
  | register
  /-- The coroutine ends by itself, or its child's failure is propagated to it. -/
  | finish (propagated : Bool)
  | complete

namespace State

variable (s : State)

def touch : State := { s with misused := s.misused || decide (0 < s.destroyed) }

def goTo (owner : Owning) : State := { s with owner := owner }

def destroyFrame : State := { s with destroyed := s.destroyed + 1 }

def call (call : Call) : Option State :=
  if s.owner = .holding then
    some (match call with
      | .isCompleted => s.touch
      | .takeResult => s.goTo .takeLoad
      | .wait => s.goTo .waitLoad
      | .await => s.goTo .readyLoad
      | .release => s.goTo .releaseLoad)
  else none

def own : Option State :=
  match s.owner with
  | .holding | .suspended | .gone => none
  | .takeLoad => some (s.touch.goTo (if s.promise.finished then .take else .holding))
  | .take => some (s.touch.goTo .holding)
  | .waitLoad => some (s.touch.goTo (if s.promise.finished then .holding else .waitGeneration))
  | .waitGeneration => some (s.touch.goTo (.waitAgain s.promise.generation))
  | .waitAgain generation => some (s.touch.goTo (if s.promise.finished then .holding else .blocked generation))
  | .blocked generation => if s.promise.generation = generation then none else some (s.touch.goTo .waitLoad)
  | .readyLoad => some (s.touch.goTo (if s.promise.finished then .takeLoad else .suspendLoad))
  | .suspendLoad => some (s.touch.goTo (if s.promise.finished then .takeLoad else .continuationLoad))
  | .continuationLoad => some (s.touch.goTo (if s.promise.continuation then .releaseLoad else .continuationStore))
  | .continuationStore =>
    some { s.touch with owner := .suspended, registering := true, promise := { s.promise with continuation := true } }
  | .detachCheck => some (s.touch.goTo (if s.promise.finished then .releaseLoad else .detachStore))
  | .releaseLoad => some (s.touch.goTo (if s.promise.finished then .destroy else .detachStore))
  | .detachStore => some { s.touch with owner := .gone, promise := { s.promise with detached := true } }
  | .destroy => some (s.destroyFrame.goTo .gone)

/-- The thread of a suspended owner stores `m_completionHandler` and leaves `await_suspend`. -/
def register : Option State :=
  if s.registering then some { s.touch with registering := false, promise := { s.promise with completionHandler := false } }
  else none

def finish (propagated : Bool) : Option State :=
  match s.coroutine with
  | .running => some { s.touch with coroutine := .completing (if propagated then .exchange false else .detachedLoad) }
  | .completing _ => none

/-- The next step of the completing thread. A suspended owner goes on when it is handed to its executor. -/
def complete : Option State :=
  match s.coroutine with
  | .running | .completing .done => none
  | .completing (.returned destroy) =>
    some { (if destroy then s.destroyFrame else s) with coroutine := .completing .done }
  | .completing (.resume destroy) =>
    some { s.touch with coroutine := .completing (.returned destroy)
                        owner := if s.owner = .suspended then .takeLoad else s.owner }
  | .completing phase =>
    some { s.touch with promise := (phase.next s.promise).1, coroutine := .completing (phase.next s.promise).2 }

def act (s : State) : Action → Option State
  | .call call => s.call call
  | .own => s.own
  | .register => s.register
  | .finish propagated => s.finish propagated
  | .complete => s.complete

/-- The frame is destroyed at most once, and once when everything is over, and nothing accesses the promise after that. -/
structure Settled : Prop where
  once : s.destroyed ≤ 1
  unused : s.misused = false
  destroyed : s.coroutine = .completing .done → s.owner = .gone → s.destroyed = 1

def undecided : Bool :=
  match s.coroutine with
  | .running | .completing .detachedLoad => true
  | _ => false

def abandoned : Bool :=
  !s.registering && match s.coroutine with
  | .running => false
  | .completing phase => !phase.touches

/-- A task is detached before it decides whether to destroy itself; a detached one ends by itself; and its owner destroys it
    when the others have left the promise. -/
def Orderly (s : State) : Action → Prop
  | .own => (s.owner = .detachStore → s.undecided = true) ∧ (s.owner = .destroy → s.abandoned = true)
  | .finish propagated => s.promise.detached = true → propagated = false
  | _ => True

instance (s : State) : DecidablePred s.Orderly
  | .own => inferInstanceAs (Decidable (_ ∧ _))
  | .finish propagated => inferInstanceAs (Decidable (s.promise.detached = true → propagated = false))
  | .call _ | .register | .complete => .isTrue trivial

def published : Bool :=
  match s.coroutine with
  | .running => false
  | .completing phase => phase.published

def destroying : Bool :=
  match s.coroutine with
  | .running => false
  | .completing phase => phase.destroying

inductive Responsible : Prop
  | owner (has : s.owner ≠ .gone) (kept : s.promise.detached = false) (alive : s.destroyed = 0)
    (leaves : s.destroying = false) (alone : s.owner = .detachStore → s.promise.continuation = false)
  | nobody (gone : s.owner = .gone) (kept : s.promise.detached = false) (destroyed : s.destroyed = 1)
    (leaves : s.destroying = false) (abandoned : s.abandoned = true)
  | coroutine (gone : s.owner = .gone) (detached : s.promise.detached = true) (alone : s.promise.continuation = false)
    (registered : s.registering = false) (alive : s.destroyed = 0) (destroys : s.undecided = true ∨ s.destroying = true)
  | done (gone : s.owner = .gone) (over_ : s.coroutine = .completing .done) (destroyed : s.destroyed = 1)
    (registered : s.registering = false)

structure Inv : Prop where
  finished : s.promise.finished = s.published
  handler : s.promise.completionHandler = false
  direct : ∀ destroy, s.coroutine ≠ .completing (.handler destroy)
  found : ∀ phase, s.coroutine = .completing phase → phase.resuming = true → s.promise.continuation = true
  /-- A coroutine that awaited the operation goes on when the operation is finished. -/
  awaited : s.promise.continuation = true → s.owner = .suspended ∨ s.published = true
  registers : s.registering = true → s.promise.continuation = true
  unused : s.misused = false
  responsible : s.Responsible

variable {s s' : State}

theorem touch_alive (alive : s.destroyed = 0) : s.touch = s := by
  obtain ⟨promise, coroutine, owner, registering, destroyed, misused⟩ := s
  obtain rfl : destroyed = 0 := alive
  simp [touch]

section

variable (inv : s.Inv)

include inv

theorem Inv.settled : s.Settled := by
  constructor
  · cases inv.responsible with
    | owner _ _ alive | coroutine _ _ _ _ alive => omega
    | nobody _ _ destroyed | done _ _ destroyed => omega
  · exact inv.unused
  · intro over_ gone
    cases inv.responsible with
    | owner has => exact absurd gone has
    | nobody _ _ destroyed | done _ _ destroyed => exact destroyed
    | coroutine _ _ _ _ _ destroys => simp [undecided, destroying, over_, Completing.destroying] at destroys

theorem Inv.owned (has : s.owner ≠ .gone) : s.promise.detached = false ∧ s.destroyed = 0 ∧
    s.destroying = false ∧ (s.owner = .detachStore → s.promise.continuation = false) := by
  cases inv.responsible with
  | owner _ kept alive leaves alone => exact ⟨kept, alive, leaves, alone⟩
  | nobody gone | coroutine gone | done gone => exact absurd gone has

theorem Inv.goTo {owner : Owning} (has : s.owner ≠ .gone) (awake : s.owner ≠ .suspended) (keeps : owner ≠ .gone)
    (alone : owner = .detachStore → s.promise.continuation = false) : (s.goTo owner).Inv := by
  obtain ⟨kept, alive, leaves, _⟩ := inv.owned has
  constructor
  · exact inv.finished
  · exact inv.handler
  · exact inv.direct
  · exact inv.found
  · intro stored
    exact .inr ((inv.awaited stored).resolve_left awake)
  · exact inv.registers
  · exact inv.unused
  · exact .owner keeps kept alive leaves alone

theorem Inv.alone (awake : s.owner ≠ .suspended) (unfinished : s.promise.finished = false) :
    s.promise.continuation = false := by
  by_contra stored
  have published := (inv.awaited (Bool.not_eq_false _ ▸ stored)).resolve_left awake
  rw [← inv.finished, unfinished] at published
  contradiction

theorem Inv.call {call : Call} (acted : s.call call = some s') : s'.Inv := by
  unfold State.call at acted
  split at acted
  case isFalse => contradiction
  case isTrue holding =>
    obtain rfl := some.inj acted
    have has : s.owner ≠ .gone := by simp [holding]
    have awake : s.owner ≠ .suspended := by simp [holding]
    cases call with
    | isCompleted =>
      rw [touch_alive (inv.owned has).2.1]
      exact inv
    | _ => exact inv.goTo has awake nofun nofun

theorem Inv.store (storing : s.owner = .continuationStore) :
    Inv { s with owner := .suspended, registering := true, promise := { s.promise with continuation := true } } := by
  have has : s.owner ≠ .gone := by simp [storing]
  obtain ⟨kept, alive, leaves, _⟩ := inv.owned has
  constructor
  · exact inv.finished
  · exact inv.handler
  · exact inv.direct
  · intro _ _ _
    rfl
  · intro _
    exact .inl rfl
  · intro _
    rfl
  · exact inv.unused
  · exact .owner nofun kept alive leaves nofun

theorem Inv.detach (storing : s.owner = .detachStore) (undecided : s.undecided = true) :
    Inv { s with owner := .gone, promise := { s.promise with detached := true } } := by
  have has : s.owner ≠ .gone := by simp [storing]
  obtain ⟨_, alive, _, alone⟩ := inv.owned has
  have alone := alone storing
  constructor
  · exact inv.finished
  · exact inv.handler
  · exact inv.direct
  · exact inv.found
  · intro stored
    rw [alone] at stored
    contradiction
  · exact inv.registers
  · exact inv.unused
  apply Responsible.coroutine
  · rfl
  · rfl
  · exact alone
  · by_contra registering
    have stored := inv.registers (by simpa using registering)
    rw [alone] at stored
    contradiction
  · exact alive
  · exact .inl undecided

theorem Inv.destroy (storing : s.owner = .destroy) (abandoned : s.abandoned = true) : (s.destroyFrame.goTo .gone).Inv := by
  have has : s.owner ≠ .gone := by simp [storing]
  obtain ⟨kept, alive, leaves, _⟩ := inv.owned has
  constructor
  · exact inv.finished
  · exact inv.handler
  · exact inv.direct
  · exact inv.found
  · intro stored
    exact .inr ((inv.awaited stored).resolve_left (by simp [storing]))
  · exact inv.registers
  · exact inv.unused
  · exact .nobody rfl kept (congrArg (· + 1) alive) leaves abandoned

theorem Inv.own (orderly : s.Orderly .own) (acted : s.own = some s') : s'.Inv := by
  unfold State.own at acted
  have untouched : s.owner ≠ .gone → s.touch = s := fun has => touch_alive (inv.owned has).2.1
  cases phase : s.owner with
  | holding | suspended | gone => simp [phase] at acted
  | continuationStore =>
    simp only [phase, untouched (by simp [phase])] at acted
    obtain rfl := some.inj acted
    exact inv.store phase
  | detachStore =>
    simp only [phase, untouched (by simp [phase])] at acted
    obtain rfl := some.inj acted
    exact inv.detach phase (orderly.1 phase)
  | destroy =>
    simp only [phase] at acted
    obtain rfl := some.inj acted
    exact inv.destroy phase (orderly.2 phase)
  | blocked generation =>
    simp only [phase, untouched (by simp [phase])] at acted
    split at acted
    · contradiction
    obtain rfl := some.inj acted
    exact inv.goTo (by simp [phase]) (by simp [phase]) nofun nofun
  | detachCheck | releaseLoad =>
    simp only [phase, untouched (by simp [phase])] at acted
    obtain rfl := some.inj acted
    have awake : s.owner ≠ .suspended := by simp [phase]
    cases finished : s.promise.finished with
    | true => exact inv.goTo (by simp [phase]) awake nofun nofun
    | false => exact inv.goTo (by simp [phase]) awake nofun fun _ => inv.alone awake finished
  | take | waitGeneration =>
    simp only [phase, untouched (by simp [phase])] at acted
    obtain rfl := some.inj acted
    exact inv.goTo (by simp [phase]) (by simp [phase]) nofun nofun
  | takeLoad | waitLoad | waitAgain | readyLoad | suspendLoad | continuationLoad =>
    simp only [phase, untouched (by simp [phase])] at acted
    obtain rfl := some.inj acted
    apply inv.goTo (by simp [phase]) (by simp [phase])
    · split <;> nofun
    · split <;> nofun

theorem Inv.register (acted : s.register = some s') : s'.Inv := by
  unfold State.register at acted
  split at acted
  case isFalse => contradiction
  case isTrue registering =>
    cases inv.responsible with
    | owner has kept alive leaves alone =>
      rw [touch_alive alive] at acted
      obtain rfl := some.inj acted
      constructor
      · exact inv.finished
      · rfl
      · exact inv.direct
      · exact inv.found
      · exact inv.awaited
      · nofun
      · exact inv.unused
      · exact .owner has kept alive leaves alone
    | nobody _ _ _ _ abandoned => simp [State.abandoned, registering] at abandoned
    | coroutine _ _ _ registered | done _ _ _ registered => simp [registering] at registered

theorem Inv.finish {propagated : Bool} (orderly : s.Orderly (.finish propagated))
    (acted : s.finish propagated = some s') : s'.Inv := by
  unfold State.finish at acted
  split at acted
  case h_2 => contradiction
  case h_1 running =>
    have unfinished : s.promise.finished = false := by simpa [published, running] using inv.finished
    have alive : s.destroyed = 0 := by
      cases inv.responsible with
      | owner _ _ alive | coroutine _ _ _ _ alive => exact alive
      | nobody _ _ _ _ abandoned => simp [State.abandoned, running] at abandoned
      | done _ over_ => simp [running] at over_
    rw [touch_alive alive] at acted
    obtain rfl := some.inj acted
    constructor
    · cases propagated <;> exact unfinished
    · exact inv.handler
    · intro destroy
      cases propagated <;> nofun
    · intro phase same resuming
      obtain rfl := Coroutine.completing.inj same
      cases propagated <;> contradiction
    · intro stored
      have before := inv.awaited stored
      simp only [published, running, Bool.false_eq_true, or_false] at before
      exact .inl before
    · exact inv.registers
    · exact inv.unused
    cases inv.responsible with
    | owner has kept alive _ alone =>
      apply Responsible.owner
      · exact has
      · exact kept
      · exact alive
      · cases propagated <;> rfl
      · exact alone
    | nobody _ _ destroyed => omega
    | coroutine gone detached alone registered alive _ =>
      obtain rfl := orderly detached
      exact .coroutine gone detached alone registered alive (.inl rfl)
    | done _ over_ => simp [running] at over_

theorem Inv.resume {destroy : Bool} (phase : s.coroutine = .completing (.resume destroy)) :
    Inv { s.touch with coroutine := .completing (.returned destroy)
                       owner := if s.owner = .suspended then .takeLoad else s.owner } := by
  have stored := inv.found _ phase rfl
  cases inv.responsible with
  | owner has kept alive leaves alone =>
    rw [touch_alive alive]
    constructor
    · exact inv.finished.trans (by simp [published, phase, Completing.published])
    · exact inv.handler
    · simp
    · intro other same resuming
      obtain rfl := Coroutine.completing.inj same
      contradiction
    · intro _
      exact .inr rfl
    · exact inv.registers
    · exact inv.unused
    apply Responsible.owner
    · split
      · simp
      · exact has
    · exact kept
    · exact alive
    · simpa [destroying, phase, Completing.destroying] using leaves
    · intro storing
      apply alone
      by_cases suspended : s.owner = .suspended
      · simp [suspended] at storing
      · simpa [suspended] using storing
  | nobody _ _ _ _ abandoned => simp [State.abandoned, phase, touches] at abandoned
  | coroutine _ _ alone => simp [alone] at stored
  | done _ over_ => simp [phase] at over_

theorem Inv.leave {destroy : Bool} (phase : s.coroutine = .completing (.returned destroy)) :
    Inv { (if destroy then s.destroyFrame else s) with coroutine := .completing .done } := by
  have same : s.destroying = destroy := by simp [destroying, phase, Completing.destroying]
  have shown : s.published = true := by simp [published, phase, Completing.published]
  cases destroy with
  | false =>
    constructor
    · exact inv.finished.trans shown
    · exact inv.handler
    · simp
    · intro other same resuming
      obtain rfl := Coroutine.completing.inj same
      contradiction
    · intro _
      exact .inr rfl
    · exact inv.registers
    · exact inv.unused
    cases inv.responsible with
    | owner has kept alive _ alone => exact .owner has kept alive rfl alone
    | nobody gone kept destroyed _ abandoned =>
      have registered : s.registering = false := by
        simpa [State.abandoned, phase, touches] using abandoned
      exact .nobody gone kept destroyed rfl (by simp [State.abandoned, registered, touches])
    | coroutine _ _ _ _ _ destroys => simp [undecided, phase, same] at destroys
    | done gone over_ destroyed registered => exact .done gone rfl destroyed registered
  | true =>
    constructor
    · exact inv.finished.trans shown
    · exact inv.handler
    · simp
    · intro other same resuming
      obtain rfl := Coroutine.completing.inj same
      contradiction
    · intro _
      exact .inr rfl
    · exact inv.registers
    · exact inv.unused
    · cases inv.responsible with
      | owner _ _ _ leaves | nobody _ _ _ leaves => simp [same] at leaves
      | coroutine gone _ _ registered alive _ => exact .done gone rfl (congrArg (· + 1) alive) registered
      | done _ over_ => simp [phase] at over_

theorem Inv.next {phase : Completing} (at_ : s.coroutine = .completing phase) (touches : phase.touches = true)
    (resumes : ∀ destroy, phase ≠ .resume destroy) :
    Inv { s.touch with promise := (phase.next s.promise).1, coroutine := .completing (phase.next s.promise).2 } := by
  have alive : s.destroyed = 0 := by
    cases inv.responsible with
    | owner _ _ alive | coroutine _ _ _ _ alive => exact alive
    | nobody _ _ _ _ abandoned => simp [State.abandoned, at_, touches] at abandoned
    | done _ over_ =>
      rw [at_] at over_
      obtain rfl := Coroutine.completing.inj over_
      contradiction
  rw [touch_alive alive]
  have agree : s.promise.finished = phase.published := by
    rw [inv.finished]
    simp [published, at_]
  constructor
  · exact next_finished agree
  · simpa using inv.handler
  · intro destroy same
    have set := next_handler (Coroutine.completing.inj same)
    rw [inv.handler] at set
    contradiction
  · intro other same resuming
    obtain rfl := Coroutine.completing.inj same
    cases next_resuming resuming with
    | inl before => simpa using inv.found phase at_ before
    | inr stored => simpa using stored
  · intro stored
    cases inv.awaited (by simpa using stored) with
    | inl suspended => exact .inl suspended
    | inr shown =>
      apply Or.inr
      have before : phase.published = true := by simpa [published, at_] using shown
      exact next_published before
  · intro registering
    simpa using inv.registers registering
  · exact inv.unused
  cases inv.responsible with
  | owner has kept _ leaves alone =>
    have before : phase.destroying = false := by simpa [destroying, at_] using leaves
    apply Responsible.owner
    · exact has
    · simpa using kept
    · exact alive
    · exact next_not_destroying kept before
    · intro storing
      simpa using alone storing
  | nobody _ _ destroyed | done _ _ destroyed => omega
  | coroutine gone detached alone registered _ destroys =>
    have before : phase = .detachedLoad ∨ phase.destroying = true := by
      cases destroys with
      | inl undecided =>
        apply Or.inl
        cases phase <;> simp [State.undecided, at_] at undecided ⊢
      | inr destroys => exact .inr (by simpa [destroying, at_] using destroys)
    apply Responsible.coroutine
    · exact gone
    · simpa using detached
    · simpa using alone
    · exact registered
    · exact alive
    · exact .inr (next_destroying detached alone before touches)

theorem Inv.complete (acted : s.complete = some s') : s'.Inv := by
  unfold State.complete at acted
  split at acted
  case h_1 => contradiction
  case h_2 => contradiction
  case h_3 destroy phase =>
    obtain rfl := some.inj acted
    exact inv.leave phase
  case h_4 destroy phase =>
    obtain rfl := some.inj acted
    exact inv.resume phase
  case h_5 phase finished returned resumes at_ =>
    obtain rfl := some.inj acted
    apply inv.next at_ _ resumes
    cases phase with
    | returned destroy => exact absurd rfl (returned destroy)
    | done => exact absurd rfl finished
    | _ => rfl

end

/-- `Spawn` and `SyncWait` give the caller an `Operation`; `Detach` gives it up at once. -/
def start (detach : Bool) : State := { owner := if detach then .detachCheck else .holding }

theorem start_inv (detach : Bool) : (start detach).Inv where
  finished := rfl
  handler := rfl
  direct _ := nofun
  found _ := nofun
  awaited := nofun
  registers := nofun
  unused := rfl
  responsible := by
    cases detach with
    | false => exact .owner nofun rfl rfl rfl nofun
    | true => exact .owner nofun rfl rfl rfl nofun

/-- In an orderly run the frame is destroyed exactly once and not touched afterwards. -/
theorem orderly_settled (detach : Bool) (actions : List Action) (ran : run act (start detach) actions = some s)
    (orderly : Along act Orderly (start detach) actions) : s.Settled := by
  apply Inv.settled
  apply keeps _ orderly ran (start_inv detach)
  intro s action s' inv orderly acted
  cases action with
  | call call => exact inv.call acted
  | own => exact inv.own orderly acted
  | register => exact inv.register acted
  | finish propagated => exact inv.finish orderly acted
  | complete => exact inv.complete acted

theorem orderly_settled_wait : ∃ actions s, run act (start false) actions = some s ∧
    s.coroutine = .completing .done ∧ s.owner = .gone ∧ s.Settled := by
  have ran : run act (start false) ([.call .wait, .own, .own, .own, .finish false] ++ List.replicate 6 .complete ++
      [.own, .own, .call .takeResult, .own, .own, .call .release, .own, .own]) =
      some { start false with promise := { finished := true, generation := 1 }, coroutine := .completing .done, owner := .gone,
                              destroyed := 1 } := by decide
  exact ⟨_, _, ran, rfl, rfl, orderly_settled false _ ran (by decide)⟩

theorem disorderly_unsettled :
    (∃ actions s, run act (start false) actions = some s ∧ (s.coroutine = .completing .done ∧ s.owner = .gone ∧ s.destroyed = 0) ∧
      ¬ s.Settled) ∧
    (∃ actions s, run act (start true) actions = some s ∧ (s.coroutine = .completing .done ∧ s.owner = .gone ∧ s.destroyed = 0) ∧
      ¬ s.Settled) ∧
    ∃ actions s, run act (start false) actions = some s ∧ s.misused = true ∧ ¬ s.Settled := by
  refine ⟨⟨[.call .release, .own, .finish false] ++ List.replicate 6 .complete ++ [.own], _, rfl, by decide, ?_⟩,
    ⟨[.own, .own, .finish true] ++ List.replicate 5 .complete, _, rfl, by decide, ?_⟩,
    ⟨[.call .wait, .finish false, .complete, .complete, .own, .call .release, .own, .own, .complete], _, rfl, rfl, ?_⟩⟩
  · intro settled
    exact absurd (settled.destroyed rfl rfl) (by decide)
  · intro settled
    exact absurd (settled.destroyed rfl rfl) (by decide)
  · intro settled
    exact absurd settled.unused (by decide)

end State

end NginBase.Async.FrameLifetime
