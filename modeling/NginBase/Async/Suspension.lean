import NginBase.Library.Interleaving

namespace NginBase.Async.Suspension

open Library.Interleaving List Option

/-! A task that suspends in `TaskContext::Delay` and `TaskContext::YieldNow`, on a single-threaded executor. -/

inductive Outcome
  | returned
  | canceled
  /-- `InvalidTaskUsage`. -/
  | fault

/-- What the task awaits; `due` says that the duration is not positive. -/
inductive Awaiter
  | yieldNow
  | delay (due : Bool)

/-- Suspensions are numbered. -/
inductive Position
  | running
  | suspended (n : Nat)
  | final

inductive Event
  | resumed (n : Nat)
  | canceled (n : Nat)
  | faulted (n : Nat)
  deriving DecidableEq

/-- `queue` has the work items that the executor has not run, `requested` says that the token is canceled, and `registered` that
    the registration in the frame is active. `misused` says that the promise or the coroutine was used after its destruction. -/
structure State where
  position : Position := .running
  completion : Option Outcome := none
  finished : Bool := false
  detached : Bool := false
  registered : Bool := false
  requested : Bool := false
  queue : List Nat := []
  owned : Bool := true
  destroyed : Bool := false
  misused : Bool := false
  suspensions : Nat := 0
  log : List Event := []

inductive Action
  /-- The running body awaits; `executor` says that its context has one. -/
  | await (awaiter : Awaiter) (executor : Bool)
  | return_
  /-- The executor takes an item of its queue. -/
  | item (i : Nat)
  | cancel
  /-- The owner destroys or detaches the task. -/
  | releaseHandle

namespace State

variable (s : State)

def touch : State := { s with misused := s.misused || s.destroyed }

def setCompletion (outcome : Outcome) : State := { s with completion := s.completion <|> some outcome }

def note (event : Event) : State := { s with log := s.log ++ [event] }

def markFinishedAndResume : State := { s with finished := true }

def destroy : State := { s with destroyed := true, registered := false }

def awaitReady (executor : Bool) : Awaiter → Bool
  | .yieldNow => false
  | .delay due => executor && !s.requested && due

def awaitSuspend (n : Nat) (executor : Bool) : State :=
  if s.requested then ((s.setCompletion .canceled).markFinishedAndResume).note (.canceled n)
  else if !executor then ((s.setCompletion .fault).markFinishedAndResume).note (.faulted n)
  else { s with registered := true, queue := s.queue ++ [n] }

def await (awaiter : Awaiter) (executor : Bool) : Option State :=
  match s.position with
  | .running =>
    some (if s.awaitReady executor awaiter then s
      else { s with position := .suspended s.suspensions, suspensions := s.suspensions + 1 }.awaitSuspend s.suspensions executor)
  | .suspended _ | .final => none

/-- The body ends in `FinalAwaiter`, which destroys a detached task. -/
def return_ : Option State :=
  match s.position with
  | .running =>
    let s := { s.setCompletion .returned with position := .final }.markFinishedAndResume
    some (if s.detached then s.destroy else s)
  | .suspended _ | .final => none

/-- The awaiter goes with its registration when the coroutine is resumed. -/
def resume : State :=
  match s.position with
  | .suspended n => { s.touch.note (.resumed n) with position := .running, registered := false }
  | .running | .final => { s with misused := true }

def take (i : Nat) : State := { s.touch with queue := s.queue.eraseIdx i }

def item (i : Nat) : Option State :=
  match s.queue[i]? with
  | none => none
  | some _ => some (if (s.take i).finished then s.take i else (s.take i).resume)

def callback : State :=
  let canceled := (s.setCompletion .canceled).markFinishedAndResume
  match s.position with
  | .suspended n => canceled.touch.note (.canceled n)
  | .running | .final => canceled.touch

def cancel : State :=
  let requested := { s with requested := true, registered := false }
  if s.registered then requested.callback else requested

def releaseHandle : Option State :=
  if !s.owned then none
  else if s.finished then some { s.destroy with owned := false }
  else some { s with owned := false, detached := true }

def act (s : State) : Action → Option State
  | .await awaiter executor => s.await awaiter executor
  | .return_ => s.return_
  | .item i => s.item i
  | .cancel => some s.cancel
  | .releaseHandle => s.releaseHandle

def continued (n : Nat) : Nat :=
  s.log.count (.resumed n) + s.log.count (.canceled n) + s.log.count (.faulted n)

/-- Each suspension ends once, at the latest when its work item has run, and nothing of the frame is used after its
    destruction. -/
structure ContinuesOnce : Prop where
  atMost : ∀ n, s.continued n ≤ 1
  settled : ∀ n, n < s.suspensions → n ∉ s.queue → s.continued n = 1
  unused : s.misused = false

/-- The owner destroys the task when its work item has run. -/
def Orderly (s : State) : Action → Prop
  | .releaseHandle => s.finished = true → s.queue = []
  | _ => True

instance (s : State) : DecidablePred s.Orderly
  | .releaseHandle => inferInstanceAs (Decidable (s.finished = true → s.queue = []))
  | .await _ _ | .return_ | .item _ | .cancel => .isTrue trivial

def pending : Option Nat :=
  match s.position with
  | .suspended n => if s.finished then none else some n
  | .running | .final => none

structure Inv : Prop where
  running : s.position = .running → s.finished = false
  queued : ∀ n ∈ s.queue, s.position = .suspended n
  waits : ∀ n, s.pending = some n → s.queue = [n] ∧ n < s.suspensions
  registered : s.registered = true → s.pending.isSome
  counted : ∀ n, s.continued n = if n < s.suspensions ∧ s.pending ≠ some n then 1 else 0
  unused : s.misused = false
  /-- No item is left for a frame that has been destroyed. -/
  left : s.destroyed = true → s.queue = [] ∧ s.finished = true

variable {s s' : State}

theorem continued_note (n : Nat) {m : Nat} {event : Event} (is : event = .resumed m ∨ event = .canceled m ∨ event = .faulted m)
    (log : s'.log = s.log ++ [event]) : s'.continued n = s.continued n + if m = n then 1 else 0 := by
  unfold continued
  rw [log]
  rcases is with rfl | rfl | rfl
  all_goals
    simp only [count_append, count_singleton, beq_iff_eq, Event.resumed.injEq, Event.canceled.injEq, Event.faulted.injEq,
      reduceCtorEq, if_false]
    omega

theorem pending_iff {n : Nat} : s.pending = some n ↔ s.position = .suspended n ∧ s.finished = false := by
  unfold pending
  cases s.position with
  | suspended m => cases s.finished <;> simp
  | running | final => simp

theorem pending_running (running : s.position = .running) : s.pending = none := by
  simp [pending, running]

theorem Inv.continuesOnce (inv : s.Inv) : s.ContinuesOnce := by
  refine ⟨fun n => ?_, fun n early run => ?_, inv.unused⟩
  · rw [inv.counted]
    split <;> omega
  · rw [inv.counted, if_pos]
    refine ⟨early, fun waits => run ?_⟩
    rw [(inv.waits n waits).1]
    exact mem_singleton_self n

/-- A frame is used by its body, its registration and its work item, and outlives them. -/
theorem Inv.alive (inv : s.Inv) (uses : s.finished = false ∨ s.queue ≠ []) : s.destroyed = false := by
  by_contra destroyed
  have left := inv.left (Bool.not_eq_false _ ▸ destroyed)
  simp [left] at uses

theorem Inv.idle (inv : s.Inv) (running : s.position = .running) :
    s.queue = [] ∧ s.registered = false ∧ s.destroyed = false := by
  refine ⟨eq_nil_iff_forall_not_mem.mpr fun n mem => ?_, ?_, inv.alive (.inl (inv.running running))⟩
  · have suspended := inv.queued n mem
    rw [running] at suspended
    contradiction
  · by_contra registered
    have some_ := inv.registered (Bool.not_eq_false _ ▸ registered)
    rw [pending_running running] at some_
    contradiction

/-- The task is finished in a suspension, or when it is about to suspend. -/
theorem Inv.ends (inv : s.Inv) {m : Nat} {event : Event} (is : event = .resumed m ∨ event = .canceled m ∨ event = .faulted m)
    (before : s.pending = some m ∨ s.position = .running ∧ m = s.suspensions) (position : s'.position = .suspended m)
    (finished : s'.finished = true) (queue : s'.queue = s.queue) (registered : s'.registered = false)
    (suspensions : s'.suspensions = max s.suspensions (m + 1)) (log : s'.log = s.log ++ [event])
    (unused : s'.misused = false) (alive : s'.destroyed = false) : s'.Inv := by
  have over_ : s'.pending = none := by simp [pending, position, finished]
  refine ⟨fun running => ?_, fun n mem => ?_, by simp [over_], by simp [registered], fun n => ?_, unused, by simp [alive]⟩
  · rw [position] at running
    contradiction
  · rw [queue] at mem
    rcases before with waits | ⟨running, _⟩
    · rw [(inv.waits m waits).1, mem_singleton] at mem
      rw [position, mem]
    · rw [(inv.idle running).1] at mem
      contradiction
  · rw [continued_note n is log, inv.counted, over_, suspensions]
    rcases before with waits | ⟨running, rfl⟩
    · have inside := (inv.waits m waits).2
      rw [waits]
      grind
    · rw [pending_running running]
      grind

theorem Inv.await (inv : s.Inv) {awaiter : Awaiter} {executor : Bool} (acted : s.await awaiter executor = some s') :
    s'.Inv := by
  unfold State.await at acted
  split at acted
  case h_2 | h_3 => contradiction
  case h_1 running =>
    obtain rfl := some.inj acted
    obtain ⟨idle, unregistered, alive⟩ := inv.idle running
    split
    · exact inv
    unfold awaitSuspend
    split
    · exact inv.ends (.inr (.inl rfl)) (.inr ⟨running, rfl⟩) rfl rfl rfl unregistered (by simp; rfl) rfl inv.unused alive
    split
    · exact inv.ends (.inr (.inr rfl)) (.inr ⟨running, rfl⟩) rfl rfl rfl unregistered (by simp; rfl) rfl inv.unused alive
    have unfinished := inv.running running
    refine ⟨nofun, by simp [idle], fun n waits => ?_, by simp [pending, unfinished], fun n => ?_, inv.unused, by simp [alive]⟩
    · obtain ⟨rfl, _⟩ : s.suspensions = n ∧ _ := by simpa [pending_iff] using waits
      simp [idle]
    · refine (inv.counted n).trans ?_
      rw [pending_running running]
      simp only [pending, unfinished]
      grind

theorem Inv.return_ (inv : s.Inv) (acted : s.return_ = some s') : s'.Inv := by
  unfold State.return_ at acted
  split at acted
  case h_2 | h_3 => contradiction
  case h_1 running =>
    obtain rfl := some.inj acted
    obtain ⟨idle, unregistered, _⟩ := inv.idle running
    have counted := inv.counted
    rw [pending_running running] at counted
    split
    all_goals
      refine ⟨nofun, ?_, nofun, ?_, counted, inv.unused, fun _ => ⟨idle, rfl⟩⟩
      · simp [idle, destroy, markFinishedAndResume, setCompletion]
      · simp [unregistered, destroy, markFinishedAndResume, setCompletion]

theorem Inv.item (inv : s.Inv) {i : Nat} (acted : s.item i = some s') : s'.Inv := by
  unfold State.item at acted
  split at acted
  case h_1 => contradiction
  case h_2 n taken =>
    obtain rfl := some.inj acted
    have suspended := inv.queued n (mem_of_getElem? taken)
    have position : (s.take i).position = .suspended n := suspended
    have alive := inv.alive (.inr (ne_nil_of_mem (mem_of_getElem? taken)))
    have unused : (s.take i).misused = false := by simp [take, touch, inv.unused, alive]
    have left : s.destroyed = true → ∀ P, P := fun destroyed => absurd (alive.symm.trans destroyed) nofun
    cases finished : s.finished with
    | true =>
      rw [if_pos (show (s.take i).finished = true from finished)]
      refine ⟨fun running => ?_, fun m mem => inv.queued m (mem_of_mem_eraseIdx mem), fun m waits => ?_, inv.registered,
        inv.counted, unused, fun destroyed => left destroyed _⟩
      · rw [position] at running
        contradiction
      · rw [pending_iff] at waits
        exact absurd (finished.symm.trans waits.2) nofun
    | false =>
      have waits : s.pending = some n := pending_iff.mpr ⟨suspended, finished⟩
      obtain ⟨only, early⟩ := inv.waits n waits
      have idle : (s.take i).queue = [] := by
        rw [only, getElem?_singleton] at taken
        have first : i = 0 := by
          by_contra other
          simp [other] at taken
        simp [take, only, first]
      rw [if_neg (show ¬(s.take i).finished = true from finished ▸ Bool.false_ne_true)]
      unfold resume
      simp only [position]
      refine ⟨fun _ => finished, by simp [note, touch, idle], nofun, nofun, fun m => ?_, ?_, fun destroyed => left destroyed _⟩
      · rw [continued_note m (.inl rfl) (s := s) rfl, inv.counted, waits]
        simp only [pending, note, touch, take]
        grind
      · simp only [note, touch, unused]
        exact alive

theorem Inv.cancel (inv : s.Inv) : s.cancel.Inv := by
  unfold State.cancel
  split
  case isFalse => exact ⟨inv.running, inv.queued, inv.waits, nofun, inv.counted, inv.unused, inv.left⟩
  case isTrue registered =>
    obtain ⟨n, waits⟩ := isSome_iff_exists.mp (inv.registered registered)
    obtain ⟨suspended, unfinished⟩ := pending_iff.mp waits
    have alive := inv.alive (.inl unfinished)
    unfold callback
    simp only [suspended]
    refine inv.ends (.inr (.inl rfl)) (.inl waits) rfl rfl rfl rfl (Nat.max_eq_left (inv.waits n waits).2).symm rfl ?_ alive
    simp [note, touch, markFinishedAndResume, setCompletion, inv.unused, alive]

theorem Inv.releaseHandle (inv : s.Inv) (orderly : s.Orderly .releaseHandle) (acted : s.releaseHandle = some s') :
    s'.Inv := by
  unfold State.releaseHandle at acted
  split at acted
  · contradiction
  split at acted
  case isTrue finished =>
    obtain rfl := some.inj acted
    exact ⟨inv.running, inv.queued, inv.waits, nofun, inv.counted, inv.unused, fun _ => ⟨orderly finished, finished⟩⟩
  case isFalse =>
    obtain rfl := some.inj acted
    exact ⟨inv.running, inv.queued, inv.waits, inv.registered, inv.counted, inv.unused, inv.left⟩

/-- A suspended task goes on once, and nothing of its frame is used after its destruction, when its owner destroys it only after
    its work item has run. -/
theorem orderly_continues_once (actions : List Action) (ran : run act {} actions = some s)
    (orderly : Along act Orderly {} actions) : s.ContinuesOnce := by
  refine Inv.continuesOnce (keeps ?_ orderly ran ⟨fun _ => rfl, nofun, nofun, nofun, fun _ => rfl, rfl, nofun⟩)
  intro s action s' inv orderly acted
  cases action with
  | await => exact inv.await acted
  | return_ => exact inv.return_ acted
  | item => exact inv.item acted
  | cancel => exact some.inj acted ▸ inv.cancel
  | releaseHandle => exact inv.releaseHandle orderly acted

/-- The first suspension ends with its work item, the second one with a cancellation. -/
theorem orderly_continues_once_twice : ∃ s, run act {} [.await .yieldNow true, .item 0, .await (.delay false) true, .cancel, .item 0,
    .releaseHandle] = some s ∧ s.log = [.resumed 0, .canceled 1] ∧ s.destroyed = true ∧ s.ContinuesOnce :=
  ⟨_, rfl, rfl, rfl, orderly_continues_once [.await .yieldNow true, .item 0, .await (.delay false) true, .cancel, .item 0,
    .releaseHandle] rfl (by decide)⟩

/-- The owner destroys the canceled task, and the work item reads its promise. -/
theorem released_early : ¬∀ actions s, run act {} actions = some s → s.ContinuesOnce := by
  intro all
  have unused := (all [.await (.delay false) true, .cancel, .releaseHandle, .item 0] _ rfl).unused
  contradiction

end State

end NginBase.Async.Suspension
