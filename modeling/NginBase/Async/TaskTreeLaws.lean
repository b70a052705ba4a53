import NginBase.Async.TaskTree

namespace NginBase.Async.TaskTree

open Library.Interleaving Function State Answer Frame Option List

variable {Value Error : Type}

structure Await (Value Error : Type) where
  id : Nat
  name : List Nat
  index : Nat
  owned : Bool
  rest : Value → Body Value Error

def Frame.under (stack : List (Await Value Error)) (name : List Nat) (index : Nat) (position : Position Value Error)
    (completion : Option (Completion Value Error)) : Frame Value Error where
  name := name
  index := index
  position := position
  completion := completion
  continuation := stack.head?.map Await.id
  completionHandler := !stack.isEmpty
  executor := true
  started := true

def Waits (frames : Nat → Option (Frame Value Error)) : Nat → List (Await Value Error) → Prop
  | f, [] => f = 0
  | child, a :: stack => a.id < child ∧
      frames a.id = some (.under stack a.name a.index (.awaiting a.owned child a.rest) none) ∧ Waits frames a.id stack

def unwind (answer : Answer Value Error) : List (Await Value Error) → Answer Value Error
  | [] => answer.later
  | a :: stack => unwind (answer.andThen a.name a.index fun value => evaluate (a.rest value) a.name (a.index + 1)) stack

variable {frames frames' : Nat → Option (Frame Value Error)} {stack : List (Await Value Error)} {f g n : Nat}

theorem Waits.frame (waits : Waits frames f stack) (same : ∀ g, g < f → frames' g = frames g) : Waits frames' f stack := by
  induction stack generalizing f with
  | nil => exact waits
  | cons a stack step =>
    obtain ⟨older, found, rest⟩ := waits
    refine ⟨older, (same a.id older).trans found, step rest ?_⟩
    intro g before
    exact same g (Nat.lt_trans before older)

theorem Waits.update (waits : Waits frames f stack) (later : f ≤ g) (frame : Option (Frame Value Error)) :
    Waits (update frames g frame) f stack := by
  apply waits.frame
  intro h before
  exact update_of_ne (by omega) _ _

inductive Remains (s : State Value Error) : Answer Value Error → Prop
  | queued {stack : List (Await Value Error)} {f : Nat} {name : List Nat} {body : Body Value Error} (control : s.control = .idle)
    (queue : s.queue = [f]) (found : s.frames f = some (.under stack name 0 (.initial body) none)) (old : f < s.fresh)
    (waits : Waits s.frames f stack) : Remains s (unwind ((evaluate body name 0).begin name) stack)
  | running {stack : List (Await Value Error)} {f : Nat} {name : List Nat} {index : Nat} {body : Body Value Error}
    (control : s.control = .running f body) (queue : s.queue = [])
    (found : s.frames f = some (.under stack name index .running none)) (old : f < s.fresh) (waits : Waits s.frames f stack) :
    Remains s (unwind (evaluate body name index) stack)
  | completing {stack : List (Await Value Error)} {f : Nat} {name : List Nat} {index : Nat} {position : Position Value Error}
    {outcome : Completion Value Error} (control : s.control = .completing f) (queue : s.queue = [])
    (found : s.frames f = some (.under stack name index position (some outcome))) (old : f < s.fresh)
    (waits : Waits s.frames f stack) : Remains s (unwind ⟨outcome, [], 0⟩ stack)
  | resuming {stack : List (Await Value Error)} {a : Await Value Error} {child : Nat} {frame : Frame Value Error} {value : Value}
    (control : s.control = .idle) (queue : s.queue = [a.id]) (found : s.frames child = some frame)
    (succeeded : frame.completion = some (.succeeded value)) (old : child < s.fresh) (waits : Waits s.frames child (a :: stack)) :
    Remains s (unwind ⟨(evaluate (a.rest value) a.name (a.index + 1)).outcome,
      .resumed a.name a.index :: (evaluate (a.rest value) a.name (a.index + 1)).log,
      (evaluate (a.rest value) a.name (a.index + 1)).steps + 1⟩ stack)
  | ended {frame : Frame Value Error} {outcome : Completion Value Error} (control : s.control = .idle) (queue : s.queue = [])
    (found : s.frames 0 = some frame) (finished : frame.finished = true) (completion : frame.completion = some outcome) :
    Remains s ⟨outcome, [], 0⟩

def Answer.before (log : List Event) (steps : Nat) (answer : Answer Value Error) : Answer Value Error :=
  ⟨answer.outcome, log ++ answer.log, steps + answer.steps⟩

theorem Answer.before_andThen (log : List Event) (steps : Nat) (answer : Answer Value Error) (name : List Nat) (index : Nat)
    (rest : Value → Answer Value Error) :
    (answer.before log steps).andThen name index rest = (answer.andThen name index rest).before log steps := by
  obtain ⟨outcome, own, count⟩ := answer
  cases outcome with
  | succeeded value => simp [before, andThen, Nat.add_assoc]
  | _ => rfl

theorem unwind_before (log : List Event) (steps : Nat) (answer : Answer Value Error) (stack : List (Await Value Error)) :
    unwind (answer.before log steps) stack = (unwind answer stack).before log steps := by
  induction stack generalizing answer with
  | nil => rfl
  | cons a stack step => rw [unwind, before_andThen, step, unwind]

variable {s s' : State Value Error} {answer : Answer Value Error} {action : Action}

def Brings (s s' : State Value Error) (answer : Answer Value Error) : Prop :=
  ∃ rest log, Remains s' rest ∧ s'.log = s.log ++ log ∧ answer = rest.before log 1

theorem Answer.begin_eq (name : List Nat) (answer : Answer Value Error) :
    answer.begin name = answer.before [.started name] 1 := by
  simp [begin, before, Nat.add_comm]

theorem Answer.later_eq (answer : Answer Value Error) : answer.later = answer.before [] 1 := by
  simp [later, before, Nat.add_comm]

theorem act_queue (control : s.control = .idle) (queue : s.queue = [f]) (acted : s.act action = some s') :
    { s with queue := [] }.resume f = some s' := by
  obtain ⟨frames, fresh, _, _, log⟩ := s
  obtain rfl := control
  obtain rfl := queue
  cases action with
  | proceed => simp [act] at acted
  | item i =>
    cases i with
    | zero => exact acted
    | succ i => simp [act] at acted

theorem step_queued {name : List Nat} {body : Body Value Error} (control : s.control = .idle) (queue : s.queue = [f])
    (found : s.frames f = some (.under stack name 0 (.initial body) none)) (old : f < s.fresh)
    (waits : Waits s.frames f stack) (acted : s.act action = some s') :
    Brings s s' (unwind ((evaluate body name 0).begin name) stack) := by
  have resumed := act_queue control queue acted
  simp only [resume, found] at resumed
  obtain rfl := some.inj resumed
  exists unwind (evaluate body name 0) stack, [.started name]
  refine ⟨?_, rfl, ?_⟩
  · apply Remains.running
    · rfl
    · rfl
    · exact update_self ..
    · exact old
    · exact waits.update (Nat.le_refl f) _
  · rw [begin_eq, unwind_before]

theorem step_resuming {a : Await Value Error} {child : Nat} {frame : Frame Value Error} {value : Value}
    (control : s.control = .idle) (queue : s.queue = [a.id]) (found : s.frames child = some frame)
    (succeeded : frame.completion = some (.succeeded value)) (old : child < s.fresh) (waits : Waits s.frames child (a :: stack))
    (acted : s.act action = some s') : Brings s s' (unwind ⟨(evaluate (a.rest value) a.name (a.index + 1)).outcome,
      .resumed a.name a.index :: (evaluate (a.rest value) a.name (a.index + 1)).log,
      (evaluate (a.rest value) a.name (a.index + 1)).steps + 1⟩ stack) := by
  have resumed := act_queue control queue acted
  obtain ⟨older, parent, below⟩ := waits
  simp only [resume, parent, under, found, succeeded, bind_eq_bind, bind_some] at resumed
  obtain rfl := some.inj resumed
  exists unwind (evaluate (a.rest value) a.name (a.index + 1)) stack, [.resumed a.name a.index]
  refine ⟨?_, ?_, ?_⟩
  · apply Remains.running
    · rfl
    · cases a.owned <;> rfl
    · exact Function.update_self ..
    · cases a.owned <;> exact Nat.lt_trans older old
    · apply Waits.update _ (Nat.le_refl a.id)
      split
      · exact below.update (Nat.le_of_lt older) _
      · exact below
  · cases a.owned <;> rfl
  · rw [← unwind_before]
    simp [before, Nat.add_comm]

theorem act_proceed (busy : s.control ≠ .idle) (acted : s.act action = some s') : action = .proceed := by
  cases action with
  | proceed => rfl
  | item i =>
    simp only [act] at acted
    split at acted
    · exact absurd ‹_› busy
    · contradiction

variable {outcome : Completion Value Error}

theorem step_complete {name : List Nat} {index : Nat} (control : s.control = .running f (.complete outcome))
    (queue : s.queue = []) (found : s.frames f = some (.under stack name index .running none)) (old : f < s.fresh)
    (waits : Waits s.frames f stack) (acted : s.act action = some s') :
    Brings s s' (unwind (evaluate (.complete outcome) name index) stack) := by
  obtain rfl := act_proceed (by simp [control]) acted
  simp only [act, control, execute, found] at acted
  obtain rfl := some.inj acted
  exists unwind ⟨outcome, [], 0⟩ stack, [.ended name]
  refine ⟨?_, rfl, ?_⟩
  · apply Remains.completing
    · rfl
    · exact queue
    · exact update_self ..
    · exact old
    · exact waits.update (Nat.le_refl f) _
  · rw [← unwind_before]
    rfl

theorem step_await {name : List Nat} {index : Nat} {owned context : Bool} {child : Body Value Error}
    {rest : Value → Body Value Error} (control : s.control = .running f (.await owned context child rest))
    (queue : s.queue = []) (found : s.frames f = some (.under stack name index .running none)) (old : f < s.fresh)
    (waits : Waits s.frames f stack) (acted : s.act action = some s') :
    Brings s s' (unwind (evaluate (.await owned context child rest) name index) stack) := by
  obtain rfl := act_proceed (by simp [control]) acted
  have other : f ≠ s.fresh := Nat.ne_of_lt old
  simp [act, control, execute, found, under, awaitTask, setFrame, other] at acted
  obtain rfl := acted
  exists unwind ((evaluate child (name ++ [index]) 0).begin (name ++ [index])) (⟨f, name, index, owned, rest⟩ :: stack), []
  refine ⟨?_, ?_, ?_⟩
  · apply Remains.queued
    · rfl
    · exact congrArg (· ++ [s.fresh]) queue
    · exact update_self ..
    · exact Nat.lt_succ_self _
    · refine ⟨old, ?_, ?_⟩
      · simp [enqueue, goTo, under, other]
      · exact (waits.update (Nat.le_refl f) _).update (Nat.le_of_lt old) _
  · simp [enqueue, goTo]
  · rw [evaluate, later_eq, unwind_before, unwind]

theorem Frame.propagateFromChild_failure (frame : Frame Value Error) {c : Frame Value Error}
    (completed : c.completion = some outcome) (fails : ∀ value, outcome ≠ .succeeded value) :
    c.isSucceeded = false ∧ frame.propagateFromChild c = frame.setCompletion outcome := by
  cases outcome with
  | succeeded value => exact absurd rfl (fails value)
  | _ => simp [isSucceeded, propagateFromChild, completed]

theorem Answer.andThen_failure (fails : ∀ value, outcome ≠ .succeeded value) (log : List Event) (steps : Nat)
    (name : List Nat) (index : Nat) (rest : Value → Answer Value Error) :
    (mk outcome log steps).andThen name index rest = ⟨outcome, log, steps + 1⟩ := by
  cases outcome with
  | succeeded value => exact absurd rfl (fails value)
  | _ => rfl

theorem step_completing {name : List Nat} {index : Nat} {position : Position Value Error}
    (control : s.control = .completing f) (queue : s.queue = [])
    (found : s.frames f = some (.under stack name index position (some outcome))) (old : f < s.fresh)
    (waits : Waits s.frames f stack) (acted : s.act action = some s') : Brings s s' (unwind ⟨outcome, [], 0⟩ stack) := by
  obtain rfl := act_proceed (by simp [control]) acted
  cases stack with
  | nil =>
    obtain rfl : f = 0 := waits
    simp [act, control, markFinishedAndResume, found, under] at acted
    obtain rfl := acted
    refine ⟨⟨outcome, [], 0⟩, [], ?_, ?_, rfl⟩
    · apply Remains.ended
      · rfl
      · exact queue
      · simp only [goTo, setFrame]
        exact update_self ..
      · rfl
      · rfl
    · simp [goTo, setFrame]
  | cons a stack =>
    obtain ⟨older, parent, below⟩ := waits
    have other : a.id ≠ f := Nat.ne_of_lt older
    simp [act, control, markFinishedAndResume, found, under, propagateChildCompletion, setFrame,
      other, parent] at acted
    by_cases succeeds : ∃ value, outcome = .succeeded value
    · obtain ⟨value, rfl⟩ := succeeds
      simp [isSucceeded, resumeOnExecutor] at acted
      obtain rfl := acted
      refine ⟨unwind ⟨(evaluate (a.rest value) a.name (a.index + 1)).outcome,
        .resumed a.name a.index :: (evaluate (a.rest value) a.name (a.index + 1)).log,
        (evaluate (a.rest value) a.name (a.index + 1)).steps + 1⟩ stack, [], ?_, ?_, ?_⟩
      · apply Remains.resuming
        · rfl
        · exact congrArg (· ++ [a.id]) queue
        · exact update_self ..
        · rfl
        · exact old
        · have waits : Waits s.frames f (a :: stack) := ⟨older, parent, below⟩
          exact waits.update (Nat.le_refl f) _
      · simp [enqueue, goTo]
      · rw [← unwind_before, unwind]
        simp only [andThen, before]
        congr 2
        omega
    have fails : ∀ value, outcome ≠ .succeeded value := fun value same => succeeds ⟨value, same⟩
    obtain ⟨failed, propagated⟩ := propagateFromChild_failure
      (.under stack a.name a.index (.awaiting a.owned f a.rest) none)
      (c := { under (a :: stack) name index position (some outcome) with finished := true }) rfl fails
    simp only [under, head?_cons, map_some, isEmpty_cons, Bool.not_false] at failed propagated
    simp [failed, propagated] at acted
    obtain rfl := acted
    refine ⟨unwind ⟨outcome, [], 0⟩ stack, [], ?_, ?_, ?_⟩
    · apply Remains.completing
      · rfl
      · exact queue
      · exact update_self ..
      · exact Nat.lt_trans older old
      · exact (below.update (Nat.le_of_lt older) _).update (Nat.le_refl a.id) _
    · simp [goTo]
    · rw [← unwind_before, unwind, andThen_failure fails]
      rfl

theorem Remains.step (remains : Remains s answer) (acted : s.act action = some s') : Brings s s' answer := by
  cases remains with
  | queued control queue found old waits => exact step_queued control queue found old waits acted
  | @running stack f name index body control queue found old waits =>
    cases body with
    | complete outcome => exact step_complete control queue found old waits acted
    | await owned context child rest => exact step_await control queue found old waits acted
  | completing control queue found old waits => exact step_completing control queue found old waits acted
  | resuming control queue found succeeded old waits => exact step_resuming control queue found succeeded old waits acted
  | ended control queue =>
    cases action with
    | proceed => simp [act, control] at acted
    | item i => simp [act, queue] at acted

theorem Remains.run (remains : Remains s answer) {actions : List Action} (ran : run act s actions = some s') :
    ∃ rest log, Remains s' rest ∧ s'.log = s.log ++ log ∧ answer = rest.before log actions.length := by
  induction actions generalizing s answer with
  | nil =>
    obtain rfl := some.inj ran
    exact ⟨answer, [], remains, by simp, by simp [before]⟩
  | cons action actions step =>
    obtain ⟨middle, acted, later⟩ := bind_eq_some_iff.mp ran
    obtain ⟨rest, log, next, logged, rfl⟩ := remains.step acted
    obtain ⟨last, more, final, logged', rfl⟩ := step next later
    refine ⟨last, log ++ more, final, ?_, ?_⟩
    · rw [logged', logged, append_assoc]
    · simp [before, Nat.add_assoc, Nat.add_comm]

theorem Remains.stuck (remains : Remains s answer) (stuck : Stuck act s) :
    answer.log = [] ∧ ∃ frame, s.frames 0 = some frame ∧ frame.finished = true ∧ frame.completion = some answer.outcome := by
  cases remains with
  | ended control queue found finished completion => exact ⟨rfl, _, found, finished, completion⟩
  | queued control queue found old waits =>
    have blocked := stuck (.item 0)
    simp [act, control, queue, resume, found, under] at blocked
  | @running stack f name index body control queue found old waits =>
    have blocked := stuck .proceed
    cases body with
    | complete outcome => simp [act, control, execute, found] at blocked
    | await owned context child rest =>
      simp [act, control, execute, found, under, awaitTask, setFrame, Nat.ne_of_lt old] at blocked
  | @completing stack f name index position outcome control queue found old waits =>
    have blocked := stuck .proceed
    cases stack with
    | nil => simp [act, control, markFinishedAndResume, found, under] at blocked
    | cons a stack =>
      obtain ⟨older, parent, _⟩ := waits
      cases outcome <;>
        simp [act, control, markFinishedAndResume, found, under, propagateChildCompletion,
          setFrame, Nat.ne_of_lt older, parent, isSucceeded, resumeOnExecutor] at blocked
  | resuming control queue found succeeded old waits =>
    have blocked := stuck (.item 0)
    obtain ⟨older, parent, below⟩ := waits
    simp [act, control, queue, resume, parent, under, found, succeeded] at blocked

def Event.name : Event → List Nat
  | .started name | .resumed name _ | .ended name => name

def Within (name : List Nat) (index : Nat) (event : Event) : Prop :=
  event = .ended name ∨ (∃ i ≥ index, event = .resumed name i) ∨ ∃ i ≥ index, ∃ below, event.name = name ++ i :: below

variable {name : List Nat} {index : Nat} {event : Event}

theorem Within.later (within_ : Within name (index + 1) event) : Within name index event := by
  rcases within_ with ended | ⟨i, after, resumed⟩ | ⟨i, after, below, named⟩
  · exact .inl ended
  · exact .inr (.inl ⟨i, Nat.le_of_succ_le after, resumed⟩)
  · exact .inr (.inr ⟨i, Nat.le_of_succ_le after, below, named⟩)

theorem Within.below (within_ : Within (name ++ [index]) 0 event) : ∃ below, event.name = name ++ index :: below := by
  rcases within_ with rfl | ⟨i, _, rfl⟩ | ⟨i, _, below, named⟩
  · exact ⟨[], rfl⟩
  · exact ⟨[], rfl⟩
  · exact ⟨i :: below, by simp [named]⟩

theorem Within.not_below (within_ : Within name (index + 1) event) (below : List Nat) : event.name ≠ name ++ index :: below := by
  rcases within_ with rfl | ⟨i, _, rfl⟩ | ⟨i, after, other, named⟩
  · simp [Event.name]
  · simp [Event.name]
  · rw [named]
    intro same
    have heads : i = index := by simpa using congrArg (fun l => (l.drop name.length).head?) same
    omega

variable (body : Body Value Error)

theorem evaluate_within (name : List Nat) (index : Nat) :
    ∀ event ∈ (evaluate body name index).log, Within name index event := by
  induction body generalizing name index with
  | complete outcome =>
    intro event mem
    exact .inl (mem_singleton.mp mem)
  | await owned context child rest ofChild ofRest =>
    have inner : ∀ event ∈ ((evaluate child (name ++ [index]) 0).begin (name ++ [index])).log, Within name index event := by
      intro event mem
      apply Or.inr
      apply Or.inr
      refine ⟨index, Nat.le_refl _, ?_⟩
      cases mem with
      | head => exact ⟨[], rfl⟩
      | tail _ mem => exact (ofChild _ _ _ mem).below
    intro event mem
    simp only [evaluate, andThen] at mem
    split at mem
    case h_1 value _ =>
      rcases mem_append.mp mem with mem | mem
      · exact inner event mem
      · cases mem with
        | head => exact .inr (.inl ⟨index, Nat.le_refl _, rfl⟩)
        | tail _ mem => exact (ofRest value _ _ _ mem).later
    case h_2 => exact inner event mem

theorem begin_nodup {answer : Answer Value Error} (within_ : ∀ event ∈ answer.log, Within name index event)
    (once : answer.log.Nodup) : (answer.begin name).log.Nodup := by
  apply nodup_cons.mpr
  refine ⟨?_, once⟩
  intro again
  rcases within_ _ again with same | ⟨i, _, same⟩ | ⟨i, _, below, named⟩
  · contradiction
  · contradiction
  · simp [Event.name] at named

theorem evaluate_nodup (name : List Nat) (index : Nat) : (evaluate body name index).log.Nodup := by
  induction body generalizing name index with
  | complete outcome => exact nodup_singleton _
  | await owned context child rest ofChild ofRest =>
    have inner := begin_nodup (evaluate_within child (name ++ [index]) 0) (ofChild (name ++ [index]) 0)
    simp only [evaluate, andThen]
    split
    case h_2 => exact inner
    case h_1 value _ =>
      have outer : (Event.resumed name index :: (evaluate (rest value) name (index + 1)).log).Nodup := by
        apply nodup_cons.mpr
        refine ⟨?_, ofRest value name (index + 1)⟩
        intro again
        rcases evaluate_within _ _ _ _ again with same | ⟨i, after, same⟩ | ⟨i, _, below, named⟩
        · contradiction
        · have same : index = i := by simpa using same
          omega
        · simp [Event.name] at named
      apply nodup_append'.mpr
      refine ⟨inner, outer, ?_⟩
      intro event first second
      have below : ∃ below, event.name = name ++ index :: below := by
        cases first with
        | head => exact ⟨[], rfl⟩
        | tail _ mem => exact (evaluate_within _ _ _ _ mem).below
      obtain ⟨below, named⟩ := below
      cases second with
      | head => simp [Event.name] at named
      | tail _ mem => exact (evaluate_within _ _ _ _ mem).not_below below named

theorem start_remains : Remains (start body) (unwind ((evaluate body [] 0).begin []) []) := by
  apply Remains.queued
  · rfl
  · rfl
  · rfl
  · exact Nat.one_pos
  · rfl

/-- Every run of a spawned tree ends, and its root completes with the recursive evaluation of the tree; what is seen of the
    bodies on the way is what the evaluation reaches, in its order and once. -/
theorem spawned_evaluates (body : Body Value Error) (actions : List Action)
    (ran : Library.Interleaving.run act (start body) actions = some s) :
    actions.length ≤ (evaluate body [] 0).steps + 2 ∧ (Stuck act s →
      (∃ frame, s.frames 0 = some frame ∧ frame.finished = true ∧ frame.completion = some (evaluate body [] 0).outcome) ∧
      s.log = .started [] :: (evaluate body [] 0).log ∧ s.log.Nodup) := by
  obtain ⟨rest, log, remains, logged, whole⟩ := (start_remains body).run ran
  have outcome : (evaluate body [] 0).outcome = rest.outcome :=
    (congrArg outcome whole :)
  have seen : .started [] :: (evaluate body [] 0).log = log ++ rest.log :=
    (congrArg Answer.log whole :)
  have steps : (evaluate body [] 0).steps + 1 + 1 = actions.length + rest.steps :=
    (congrArg steps whole :)
  refine ⟨by omega, ?_⟩
  intro stuck
  obtain ⟨none_, frame, found, finished, completion⟩ := remains.stuck stuck
  have all : s.log = .started [] :: (evaluate body [] 0).log := by
    rw [logged, seen, none_, append_nil]
    rfl
  refine ⟨⟨frame, found, finished, completion.trans (congrArg some outcome.symm)⟩, all, ?_⟩
  rw [all]
  exact begin_nodup (evaluate_within body [] 0) (evaluate_nodup body [] 0)

def failing : Body Nat String :=
  .await true false (.complete (.succeeded 7)) fun value => .await false true (.complete (.domainError "refused")) fun _ =>
    .complete (.succeeded value)

theorem spawned_evaluates_failing : ∃ s, run act (start failing)
      [.item 0, .proceed, .item 0, .proceed, .proceed, .item 0, .proceed, .item 0, .proceed, .proceed, .proceed] = some s ∧
    (∃ frame, s.frames 0 = some frame ∧ frame.finished = true ∧ frame.completion = some (.domainError "refused")) ∧
    s.log = [.started [], .started [0], .ended [0], .resumed [] 0, .started [1], .ended [1]] := by
  have settled : ∀ s, run act (start failing)
      [.item 0, .proceed, .item 0, .proceed, .proceed, .item 0, .proceed, .item 0, .proceed, .proceed, .proceed] = some s →
      Stuck act s := by
    intro s ran
    obtain rfl := some.inj ran
    intro action
    cases action with
    | proceed => rfl
    | item i => simp; rfl
  obtain ⟨s, ran⟩ : ∃ s, run act (start failing)
    [.item 0, .proceed, .item 0, .proceed, .proceed, .item 0, .proceed, .item 0, .proceed, .proceed, .proceed] = some s := ⟨_, rfl⟩
  obtain ⟨completed, seen, _⟩ := (spawned_evaluates failing _ ran).2 (settled s ran)
  exact ⟨s, ran, completed, seen⟩

end NginBase.Async.TaskTree
