import NginBase.Library.Simulation
import NginBase.Serialization.Core

namespace NginBase

/-! `IncrementalEventParser`: input is collected chunk by chunk, and a complete document is validated
before its events are delivered. JSON and XML share this class up to their messages. -/

namespace Incremental

inductive ParseStatus
  | needMoreInput
  | eventProduced
  | complete
  | error
  deriving DecidableEq

structure ParseResult where
  status : ParseStatus := .needMoreInput
  eventsProduced : Nat := 0
  diagnostic : Option Failure := none

/-- What a parser is bound to. The handler is inside `emit`: given the calls it has had before, the
    contiguous parser makes further calls and succeeds or not. `stores` answers whether the buffer
    gets the memory to append a chunk. -/
structure Binding (Event : Type) where
  source : SourceId := 0
  limits : ParseLimits := {}
  requiresReset : String
  limitExceeded : String
  allocationFailed : String
  stores : Bytes → Bytes → Bool
  validate : ParseLimits → Bytes → Except Failure Unit
  emit : ParseLimits → List Event → Bytes → List Event × Except Failure Unit

def Binding.json {Event : Type} (binding : Binding Event) : Binding Event :=
  { binding with
    requiresReset := "JSON incremental parser requires Reset before another document"
    limitExceeded := "JSON incremental input limit exceeded"
    allocationFailed := "JSON incremental input allocation failed" }

def Binding.xml {Event : Type} (binding : Binding Event) : Binding Event :=
  { binding with
    requiresReset := "XML incremental parser requires Reset before another document"
    limitExceeded := "XML incremental input limit exceeded"
    allocationFailed := "XML incremental input allocation failed" }

/-- The members of the parser, and every call its handler has had. -/
structure State (Event : Type) where
  buffer : Bytes := []
  complete : Bool := false
  error : Bool := false
  diagnostic : Option Failure := none
  calls : List Event := []

def subtractSize (a b : Nat) : Nat := if b ≤ a then a - b else 2 ^ 64 + a - b

variable {Event : Type} (binding : Binding Event)

def makeDiagnostic (m : State Event) (code : ParseErrorCode) (message : String) : Failure :=
  let size := m.buffer.length
  .diagnostic { code, location := { offset := size }, span := ⟨binding.source, size, size⟩, message }

def fail (m : State Event) (failure : Failure) : ParseResult × State Event :=
  ({ status := .error, diagnostic := some failure }, { m with error := true, diagnostic := some failure })

def effectiveLimit : Nat := min binding.limits.maxInputBytes binding.limits.maxTotalMemoryBytes

def feed (chunk : Bytes) (m : State Event) : ParseResult × State Event :=
  let limit := effectiveLimit binding
  if m.complete ∨ m.error then
    fail m (makeDiagnostic binding m .invalidDocumentStructure binding.requiresReset)
  else if limit < chunk.length ∨ limit - chunk.length < m.buffer.length then
    fail m (makeDiagnostic binding m .limitExceeded binding.limitExceeded)
  else if binding.stores m.buffer chunk = false then
    fail m (makeDiagnostic binding m .outOfMemory binding.allocationFailed)
  else ({}, { m with buffer := m.buffer ++ chunk })

def completionLimits (m : State Event) : ParseLimits :=
  { binding.limits with
    maxTotalMemoryBytes := subtractSize binding.limits.maxTotalMemoryBytes m.buffer.length }

def tryComplete (m : State Event) : ParseResult × State Event :=
  match binding.validate (completionLimits binding m) m.buffer with
  | .error failure => fail m failure
  | .ok () =>
    let (calls, emitted) := binding.emit (completionLimits binding m) m.calls m.buffer
    let m := { m with calls := m.calls ++ calls }
    match emitted with
    | .error failure => fail m failure
    | .ok () => ({ status := .complete, eventsProduced := calls.length }, { m with complete := true })

def finish (m : State Event) : ParseResult × State Event :=
  if m.complete then ({ status := .complete }, m)
  else if m.error then ({ status := .error, diagnostic := m.diagnostic }, m)
  else tryComplete binding m

def reset (m : State Event) : State Event :=
  { m with buffer := [], complete := false, error := false, diagnostic := none }

inductive Call
  | feed (chunk : Bytes)
  | finish
  | reset

def step : Call → State Event → Option ParseResult × State Event
  | .feed chunk, m => ((feed binding chunk m).1, (feed binding chunk m).2)
  | .finish, m => ((finish binding m).1, (finish binding m).2)
  | .reset, m => (none, reset m)

def trace : List Call → State Event → List (Call × Option ParseResult)
  | [], _ => []
  | call :: rest, m => (call, (step binding call m).1) :: trace rest (step binding call m).2

def errorOf : Option ParseResult → Option Failure
  | some result => if result.status = .error then result.diagnostic else none
  | none => none

/-- After the first error since the start or the last `Reset`, which is `noted`, every `Finish` up to
    the next `Reset` returns the same error. -/
def Stable : Option Failure → List (Call × Option ParseResult) → Prop
  | _, [] => True
  | _, (.reset, _) :: rest => Stable none rest
  | noted, (.feed _, result) :: rest => Stable (noted.or (errorOf result)) rest
  | noted, (.finish, result) :: rest =>
    (∀ d, noted = some d → errorOf result = some d) ∧ Stable (noted.or (errorOf result)) rest

/-- Each `Feed` meets a parser that has neither completed its document nor failed. -/
def Orderly : List Call → State Event → Prop
  | [], _ => True
  | .feed chunk :: rest, m => (m.complete = false ∧ m.error = false) ∧ Orderly rest (feed binding chunk m).2
  | call :: rest, m => Orderly rest (step binding call m).2

section

variable {binding} {m : State Event}

theorem feed_cases (chunk : Bytes) (m : State Event) :
    (∃ failure, feed binding chunk m = fail m failure) ∨ feed binding chunk m = ({}, { m with buffer := m.buffer ++ chunk }) := by
  unfold feed
  dsimp only
  split
  · exact .inl ⟨_, rfl⟩
  split
  · exact .inl ⟨_, rfl⟩
  · split
    · exact .inl ⟨_, rfl⟩
    · exact .inr rfl

theorem tryComplete_cases (m : State Event) :
    (∃ failure, binding.validate (completionLimits binding m) m.buffer = .error failure ∧
      tryComplete binding m = fail m failure) ∨
    binding.validate (completionLimits binding m) m.buffer = .ok () ∧
      ((∃ calls failure, binding.emit (completionLimits binding m) m.calls m.buffer = (calls, .error failure) ∧
        tryComplete binding m = fail { m with calls := m.calls ++ calls } failure) ∨
      ∃ calls, binding.emit (completionLimits binding m) m.calls m.buffer = (calls, .ok ()) ∧
        tryComplete binding m = ({ status := .complete, eventsProduced := calls.length },
          { m with calls := m.calls ++ calls, complete := true })) := by
  unfold tryComplete
  cases validated : binding.validate (completionLimits binding m) m.buffer with
  | error failure => exact .inl ⟨failure, rfl, rfl⟩
  | ok u =>
    refine .inr ⟨rfl, ?_⟩
    rcases emitted : binding.emit (completionLimits binding m) m.calls m.buffer with ⟨calls, answer⟩
    cases answer with
    | error failure => exact .inl ⟨calls, failure, rfl, rfl⟩
    | ok u => exact .inr ⟨calls, rfl, rfl⟩

/-- What holds in every state of an orderly run: a failed parser is not complete and keeps the
    diagnostic that was noted first. -/
structure Noted (noted : Option Failure) (m : State Event) : Prop where
  failed : m.error = noted.isSome
  exclusive : m.error = true → m.complete = false
  diagnostic : m.error = true → m.diagnostic = noted

theorem noted_fail (failure : Failure) (running : m.complete = false) : Noted (some failure) (fail m failure).2 where
  failed := rfl
  exclusive _ := running
  diagnostic _ := rfl

theorem feed_noted {noted : Option Failure} (chunk : Bytes) (here : Noted noted m)
    (orderly : m.complete = false ∧ m.error = false) :
    Noted (noted.or (errorOf (some (feed binding chunk m).1))) (feed binding chunk m).2 := by
  have clear : noted = none := by
    have := here.failed
    rw [orderly.2] at this
    simpa using this.symm
  subst clear
  rcases feed_cases chunk m with ⟨failure, failed⟩ | fed
  · rw [failed]
    exact noted_fail failure orderly.1
  · rw [fed]
    exact ⟨here.failed, here.exclusive, here.diagnostic⟩

theorem finish_noted {noted : Option Failure} (here : Noted noted m) :
    (∀ d, noted = some d → errorOf (some (finish binding m).1) = some d) ∧
      Noted (noted.or (errorOf (some (finish binding m).1))) (finish binding m).2 := by
  have failed := here.failed
  cases noted with
  | some d =>
    have broken : m.error = true := failed
    have running := here.exclusive broken
    have kept := here.diagnostic broken
    have same : finish binding m = ({ status := .error, diagnostic := some d }, m) := by
      simp [finish, running, broken, kept]
    rw [same]
    refine ⟨?_, here⟩
    intro d' equal
    exact equal
  | none =>
    have sane : m.error = false := failed
    refine ⟨by simp, ?_⟩
    by_cases done : m.complete = true
    · have same : finish binding m = ({ status := .complete }, m) := by simp [finish, done]
      rw [same]
      exact here
    · have running : m.complete = false := by simpa using done
      have same : finish binding m = tryComplete binding m := by simp [finish, running, sane]
      rw [same]
      rcases tryComplete_cases m with ⟨failure, _, failed⟩ | ⟨_, ⟨calls, failure, _, failed⟩ | ⟨calls, _, ok⟩⟩
      · rw [failed]
        exact noted_fail failure running
      · rw [failed]
        exact noted_fail failure running
      · rw [ok]
        constructor
        · exact sane
        · intro broken
          exact absurd (sane.symm.trans broken) (by simp)
        · intro broken
          exact absurd (sane.symm.trans broken) (by simp)

theorem orderly_stable (calls : List Call) {noted : Option Failure} (here : Noted noted m) (orderly : Orderly binding calls m) :
    Stable noted (trace binding calls m) := by
  induction calls generalizing m noted with
  | nil => trivial
  | cons call rest ih =>
    cases call with
    | feed chunk => exact ih (feed_noted chunk here orderly.1) orderly.2
    | finish =>
      obtain ⟨same, next⟩ := finish_noted here
      exact ⟨same, ih next orderly⟩
    | reset => exact ih ⟨rfl, by simp [step, reset], by simp [step, reset]⟩ orderly

end

/-- The diagnostic of a parser that has failed is stable as long as it is not fed again. -/
theorem diagnostic_stable (binding : Binding Event) {calls : List Call} (orderly : Orderly binding calls {}) :
    Stable none (trace binding calls {}) := orderly_stable calls ⟨rfl, nofun, nofun⟩ orderly

/-- A parser that takes no input and whose documents are all valid. -/
def closed : Binding Unit where
  limits := { maxInputBytes := 0 }
  requiresReset := ""
  limitExceeded := ""
  allocationFailed := ""
  stores _ _ := true
  validate _ _ := .ok ()
  emit _ _ _ := ([], .ok ())

theorem diagnostic_stable_closed : Stable none (trace closed.json [.feed [0x20], .finish, .reset, .finish] {}) :=
  diagnostic_stable closed.json ⟨⟨rfl, rfl⟩, trivial⟩

theorem diagnostic_unstable :
    ¬Stable none (trace closed.json [.feed [0x20], .feed [], .finish] {}) ∧ ¬Stable none (trace closed.xml [.feed [0x20], .feed [], .finish] {}) := by
  constructor <;> exact fun stable => absurd (stable.1 _ rfl) (by decide)

end Incremental

end NginBase
