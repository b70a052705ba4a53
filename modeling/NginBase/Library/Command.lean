import Mathlib

namespace Library

/-! Commands on a state. A command that fails keeps the state it has reached. -/

def Command (ε σ α : Type) : Type := σ → Except ε α × σ

namespace Command

variable {ε σ α β : Type}

def andThen (x : Command ε σ α) (f : α → Command ε σ β) : Command ε σ β := fun s =>
  match x s with
  | (.ok a, s') => f a s'
  | (.error e, s') => (.error e, s')

instance : Monad (Command ε σ) where
  pure a := fun s => (.ok a, s)
  bind := andThen

def fail (e : ε) : Command ε σ α := fun s => (.error e, s)

def get : Command ε σ σ := fun s => (.ok s, s)

def modify (f : σ → σ) : Command ε σ Unit := fun s => (.ok (), f s)

def onFailure (x : Command ε σ α) (repair : σ → σ) : Command ε σ α := fun s =>
  match x s with
  | (.ok a, s') => (.ok a, s')
  | (.error e, s') => (.error e, repair s')

/-- Started in `s`, the command succeeds with `post` or fails with `failed`. -/
def Ensures (x : Command ε σ α) (s : σ) (post : α → σ → Prop) (failed : ε → σ → Prop) : Prop :=
  match x s with
  | (.ok a, s') => post a s'
  | (.error e, s') => failed e s'

section

variable {s : σ} {post : α → σ → Prop} {failed : ε → σ → Prop}

@[simp] theorem ensures_pure (a : α) : Ensures (pure a : Command ε σ α) s post failed ↔ post a s := Iff.rfl

@[simp] theorem ensures_fail (e : ε) : Ensures (fail e : Command ε σ α) s post failed ↔ failed e s := Iff.rfl

@[simp] theorem ensures_get {post : σ → σ → Prop} : Ensures (get : Command ε σ σ) s post failed ↔ post s s := Iff.rfl

@[simp] theorem ensures_modify {post : Unit → σ → Prop} (f : σ → σ) :
    Ensures (modify f : Command ε σ Unit) s post failed ↔ post () (f s) := Iff.rfl

@[simp] theorem ensures_bind {post : β → σ → Prop} (x : Command ε σ α) (f : α → Command ε σ β) :
    Ensures (x >>= f) s post failed ↔ Ensures x s (fun a s' => Ensures (f a) s' post failed) failed := by
  show Ensures (andThen x f) s post failed ↔ _
  unfold Ensures andThen
  rcases x s with ⟨result, s'⟩
  cases result with
  | ok a => rfl
  | error e => rfl

@[simp] theorem ensures_onFailure (x : Command ε σ α) (repair : σ → σ) :
    Ensures (x.onFailure repair) s post failed ↔ Ensures x s post fun e s' => failed e (repair s') := by
  unfold Ensures onFailure
  rcases x s with ⟨result, s'⟩
  cases result with
  | ok a => rfl
  | error e => rfl

variable {x : Command ε σ α}

theorem Ensures.mono {post' : α → σ → Prop} {failed' : ε → σ → Prop} (h : x.Ensures s post failed)
    (good : ∀ a s', post a s' → post' a s') (bad : ∀ e s', failed e s' → failed' e s') : x.Ensures s post' failed' := by
  unfold Ensures at h ⊢
  rcases result : x s with ⟨answer, s'⟩
  rw [result] at h
  cases answer with
  | ok a => exact good a s' h
  | error e => exact bad e s' h

theorem Ensures.bind {f : α → Command ε σ β} {post' : β → σ → Prop} (h : x.Ensures s post failed)
    (next : ∀ a s', post a s' → (f a).Ensures s' post' failed) : (x >>= f).Ensures s post' failed :=
  (ensures_bind x f).mpr (h.mono next fun _ _ bad => bad)

theorem Ensures.weaken {post' : α → σ → Prop} (h : x.Ensures s post fun _ _ => False)
    (good : ∀ a s', post a s' → post' a s') : x.Ensures s post' failed :=
  h.mono good fun _ _ impossible => impossible.elim

section

variable (h : x.Ensures s post failed)

include h

theorem Ensures.ok {a : α} {s' : σ} (ok : x s = (.ok a, s')) : post a s' := by
  unfold Ensures at h
  rwa [ok] at h

theorem Ensures.error {e : ε} {s' : σ} (error : x s = (.error e, s')) : failed e s' := by
  unfold Ensures at h
  rwa [error] at h

theorem Ensures.succeeds (never : ∀ e s', ¬ failed e s') : ∃ a s', x s = (.ok a, s') ∧ post a s' := by
  unfold Ensures at h
  rcases result : x s with ⟨answer, s'⟩
  rw [result] at h
  cases answer with
  | ok a => exact ⟨a, s', rfl, h⟩
  | error e => exact absurd h (never e s')

end

theorem Ensures.state {inv : σ → Prop} (h : x.Ensures s (fun _ => inv) fun _ => inv) : inv (x s).2 := by
  unfold Ensures at h
  rcases result : x s with ⟨answer, s'⟩
  rw [result] at h
  cases answer with
  | ok a => exact h
  | error e => exact h

end

section

variable {ι : Type} (run : ι → Command ε σ α)

def perform : List ι → Command ε σ Unit
  | [] => pure ()
  | call :: rest => do
    let _ ← run call
    perform rest

theorem perform_history {inv : List ι → σ → Prop} {allowed : ι → Prop} {failed : ε → σ → Prop}
    (step : ∀ done call s, inv done s → allowed call → (run call).Ensures s (fun _ s' => inv (done ++ [call]) s') failed)
    (calls : List ι) (all : ∀ call ∈ calls, allowed call) {done : List ι} {s : σ} (start : inv done s) :
    (perform run calls).Ensures s (fun _ s' => inv (done ++ calls) s') failed := by
  induction calls generalizing done s with
  | nil => simpa [perform] using start
  | cons call rest ih =>
    apply (step done call s start (all call List.mem_cons_self)).bind
    intro _ s' kept
    have later := ih (fun call mem => all call (List.mem_cons_of_mem _ mem)) kept
    rwa [List.append_assoc] at later

def attempt (calls : List ι) (s : σ) : σ := calls.foldl (fun s call => (run call s).2) s

end

end Command

end Library
