import Mathlib

namespace Library.Interleaving

/-! Runs of a system that takes one action after the other, and conditions on the actions of a run. -/

variable {σ α : Type} (act : σ → α → Option σ)

def run (s : σ) : List α → Option σ
  | [] => some s
  | a :: rest => (act s a).bind fun s => run s rest

def Along (holds : σ → α → Prop) (s : σ) : List α → Prop
  | [] => True
  | a :: rest => holds s a ∧ ∀ t, act s a = some t → Along holds t rest

def Stuck (s : σ) : Prop := ∀ a, act s a = none

variable {act} {holds : σ → α → Prop} {s s' : σ}

instance along_decidable [∀ s a, Decidable (holds s a)] : ∀ (s : σ) (actions : List α), Decidable (Along act holds s actions)
  | _, [] => .isTrue trivial
  | s, a :: rest =>
    match acted : act s a with
    | none => decidable_of_iff (holds s a) (by simp [Along, acted])
    | some t =>
      have := along_decidable t rest
      decidable_of_iff (holds s a ∧ Along act holds t rest) (by simp [Along, acted])

theorem keeps {inv : σ → Prop} (step : ∀ s a s', inv s → holds s a → act s a = some s' → inv s') {actions : List α}
    (along : Along act holds s actions) (ran : run act s actions = some s') (first : inv s) : inv s' := by
  induction actions generalizing s with
  | nil =>
    obtain rfl := Option.some.inj ran
    exact first
  | cons a rest hypothesis =>
    obtain ⟨middle, acted, later⟩ := Option.bind_eq_some_iff.mp ran
    exact hypothesis (along.2 middle acted) later (step s a middle first along.1 acted)

theorem along_of_mem {actions : List α} (holds_ : ∀ a ∈ actions, ∀ s, holds s a) : Along act holds s actions := by
  induction actions generalizing s with
  | nil => trivial
  | cons a rest hypothesis =>
    exact ⟨holds_ a List.mem_cons_self s, fun _ _ => hypothesis fun b mem => holds_ b (List.mem_cons_of_mem a mem)⟩

theorem always (act : σ → α → Option σ) (s : σ) (actions : List α) : Along act (fun _ _ => True) s actions :=
  along_of_mem fun _ _ _ => trivial

theorem invariant {inv : σ → Prop} (step : ∀ s a s', inv s → act s a = some s' → inv s') {actions : List α}
    (ran : run act s actions = some s') (first : inv s) : inv s' :=
  keeps (fun s a s' before _ => step s a s' before) (always act s actions) ran first

theorem bounded {measure : σ → Nat} (step : ∀ s a s', act s a = some s' → measure s' < measure s) {actions : List α}
    (ran : run act s actions = some s') : actions.length + measure s' ≤ measure s := by
  induction actions generalizing s with
  | nil =>
    obtain rfl := Option.some.inj ran
    exact Nat.le_of_eq (Nat.zero_add _)
  | cons a rest hypothesis =>
    obtain ⟨middle, acted, later⟩ := Option.bind_eq_some_iff.mp ran
    have used := step s a middle acted
    have remains := hypothesis later
    rw [List.length_cons]
    omega

end Library.Interleaving

namespace Library.Concurrent

inductive Event (Operation Result : Type)
  | invoke (call : Nat) (operation : Operation)
  | respond (call : Nat) (result : Result)

end Library.Concurrent
