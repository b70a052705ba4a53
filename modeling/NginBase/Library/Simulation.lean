import Mathlib

namespace Library

/-- The run `x` gives up for a reason that `give` admits, or it ends as the run `y` ends:
    both failures are related by `err`, both results by `val`. -/
inductive Simulates {ε ε' α β : Type} (give : ε → Prop) (err : ε → ε' → Prop) (val : α → β → Prop) :
    Except ε α → Except ε' β → Prop
  | giveUp {e : ε} {y : Except ε' β} (gives : give e) : Simulates give err val (.error e) y
  | error {e : ε} {e' : ε'} (same : err e e') : Simulates give err val (.error e) (.error e')
  | ok {a : α} {b : β} (same : val a b) : Simulates give err val (.ok a) (.ok b)

section

variable {ε α β : Type}

@[simp] theorem ok_bind (a : α) (f : α → Except ε β) : (Except.ok a >>= f) = f a := rfl

@[simp] theorem error_bind (e : ε) (f : α → Except ε β) : (Except.error e >>= f) = .error e := rfl

@[simp] theorem pure_eq_ok (a : α) : (pure a : Except ε α) = .ok a := rfl

@[simp] theorem throw_eq_error (e : ε) : (throw e : Except ε α) = .error e := rfl

theorem bind_ok {x : Except ε α} {f : α → Except ε β} {b : β} (h : x >>= f = .ok b) :
    ∃ a, x = .ok a ∧ f a = .ok b := by
  cases x with
  | error e => cases h
  | ok a => exact ⟨a, rfl, h⟩

theorem guard_ok {p : Prop} [Decidable p] {e : ε} {x : Except ε α} {a : α} (h : (if p then throw e else x) = .ok a) :
    ¬p ∧ x = .ok a := by
  split at h
  · cases h
  · exact ⟨‹_›, h⟩

end

section

variable {ε ε' α β α' β' : Type} {give : ε → Prop} {err : ε → ε' → Prop}

variable {val : α → β → Prop} {x : Except ε α} {y : Except ε' β}

theorem Simulates.bind {val' : α' → β' → Prop} {f : α → Except ε α'} {g : β → Except ε' β'}
    (first : Simulates give err val x y) (next : ∀ a b, val a b → Simulates give err val' (f a) (g b)) :
    Simulates give err val' (x >>= f) (y >>= g) := by
  cases first with
  | giveUp gives => exact .giveUp gives
  | error same => exact .error same
  | ok same => exact next _ _ same

theorem Simulates.mono {val' : α → β → Prop} (run : Simulates give err val x y) (weaker : ∀ a b, val a b → val' a b) :
    Simulates give err val' x y := by
  cases run with
  | giveUp gives => exact .giveUp gives
  | error same => exact .error same
  | ok same => exact .ok (weaker _ _ same)

theorem Simulates.keep (run : Simulates give err val x y) : Simulates give err (fun a b => val a b ∧ y = .ok b) x y := by
  cases run with
  | giveUp gives => exact .giveUp gives
  | error same => exact .error same
  | ok same => exact .ok ⟨same, rfl⟩

theorem Simulates.bind_left {val : α → Prop} {val' : α' → β' → Prop} {y : Except ε' β'} {f : α → Except ε α'}
    (first : (∃ e, x = .error e ∧ give e) ∨ ∃ a, x = .ok a ∧ val a) (next : ∀ a, val a → Simulates give err val' (f a) y) :
    Simulates give err val' (x >>= f) y := by
  rcases first with ⟨e, rfl, gives⟩ | ⟨a, rfl, holds⟩
  · exact .giveUp gives
  · exact next a holds

theorem Simulates.ite {p q : Prop} [Decidable p] [Decidable q] {x' : Except ε α} {y' : Except ε' β} (agree : p ↔ q)
    (yes : p → q → Simulates give err val x y) (no : ¬ p → ¬ q → Simulates give err val x' y') :
    Simulates give err val (if p then x else x') (if q then y else y') := by
  by_cases h : p
  · rw [if_pos h, if_pos (agree.mp h)]
    exact yes h (agree.mp h)
  · rw [if_neg h, if_neg (fun hq => h (agree.mpr hq))]
    exact no h (fun hq => h (agree.mpr hq))

end

end Library
