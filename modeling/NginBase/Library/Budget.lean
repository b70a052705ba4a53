import NginBase.Library.Simulation

namespace Library

/-! A run under limits, compared with the unlimited run that reports its cost. -/

inductive Audited (κ α : Type)
  | failed
  | done (value : α) (cost : κ)

namespace Audited

variable {ε κ α β γ : Type} [AddMonoid κ]

def andThen (x : Audited κ α) (f : α → Audited κ β) : Audited κ β :=
  match x with
  | failed => failed
  | done a k =>
    match f a with
    | failed => failed
    | done b k' => done b (k + k')

instance : Monad (Audited κ) where
  pure a := done a 0
  bind := andThen

def charge (k : κ) : Audited κ Unit := done () k

def free (x : Except ε α) : Audited κ α :=
  match x with
  | .error _ => failed
  | .ok a => done a 0

@[simp] theorem pure_eq_done (a : α) : (pure a : Audited κ α) = done a 0 := rfl

@[simp] theorem failed_bind (f : α → Audited κ β) : (failed >>= f) = failed := rfl

theorem done_bind (a : α) (k : κ) (f : α → Audited κ β) : (done a k >>= f) = match f a with
      | failed => failed
      | done b k' => done b (k + k') := rfl

@[simp] theorem done_zero_bind (a : α) (f : α → Audited κ β) : (done a 0 >>= f) = f a := by
  rw [done_bind]
  cases f a with
  | failed => rfl
  | done b k => simp

@[simp] theorem bind_assoc' (x : Audited κ α) (f : α → Audited κ β) (g : β → Audited κ γ) :
    (x >>= f >>= g) = x >>= fun a => f a >>= g := by
  cases x with
  | failed => rfl
  | done a k =>
    rw [done_bind, done_bind]
    cases f a with
    | failed => rfl
    | done b k' =>
      simp only [done_bind]
      cases g b with
      | failed => rfl
      | done c k'' => simp [add_assoc]

theorem bind_pure' (x : Audited κ α) : (x >>= pure) = x := by
  cases x with
  | failed => rfl
  | done a k => simp [done_bind]

variable {k : κ}

theorem bind_done {x : Audited κ α} {f : α → Audited κ β} {b : β} (h : x >>= f = done b k) :
    ∃ a k₁ k₂, x = done a k₁ ∧ f a = done b k₂ ∧ k = k₁ + k₂ := by
  cases x with
  | failed => cases h
  | done a k₁ =>
    rw [done_bind] at h
    cases next : f a with
    | failed => rw [next] at h; cases h
    | done c k₂ =>
      rw [next] at h
      cases h
      exact ⟨a, k₁, k₂, rfl, next, rfl⟩

theorem free_bind_done {x : Except ε α} {f : α → Audited κ β} {b : β} (h : free x >>= f = done b k) :
    ∃ a, x = .ok a ∧ f a = done b k := by
  cases x with
  | error e => cases h
  | ok a => exact ⟨a, rfl, by rwa [free, done_zero_bind] at h⟩

theorem charge_bind_done {f : Unit → Audited κ β} {b : β} {k₁ : κ} (h : charge k₁ >>= f = done b k) :
    ∃ k₂, f () = done b k₂ ∧ k = k₁ + k₂ := by
  obtain ⟨_, _, k₂, paid, next, rfl⟩ := bind_done h
  cases paid
  exact ⟨k₂, next, rfl⟩

theorem charge_bind_comm (central : ∀ k', AddCommute k k') (x : Audited κ α) (f : α → Audited κ β) :
    (do let a ← x; charge k; f a) = (do charge k; let a ← x; f a) := by
  cases x with
  | failed => rfl
  | done a k' =>
    simp only [done_bind, charge]
    cases f a with
    | failed => rfl
    | done b k'' =>
      dsimp only
      rw [← add_assoc, ← add_assoc, (central k').eq]

theorem charge_comm (central : ∀ k', AddCommute k k') (x : Audited κ α) :
    (do let a ← x; charge k; pure a) = (do charge k; x) := by
  rw [charge_bind_comm central, bind_pure']

/-- The run ends with a value, at one of the costs in `costs`. -/
def Yields (costs : AddSubmonoid κ) (x : Audited κ α) (a : α) : Prop := ∃ k ∈ costs, x = done a k

variable {costs : AddSubmonoid κ}

theorem Yields.bind {x : Audited κ α} {f : α → Audited κ β} {a : α} {b : β} (first : x.Yields costs a)
    (next : (f a).Yields costs b) : (x >>= f).Yields costs b := by
  obtain ⟨k, within, rfl⟩ := first
  obtain ⟨k', within', h⟩ := next
  exact ⟨k + k', costs.add_mem within within', by rw [done_bind, h]⟩

theorem Yields.pure (a : α) : Yields costs (Pure.pure a : Audited κ α) a :=
  ⟨0, costs.zero_mem, rfl⟩

theorem Yields.charge (within : k ∈ costs) : Yields costs (Audited.charge k) () :=
  ⟨k, within, rfl⟩

theorem Yields.free {x : Except ε α} {a : α} (h : x = .ok a) : Yields costs (Audited.free x : Audited κ α) a :=
  ⟨0, costs.zero_mem, by rw [h]; rfl⟩

end Audited

/-- A budget `τ` out of which costs `κ` are paid one after the other. -/
structure Budget (τ κ : Type) [AddMonoid κ] where
  fits : τ → κ → Prop
  spend : τ → κ → τ
  spend_zero : ∀ t, spend t 0 = t
  spend_add : ∀ t a b, spend t (a + b) = spend (spend t a) b
  fits_add : ∀ t a b, fits t (a + b) ↔ fits t a ∧ fits (spend t a) b

def Budget.ceiling {κ : Type} [AddMonoid κ] (within : κ → Prop) (shrinks : ∀ a b, within (a + b) → within a) :
    Budget κ κ where
  fits t k := within (t + k)
  spend t k := t + k
  spend_zero := add_zero
  spend_add t a b := (add_assoc t a b).symm
  fits_add t a b := by
    rw [← add_assoc]
    constructor
    · intro whole
      exact ⟨shrinks _ _ whole, whole⟩
    · intro ⟨_, whole⟩
      exact whole

/-- The run `x` is the audited run `y` under a budget: it may give up; otherwise it fails where `y`
    fails, ends as `y` ends when the whole cost fits, and fails at a limit when it does not. -/
inductive Checks {ε τ κ α β : Type} [AddMonoid κ] (budget : Budget τ κ) (give limit : ε → Prop) (t : τ)
    (val : τ → α → β → Prop) : Except ε α → Audited κ β → Prop
  | giveUp {e : ε} {y : Audited κ β} (gives : give e) : Checks budget give limit t val (.error e) y
  | failed {e : ε} : Checks budget give limit t val (.error e) .failed
  | past {e : ε} {b : β} {k : κ} (limited : limit e) (exceeds : ¬ budget.fits t k) :
    Checks budget give limit t val (.error e) (.done b k)
  | ok {a : α} {b : β} {k : κ} (fits : budget.fits t k) (same : val (budget.spend t k) a b) :
    Checks budget give limit t val (.ok a) (.done b k)

/-- Two audited runs that differ at most when no budget pays for either. -/
inductive Alike {τ κ β : Type} [AddMonoid κ] (budget : Budget τ κ) : Audited κ β → Audited κ β → Prop
  | same (y : Audited κ β) : Alike budget y y
  | unaffordable {b b' : β} {k k' : κ} (left : ∀ t, ¬ budget.fits t k) (right : ∀ t, ¬ budget.fits t k') :
    Alike budget (.done b k) (.done b' k')

namespace Checks

variable {ε τ κ α β α' β' : Type} [AddMonoid κ] {budget : Budget τ κ} {give limit : ε → Prop} {t : τ}

variable {val : τ → α → β → Prop} {x : Except ε α} {y : Audited κ β}

theorem bind {val' : τ → α' → β' → Prop} {f : α → Except ε α'} {g : β → Audited κ β'}
    (first : Checks budget give limit t val x y)
    (next : ∀ t' a b, budget.fits t' 0 → val t' a b → Checks budget give limit t' val' (f a) (g b)) :
    Checks budget give limit t val' (x >>= f) (y >>= g) := by
  cases first with
  | giveUp gives => exact .giveUp gives
  | failed => exact .failed
  | @past e b k limited exceeds =>
    rw [Audited.done_bind]
    cases g b with
    | failed => exact .failed
    | done c k' => exact .past limited fun fits => exceeds ((budget.fits_add t k k').mp fits).1
  | @ok a b k fits same =>
    have within : budget.fits (budget.spend t k) 0 := ((budget.fits_add t k 0).mp (by rwa [add_zero])).2
    have second := next _ a b within same
    rw [Audited.done_bind, ok_bind]
    generalize f a = x' at second ⊢
    generalize g b = y' at second ⊢
    cases second with
    | giveUp gives => exact .giveUp gives
    | failed => exact .failed
    | past limited exceeds => exact .past limited fun both => exceeds ((budget.fits_add _ _ _).mp both).2
    | ok fits' same' =>
      refine .ok ((budget.fits_add _ _ _).mpr ⟨fits, fits'⟩) ?_
      rw [budget.spend_add]
      exact same'

theorem mono {val' : τ → α → β → Prop} (run : Checks budget give limit t val x y)
    (weaker : ∀ t' a b, val t' a b → val' t' a b) : Checks budget give limit t val' x y := by
  cases run with
  | giveUp gives => exact .giveUp gives
  | failed => exact .failed
  | past limited exceeds => exact .past limited exceeds
  | ok fits same => exact .ok fits (weaker _ _ _ same)

theorem pure {a : α} {b : β} (within : budget.fits t 0) (same : val t a b) :
    Checks budget give limit t val (.ok a) (.done b 0) :=
  .ok within (by rwa [budget.spend_zero])

theorem free {ε' : Type} {err : ε → ε' → Prop} {y : Except ε' β} (within : budget.fits t 0)
    (step : Simulates give err (val t) x y) : Checks budget give limit t val x (.free y) := by
  cases step with
  | giveUp gives => exact .giveUp gives
  | error => exact .failed
  | ok same => exact .pure within same

theorem of_simulates {ε' γ : Type} {err : ε → ε' → Prop} {limit' : ε' → Prop} {val : α → γ → Prop}
    {val' : τ → γ → β → Prop} {y : Except ε' γ} {z : Audited κ β} (run : Simulates give err val x y)
    (checked : Checks budget (fun _ => False) limit' t val' y z) (limits : ∀ e e', err e e' → limit' e' → limit e) :
    Checks budget give limit t (fun t' a b => ∃ m, val a m ∧ val' t' m b) x z := by
  cases run with
  | giveUp gives => exact .giveUp gives
  | error same =>
    cases checked with
    | giveUp gives => exact gives.elim
    | failed => exact .failed
    | past limited exceeds => exact .past (limits _ _ same limited) exceeds
  | ok same =>
    cases checked with
    | ok fits same' => exact .ok fits ⟨_, same, same'⟩

theorem doomed {e : ε} (limited : limit e) (exceeds : ∀ b k, y = .done b k → ¬ budget.fits t k) :
    Checks budget give limit t val (.error e) y := by
  cases y with
  | failed => exact .failed
  | done b k => exact .past limited (exceeds b k rfl)

theorem prepay {k : κ} (affordable : budget.fits t k → Checks budget give limit (budget.spend t k) val x y)
    (refused : ¬ budget.fits t k → ∃ e, x = .error e ∧ limit e) :
    Checks budget give limit t val x (do Audited.charge k; y) := by
  by_cases fits : budget.fits t k
  · have rest := affordable fits
    cases rest with
    | giveUp gives => exact .giveUp gives
    | failed => exact .failed
    | past limited exceeds => exact .past limited fun both => exceeds ((budget.fits_add _ _ _).mp both).2
    | ok fits' same =>
      refine .ok ((budget.fits_add _ _ _).mpr ⟨fits, fits'⟩) ?_
      rw [budget.spend_add]
      exact same
  · obtain ⟨e, rfl, limited⟩ := refused fits
    refine doomed limited fun b k' h both => fits ?_
    obtain ⟨_, k₁, k₂, charged, _, rfl⟩ := Audited.bind_done h
    cases charged
    exact ((budget.fits_add _ _ _).mp both).1

theorem alike {y' : Audited κ β} (run : Checks budget give limit t val x y) (like : Alike budget y y') :
    Checks budget give limit t val x y' := by
  cases like with
  | same => exact run
  | unaffordable left right =>
    cases run with
    | giveUp gives => exact .giveUp gives
    | past limited _ => exact .past limited (right t)
    | ok fits _ => exact absurd fits (left t)

theorem ite {p q : Prop} [Decidable p] [Decidable q] {x' : Except ε α} {y' : Audited κ β} (agree : p ↔ q)
    (yes : p → q → Checks budget give limit t val x y) (no : ¬ p → ¬ q → Checks budget give limit t val x' y') :
    Checks budget give limit t val (if p then x else x') (if q then y else y') := by
  by_cases h : p
  · rw [if_pos h, if_pos (agree.mp h)]
    exact yes h (agree.mp h)
  · rw [if_neg h, if_neg (fun hq => h (agree.mpr hq))]
    exact no h (fun hq => h (agree.mpr hq))

theorem ok_cases {a : α} (run : Checks budget give limit t val (.ok a) y) :
    ∃ b k, y = .done b k ∧ budget.fits t k ∧ val (budget.spend t k) a b := by
  cases run with
  | ok fits same => exact ⟨_, _, rfl, fits, same⟩

theorem done_cases {b : β} {k : κ} (run : Checks budget give limit t val x (.done b k)) :
    (∃ e, x = .error e ∧ give e) ∨ (∃ e, x = .error e ∧ limit e ∧ ¬ budget.fits t k) ∨
      ∃ a, x = .ok a ∧ budget.fits t k ∧ val (budget.spend t k) a b := by
  cases run with
  | giveUp gives => exact .inl ⟨_, rfl, gives⟩
  | past limited exceeds => exact .inr (.inl ⟨_, rfl, limited, exceeds⟩)
  | ok fits same => exact .inr (.inr ⟨_, rfl, fits, same⟩)

end Checks

end Library
