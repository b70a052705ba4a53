import NginBase.Library.Budget

namespace Library

open List

/-! Runs that charge for what they use and name the error that a refused charge ends with. Executed
under a budget such a run stops at the first charge that is refused; audited, it reports the sum. -/

structure Charged (κ ε α : Type) where
  charges : List (κ × ε)
  result : Except ε α

namespace Charged

variable {κ ε α β : Type}

def andThen (x : Charged κ ε α) (f : α → Charged κ ε β) : Charged κ ε β :=
  match x.result with
  | .error e => ⟨x.charges, .error e⟩
  | .ok a => ⟨x.charges ++ (f a).charges, (f a).result⟩

instance : Monad (Charged κ ε) where
  pure a := ⟨[], .ok a⟩
  bind := andThen

def charge (k : κ) (refused : ε) : Charged κ ε Unit := ⟨[(k, refused)], .ok ()⟩

def lift (x : Except ε α) : Charged κ ε α := ⟨[], x⟩

def fail (e : ε) : Charged κ ε α := lift (.error e)

theorem bind_ok {x : Charged κ ε α} {f : α → Charged κ ε β} {b : β} (h : (x >>= f).result = .ok b) :
    ∃ a, x.result = .ok a ∧ (f a).result = .ok b := by
  change (andThen x f).result = .ok b at h
  unfold andThen at h
  cases result : x.result with
  | error e =>
    rw [result] at h
    cases h
  | ok a =>
    rw [result] at h
    exact ⟨a, rfl, h⟩

theorem result_bind {x : Charged κ ε α} {a : α} (h : x.result = .ok a) (f : α → Charged κ ε β) : (x >>= f).result = (f a).result := by
  show (andThen x f).result = _
  rw [andThen, h]

theorem result_charge (k : κ) (refused : ε) (f : Unit → Charged κ ε β) : (charge k refused >>= f).result = (f ()).result := rfl

theorem result_lift {x : Except ε α} {a : α} (h : x = .ok a) (f : α → Charged κ ε β) : (lift x >>= f).result = (f a).result :=
  result_bind h f

section

variable {τ : Type} [AddMonoid κ] (budget : Budget τ κ) [∀ t k, Decidable (budget.fits t k)]

def pay : τ → List (κ × ε) → Except ε τ
  | t, [] => .ok t
  | t, (k, refused) :: rest => if budget.fits t k then pay (budget.spend t k) rest else .error refused

def execute (t : τ) (x : Charged κ ε α) : Except ε (α × τ) := do
  let t ← pay budget t x.charges
  let a ← x.result
  return (a, t)

theorem pay_append (t : τ) (first second : List (κ × ε)) :
    pay budget t (first ++ second) = (do let t ← pay budget t first; pay budget t second) := by
  induction first generalizing t with
  | nil => rfl
  | cons entry rest ih =>
    simp only [cons_append, pay]
    split
    · exact ih _
    · rfl

theorem execute_bind (t : τ) (x : Charged κ ε α) (f : α → Charged κ ε β) :
    execute budget t (x >>= f) = (do let (a, t) ← execute budget t x; execute budget t (f a)) := by
  show execute budget t (andThen x f) = _
  unfold execute andThen
  cases x.result with
  | error e =>
    cases pay budget t x.charges <;> rfl
  | ok a =>
    rw [pay_append]
    cases pay budget t x.charges <;> rfl

theorem execute_charge (t : τ) (k : κ) (refused : ε) :
    execute budget t (charge k refused) = if budget.fits t k then .ok ((), budget.spend t k) else .error refused := by
  unfold execute charge
  simp only [pay]
  split <;> rfl

def total (x : Charged κ ε α) : κ := (x.charges.map Prod.fst).sum

theorem execute_ok (x : Charged κ ε α) {t : τ} (within : budget.fits t 0) (a : α) (t' : τ) :
    execute budget t x = .ok (a, t') ↔
      x.result = .ok a ∧ budget.fits t x.total ∧ t' = budget.spend t x.total := by
  have paid (charges : List (κ × ε)) (t t' : τ) (within : budget.fits t 0) :
      pay budget t charges = .ok t' ↔
        budget.fits t (charges.map Prod.fst).sum ∧ t' = budget.spend t (charges.map Prod.fst).sum := by
    induction charges generalizing t with
    | nil =>
      simp only [pay, map_nil, sum_nil, within, true_and, budget.spend_zero, Except.ok.injEq]
      exact eq_comm
    | cons entry rest ih =>
      obtain ⟨k, refused⟩ := entry
      simp only [pay, map_cons, sum_cons, budget.fits_add, budget.spend_add]
      split
      · rename_i fits
        have next : budget.fits (budget.spend t k) 0 := ((budget.fits_add t k 0).mp (by rwa [add_zero])).2
        rw [ih _ next]
        simp [fits]
      · rename_i exceeds
        simp [exceeds]
  unfold execute total
  rw [← and_assoc, and_comm (a := x.result = .ok a), and_assoc]
  cases first : pay budget t x.charges with
  | error e =>
    have never := (paid x.charges t (budget.spend t (x.charges.map Prod.fst).sum) within).not.mp (by rw [first]; simp)
    constructor
    · intro h
      cases h
    · intro ⟨fits, _⟩
      exact (never ⟨fits, rfl⟩).elim
  | ok t₁ =>
    obtain ⟨fits, rfl⟩ := (paid x.charges t t₁ within).mp first
    simp only [fits]
    cases x.result with
    | error e => simp
    | ok b => simp [eq_comm]

end

section

variable [AddMonoid κ] {fails : ε → Prop}

/-- However the run is refused or ends in an error, the error is one of `fails`; when it succeeds,
    `post` holds of its value and of all it charged. -/
structure Ensures (fails : ε → Prop) (post : α → κ → Prop) (x : Charged κ ε α) : Prop where
  refused : ∀ entry ∈ x.charges, fails entry.2
  error : ∀ e, x.result = .error e → fails e
  ok : ∀ a, x.result = .ok a → post a x.total

namespace Ensures

variable {post : α → κ → Prop}

theorem pure {a : α} (holds : post a 0) : Ensures fails post (Pure.pure a) := by
  constructor
  · intro entry mem
    exact absurd mem not_mem_nil
  · intro e h
    cases h
  · intro b h
    cases h
    exact holds

theorem fail {e : ε} (holds : fails e) : Ensures fails post (Charged.fail e) := by
  constructor
  · intro entry mem
    exact absurd mem not_mem_nil
  · intro e h
    cases h
    exact holds
  · intro a h
    cases h

theorem lift {x : Except ε α} (error : ∀ e, x = .error e → fails e) (ok : ∀ a, x = .ok a → post a 0) :
    Ensures fails post (Charged.lift x) := by
  constructor
  · intro entry mem
    exact absurd mem not_mem_nil
  · exact error
  · exact ok

theorem charge {post : Unit → κ → Prop} {k : κ} {refused : ε} (error : fails refused) (ok : post () k) :
    Ensures fails post (Charged.charge k refused) := by
  constructor
  · intro entry mem
    rw [mem_singleton.mp mem]
    exact error
  · intro e h
    cases h
  · intro a _
    simpa [total, Charged.charge] using ok

theorem bind {post' : β → κ → Prop} {x : Charged κ ε α} {f : α → Charged κ ε β} (first : Ensures fails post x)
    (next : ∀ a k, post a k → Ensures fails (fun b k' => post' b (k + k')) (f a)) : Ensures fails post' (x >>= f) := by
  change Ensures fails post' (andThen x f)
  unfold andThen
  cases result : x.result with
  | error e =>
    constructor
    · exact first.refused
    · intro e' h
      cases h
      exact first.error e result
    · intro b h
      cases h
  | ok a =>
    have rest := next a _ (first.ok a result)
    constructor
    · intro entry mem
      rcases mem_append.mp mem with before | after
      · exact first.refused entry before
      · exact rest.refused entry after
    · exact rest.error
    · intro b h
      have holds := rest.ok b h
      simpa [total] using holds

theorem mono {post' : α → κ → Prop} {x : Charged κ ε α} (run : Ensures fails post x)
    (weaker : ∀ a k, post a k → post' a k) : Ensures fails post' x :=
  ⟨run.refused, run.error, fun a h => weaker a _ (run.ok a h)⟩

theorem execute {x : Charged κ ε α} {τ : Type} {budget : Budget τ κ} [∀ t k, Decidable (budget.fits t k)] {t : τ}
    {e : ε} (run : Ensures fails post x) (h : x.execute budget t = .error e) : fails e := by
  have paying (charges : List (κ × ε)) (all : ∀ entry ∈ charges, fails entry.2) (t : τ) (e : ε)
      (h : pay budget t charges = .error e) : fails e := by
    induction charges generalizing t with
    | nil => cases h
    | cons entry rest ih =>
      simp only [pay] at h
      split at h
      · exact ih (fun entry mem => all entry (mem_cons_of_mem _ mem)) _ h
      · cases h
        exact all _ mem_cons_self
  unfold Charged.execute at h
  cases paid : pay budget t x.charges with
  | error e' =>
    rw [paid] at h
    cases h
    exact paying x.charges run.refused t e paid
  | ok t' =>
    rw [paid] at h
    cases result : x.result with
    | error e' =>
      rw [result] at h
      cases h
      exact run.error e result
    | ok a =>
      rw [result] at h
      cases h

end Ensures

end

end Charged

section

variable {ε ε' τ κ α β α' β' : Type} [AddMonoid κ] (budget : Budget τ κ) [∀ t k, Decidable (budget.fits t k)]
  (give : ε → Prop) (err : ε → ε' → Prop)

/-- The run `x` does what `y` does under the budget `t`, unless it gives up. -/
abbrev Runs (t : τ) (val : τ → α → β → Prop) (x : Except ε α) (y : Charged κ ε' β) : Prop :=
  Simulates give err (fun a p => val p.2 a p.1) x (y.execute budget t)

variable {budget give err} {t : τ}

namespace Runs

variable {val : τ → α → β → Prop} {x : Except ε α} {y : Charged κ ε' β}

theorem bind {val' : τ → α' → β' → Prop} {f : α → Except ε α'} {g : β → Charged κ ε' β'}
    (first : Runs budget give err t val x y) (next : ∀ t' a b, val t' a b → Runs budget give err t' val' (f a) (g b)) :
    Runs budget give err t val' (x >>= f) (y >>= g) := by
  unfold Runs
  rw [Charged.execute_bind]
  apply Simulates.bind first
  intro a p same
  exact next p.2 a p.1 same

theorem mono {val' : τ → α → β → Prop} (run : Runs budget give err t val x y)
    (weaker : ∀ t' a b, val t' a b → val' t' a b) : Runs budget give err t val' x y := by
  apply Simulates.mono run
  intro a p same
  exact weaker p.2 a p.1 same

theorem pure {a : α} {b : β} (same : val t a b) : Runs budget give err t val (.ok a) (Pure.pure b) := .ok same

theorem fail {e : ε} {e' : ε'} (same : err e e') : Runs budget give err t val (.error e) (Charged.fail e') := .error same

theorem charge {k : κ} {refused : ε'} {y : Unit → Charged κ ε' β}
    (affordable : budget.fits t k → Runs budget give err (budget.spend t k) val x (y ()))
    (exceeded : ¬ budget.fits t k → ∃ e, x = .error e ∧ err e refused) :
    Runs budget give err t val x (Charged.charge k refused >>= y) := by
  unfold Runs
  rw [Charged.execute_bind, Charged.execute_charge]
  by_cases fits : budget.fits t k
  · rw [if_pos fits]
    exact affordable fits
  · rw [if_neg fits]
    obtain ⟨e, rfl, same⟩ := exceeded fits
    exact .error same

theorem bind_left {val : α → Prop} {val' : τ → α' → β' → Prop} {y : Charged κ ε' β'} {f : α → Except ε α'}
    (first : (∃ e, x = .error e ∧ give e) ∨ ∃ a, x = .ok a ∧ val a)
    (next : ∀ a, val a → Runs budget give err t val' (f a) y) : Runs budget give err t val' (x >>= f) y :=
  Simulates.bind_left first next

theorem bind_right {val' : τ → α → β' → Prop} {g : β → Charged κ ε' β'} (first : Runs budget give err t val x y)
    (next : ∀ t' a b, val t' a b → Runs budget give err t' val' (.ok a) (g b)) :
    Runs budget give err t val' x (y >>= g) := by
  have both := Runs.bind (f := .ok) first next
  cases x with
  | error e => exact both
  | ok a => exact both

theorem ite {p q : Prop} [Decidable p] [Decidable q] {x' : Except ε α} {y' : Charged κ ε' β} (agree : p ↔ q)
    (yes : p → q → Runs budget give err t val x y) (no : ¬ p → ¬ q → Runs budget give err t val x' y') :
    Runs budget give err t val (if p then x else x') (if q then y else y') := by
  by_cases h : p
  · rw [if_pos h, if_pos (agree.mp h)]
    exact yes h (agree.mp h)
  · rw [if_neg h, if_neg (fun hq => h (agree.mpr hq))]
    exact no h (fun hq => h (agree.mpr hq))

end Runs

end

end Library
