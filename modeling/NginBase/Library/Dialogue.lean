import Mathlib

namespace Library

/-! Programs that put questions to their environment and go on with whatever it answers. -/

inductive Dialogue (Question : Type) (Answer : Question → Type) (ε α : Type) : Type
  | done (result : Except ε α)
  | ask (question : Question) (resume : Answer question → Dialogue Question Answer ε α)
  /-- The rest of a program that was only followed for so many steps. -/
  | pause

namespace Dialogue

variable {Question : Type} {Answer : Question → Type} {ε α β : Type}

def andThen : Dialogue Question Answer ε α → (α → Dialogue Question Answer ε β) → Dialogue Question Answer ε β
  | done (.ok a), f => f a
  | done (.error e), _ => done (.error e)
  | ask question resume, f => ask question fun answer => (resume answer).andThen f
  | pause, _ => pause

instance : Monad (Dialogue Question Answer ε) where
  pure a := done (.ok a)
  bind := andThen

def fail (e : ε) : Dialogue Question Answer ε α := done (.error e)

def query (question : Question) : Dialogue Question Answer ε (Answer question) := ask question pure

def attempt : Dialogue Question Answer ε α → Dialogue Question Answer ε (Except ε α)
  | done result => done (.ok result)
  | ask question resume => ask question fun answer => (resume answer).attempt
  | pause => pause

def onFailure (x : Dialogue Question Answer ε α) (repair : Dialogue Question Answer ε Unit) :
    Dialogue Question Answer ε α := do
  match ← x.attempt with
  | .ok a => pure a
  | .error e => do
    let _ ← repair.attempt
    fail e

def inl {Question' : Type} {Answer' : Question' → Type} :
    Dialogue Question Answer ε α → Dialogue (Question ⊕ Question') (Sum.elim Answer Answer') ε α
  | done result => done result
  | ask question resume => ask (.inl question) fun answer => (resume answer).inl
  | pause => pause

/-- Whatever is answered, every question is one of `may` and the program succeeds with `post` or fails. -/
def Asks (may : Question → Prop) : Dialogue Question Answer ε α → (α → Prop) → Prop
  | done (.ok a), post => post a
  | done (.error _), _ => True
  | ask question resume, post => may question ∧ ∀ answer, (resume answer).Asks may post
  | pause, _ => True

def Returns : Dialogue Question Answer ε α → α → Prop
  | done (.ok a), value => a = value
  | done (.error _), _ => False
  | ask _ resume, value => ∃ answer, (resume answer).Returns value
  | pause, _ => False

section

variable {may : Question → Prop} {post : α → Prop}

@[simp] theorem asks_pure (a : α) : Asks may (pure a : Dialogue Question Answer ε α) post ↔ post a := Iff.rfl

@[simp] theorem asks_fail (e : ε) : Asks may (fail e : Dialogue Question Answer ε α) post := True.intro

@[simp] theorem asks_pause : Asks may (pause : Dialogue Question Answer ε α) post := True.intro

@[simp] theorem asks_bind {post : β → Prop} (x : Dialogue Question Answer ε α) (f : α → Dialogue Question Answer ε β) :
    Asks may (x >>= f) post ↔ Asks may x fun a => Asks may (f a) post := by
  induction x with
  | done result =>
    cases result with
    | ok a => rfl
    | error e => rfl
  | ask question resume ih =>
    exact and_congr_right fun _ => forall_congr' ih
  | pause => rfl

variable {x : Dialogue Question Answer ε α}

theorem Asks.mono {post' : α → Prop} (h : x.Asks may post) (weaker : ∀ a, post a → post' a) : x.Asks may post' := by
  induction x with
  | done result =>
    cases result with
    | ok a => exact weaker a h
    | error e => exact True.intro
  | ask question resume ih => exact ⟨h.1, fun answer => ih answer (h.2 answer)⟩
  | pause => exact True.intro

section

variable (h : x.Asks may fun _ => True)

include h

theorem Asks.anyway (all : ∀ a, post a) : x.Asks may post := h.mono fun a _ => all a

theorem asks_attempt {post : Except ε α → Prop} (all : ∀ result, post result) : x.attempt.Asks may post := by
  induction x with
  | done result => exact all result
  | ask question resume ih => exact ⟨h.1, fun answer => ih answer (h.2 answer)⟩
  | pause => exact True.intro

theorem asks_onFailure {repair : Dialogue Question Answer ε Unit} (repairs : repair.Asks may fun _ => True)
    (all : ∀ a, post a) : (x.onFailure repair).Asks may post := by
  unfold onFailure
  rw [asks_bind]
  apply asks_attempt h
  intro result
  cases result with
  | ok a => exact all a
  | error e =>
    rw [asks_bind]
    apply asks_attempt repairs
    intro _
    exact asks_fail e

end

end

section

variable {value : α}

@[simp] theorem returns_pure (a : α) : (pure a : Dialogue Question Answer ε α).Returns value ↔ a = value := Iff.rfl

@[simp] theorem returns_bind {value : β} (x : Dialogue Question Answer ε α) (f : α → Dialogue Question Answer ε β) :
    (x >>= f).Returns value ↔ ∃ a, x.Returns a ∧ (f a).Returns value := by
  induction x with
  | done result =>
    cases result with
    | ok a => exact ⟨fun h => ⟨a, rfl, h⟩, fun ⟨_, same, h⟩ => same ▸ h⟩
    | error e => exact ⟨False.elim, fun ⟨_, impossible, _⟩ => impossible⟩
  | ask question resume ih =>
    constructor
    · intro ⟨answer, h⟩
      have ⟨a, first, second⟩ := (ih answer).mp h
      exact ⟨a, ⟨answer, first⟩, second⟩
    · intro ⟨a, ⟨answer, first⟩, second⟩
      exact ⟨answer, (ih answer).mpr ⟨a, first, second⟩⟩
  | pause => exact ⟨False.elim, fun ⟨_, impossible, _⟩ => impossible⟩

end

end Dialogue

end Library

namespace Library.Dialogue

/-! Programs in an environment whose state decides what it may answer. -/

variable {Question : Type} {Answer : Question → Type} {ε α β σ : Type}

inductive Step (answers : σ → (question : Question) → Answer question → σ → Prop) :
    Dialogue Question Answer ε α × σ → Dialogue Question Answer ε α × σ → Prop
  | answer {question : Question} {resume : Answer question → Dialogue Question Answer ε α} {answer : Answer question}
      {s s' : σ} (answered : answers s question answer s') : Step answers (ask question resume, s) (resume answer, s')

def Reaches (answers : σ → (question : Question) → Answer question → σ → Prop) :
    Dialogue Question Answer ε α × σ → Dialogue Question Answer ε α × σ → Prop :=
  Relation.ReflTransGen (Step answers)

theorem reaches_answer {answers : σ → (question : Question) → Answer question → σ → Prop} {question : Question}
    {resume : Answer question → Dialogue Question Answer ε α} {s : σ} {target : Dialogue Question Answer ε α × σ}
    (answer : Answer question) (s' : σ) (answered : answers s question answer s')
    (rest : Reaches answers (resume answer, s') target) : Reaches answers (ask question resume, s) target :=
  .head (.answer answered) rest

/-- Whatever is answered, the program ends with `post` or fails with `failed`, and every state on the way is one of
    `keeps`. -/
def Guarantees (answers : σ → (question : Question) → Answer question → σ → Prop) (keeps : σ → Prop) :
    Dialogue Question Answer ε α → σ → (α → σ → Prop) → (ε → σ → Prop) → Prop
  | done (.ok a), s, post, _ => keeps s ∧ post a s
  | done (.error e), s, _, failed => keeps s ∧ failed e s
  | ask question resume, s, post, failed =>
    keeps s ∧ ∀ answer s', answers s question answer s' → (resume answer).Guarantees answers keeps s' post failed
  | pause, _, _, _ => False

section

variable {answers : σ → (question : Question) → Answer question → σ → Prop} {keeps : σ → Prop} {s : σ}
  {post : α → σ → Prop} {failed : ε → σ → Prop}

variable {x : Dialogue Question Answer ε α}

theorem Guarantees.keeps_start (h : x.Guarantees answers keeps s post failed) : keeps s := by
  cases x with
  | done result =>
    cases result with
    | ok a => exact h.1
    | error e => exact h.1
  | ask question resume => exact h.1
  | pause => exact h.elim

theorem guarantees_bind {post : β → σ → Prop} {f : α → Dialogue Question Answer ε β}
    (h : x.Guarantees answers keeps s (fun a s' => (f a).Guarantees answers keeps s' post failed) failed) :
    (x >>= f).Guarantees answers keeps s post failed := by
  induction x generalizing s with
  | done result =>
    cases result with
    | ok a => exact h.2
    | error e => exact h
  | ask question resume ih => exact ⟨h.1, fun answer s' answered => ih answer (h.2 answer s' answered)⟩
  | pause => exact h

theorem Guarantees.mono {post' : α → σ → Prop} {failed' : ε → σ → Prop} (h : x.Guarantees answers keeps s post failed)
    (good : ∀ a s', post a s' → post' a s') (bad : ∀ e s', failed e s' → failed' e s') :
    x.Guarantees answers keeps s post' failed' := by
  induction x generalizing s with
  | done result =>
    cases result with
    | ok a => exact ⟨h.1, good a s h.2⟩
    | error e => exact ⟨h.1, bad e s h.2⟩
  | ask question resume ih => exact ⟨h.1, fun answer s' answered => ih answer (h.2 answer s' answered)⟩
  | pause => exact h

theorem Guarantees.kept (h : x.Guarantees answers keeps s post failed) :
    x.Guarantees answers keeps s (fun a s' => keeps s' ∧ post a s') fun e s' => keeps s' ∧ failed e s' := by
  induction x generalizing s with
  | done result =>
    cases result with
    | ok a => exact ⟨h.1, h⟩
    | error e => exact ⟨h.1, h⟩
  | ask question resume ih => exact ⟨h.1, fun answer s' answered => ih answer (h.2 answer s' answered)⟩
  | pause => exact h

theorem Guarantees.weaken (h : x.Guarantees answers keeps s (fun _ _ => False) failed) :
    x.Guarantees answers keeps s post failed := h.mono (fun _ _ impossible => impossible.elim) fun _ _ bad => bad

theorem Guarantees.keeping {keeps' : σ → Prop} (h : x.Guarantees answers keeps s post failed)
    (weaker : ∀ s, keeps s → keeps' s) : x.Guarantees answers keeps' s post failed := by
  induction x generalizing s with
  | done result =>
    cases result with
    | ok a => exact ⟨weaker s h.1, h.2⟩
    | error e => exact ⟨weaker s h.1, h.2⟩
  | ask question resume ih => exact ⟨weaker s h.1, fun answer s' answered => ih answer (h.2 answer s' answered)⟩
  | pause => exact h

theorem guarantees_attempt {post : Except ε α → σ → Prop}
    (h : x.Guarantees answers keeps s (fun a => post (.ok a)) fun e => post (.error e)) :
    x.attempt.Guarantees answers keeps s post failed := by
  induction x generalizing s with
  | done result =>
    cases result with
    | ok a => exact h
    | error e => exact h
  | ask question resume ih => exact ⟨h.1, fun answer s' answered => ih answer (h.2 answer s' answered)⟩
  | pause => exact h

section

variable (h : x.Guarantees answers keeps s post failed)

include h

theorem Guarantees.reached {y : Dialogue Question Answer ε α} {s' : σ} (run : Reaches answers (x, s) (y, s')) :
    y.Guarantees answers keeps s' post failed := by
  suffices all : ∀ target, Reaches answers (x, s) target → target.1.Guarantees answers keeps target.2 post failed from
    all (y, s') run
  intro target run
  induction run with
  | refl => exact h
  | tail _ step ih =>
    cases step with
    | answer answered => exact ih.2 _ _ answered

theorem Guarantees.keeps_all {y : Dialogue Question Answer ε α} {s' : σ} (run : Reaches answers (x, s) (y, s')) :
    keeps s' := (h.reached run).keeps_start

theorem Guarantees.unpaused {s' : σ} : ¬Reaches answers (x, s) (pause, s') := fun run => h.reached run

theorem Guarantees.returned {a : α} {s' : σ} (run : Reaches answers (x, s) (done (.ok a), s')) : post a s' :=
  (h.reached run).2

theorem Guarantees.threw {e : ε} {s' : σ} (run : Reaches answers (x, s) (done (.error e), s')) : failed e s' :=
  (h.reached run).2

end

end

section

variable {answers : σ → (question : Question) → Answer question → σ → Prop} {s : σ} {post : α → σ → Prop}
  {failed : ε → σ → Prop}

/-- Whatever is answered, a run that comes to its end has a value and a state of `post`, or a failure and a state of
    `failed`. -/
def Leaves (answers : σ → (question : Question) → Answer question → σ → Prop) :
    Dialogue Question Answer ε α → σ → (α → σ → Prop) → (ε → σ → Prop) → Prop
  | done (.ok a), s, post, _ => post a s
  | done (.error e), s, _, failed => failed e s
  | ask question resume, s, post, failed =>
    ∀ answer s', answers s question answer s' → (resume answer).Leaves answers s' post failed
  | pause, _, _, _ => True

@[simp] theorem leaves_pure (a : α) :
    Leaves answers (pure a : Dialogue Question Answer ε α) s post failed ↔ post a s := Iff.rfl

@[simp] theorem leaves_pause : Leaves answers (pause : Dialogue Question Answer ε α) s post failed := True.intro

variable (x : Dialogue Question Answer ε α)

@[simp] theorem leaves_bind {post : β → σ → Prop} (f : α → Dialogue Question Answer ε β) :
    Leaves answers (x >>= f) s post failed ↔
      Leaves answers x s (fun a s' => Leaves answers (f a) s' post failed) failed := by
  induction x generalizing s with
  | done result =>
    cases result with
    | ok a => rfl
    | error e => rfl
  | ask question resume ih => exact forall_congr' fun answer => forall_congr' fun s' => imp_congr_right fun _ => ih answer
  | pause => rfl

@[simp] theorem leaves_attempt {post : Except ε α → σ → Prop} : Leaves answers x.attempt s post failed ↔
      Leaves answers x s (fun a => post (.ok a)) fun e => post (.error e) := by
  induction x generalizing s with
  | done result =>
    cases result with
    | ok a => rfl
    | error e => rfl
  | ask question resume ih => exact forall_congr' fun answer => forall_congr' fun s' => imp_congr_right fun _ => ih answer
  | pause => rfl

theorem Leaves.mono {x : Dialogue Question Answer ε α} {post' : α → σ → Prop} {failed' : ε → σ → Prop}
    (h : x.Leaves answers s post failed) (good : ∀ a s', post a s' → post' a s')
    (bad : ∀ e s', failed e s' → failed' e s') : x.Leaves answers s post' failed' := by
  induction x generalizing s with
  | done result =>
    cases result with
    | ok a => exact good a s h
    | error e => exact bad e s h
  | ask question resume ih => exact fun answer s' answered => ih answer (h answer s' answered)
  | pause => exact True.intro

theorem Leaves.reached {x y : Dialogue Question Answer ε α} {s' : σ} (h : x.Leaves answers s post failed)
    (run : Reaches answers (x, s) (y, s')) : y.Leaves answers s' post failed := by
  suffices all : ∀ target, Reaches answers (x, s) target → target.1.Leaves answers target.2 post failed from
    all (y, s') run
  intro target run
  induction run with
  | refl => exact h
  | tail _ step ih =>
    cases step with
    | answer answered => exact ih _ _ answered

theorem leaves_iff : x.Leaves answers s post failed ↔
      (∀ a s', Reaches answers (x, s) (done (.ok a), s') → post a s') ∧
        ∀ e s', Reaches answers (x, s) (done (.error e), s') → failed e s' := by
  constructor
  · intro h
    exact ⟨fun _ _ run => h.reached run, fun _ _ run => h.reached run⟩
  intro ⟨good, bad⟩
  induction x generalizing s with
  | done result =>
    cases result with
    | ok a => exact good a s .refl
    | error e => exact bad e s .refl
  | ask question resume ih =>
    intro answer s' answered
    apply ih answer
    · intro a s'' run
      exact good a s'' (reaches_answer answer s' answered run)
    · intro e s'' run
      exact bad e s'' (reaches_answer answer s' answered run)
  | pause => exact True.intro

end

section

variable {Question' τ : Type} {Answer' : Question' → Type}

def both (answers : σ → (question : Question) → Answer question → σ → Prop)
    (answers' : τ → (question : Question') → Answer' question → τ → Prop) (s : σ × τ) :
    (question : Question ⊕ Question') → Sum.elim Answer Answer' question → σ × τ → Prop
  | .inl question, answer, s' => answers s.1 question answer s'.1 ∧ s'.2 = s.2
  | .inr question, answer, s' => s'.1 = s.1 ∧ answers' s.2 question answer s'.2

theorem guarantees_inl {answers : σ → (question : Question) → Answer question → σ → Prop}
    {answers' : τ → (question : Question') → Answer' question → τ → Prop} {x : Dialogue Question Answer ε α} {s : σ} {t : τ}
    {keeps : σ × τ → Prop} {post : α → σ → Prop} {failed : ε → σ → Prop}
    (h : x.Guarantees answers (fun _ => True) s post failed) (kept : ∀ s, keeps (s, t)) :
    (x.inl : Dialogue (Question ⊕ Question') (Sum.elim Answer Answer') ε α).Guarantees (both answers answers') keeps (s, t)
      (fun a s' => post a s'.1 ∧ s'.2 = t) fun e s' => failed e s'.1 ∧ s'.2 = t := by
  induction x generalizing s with
  | done result =>
    cases result with
    | ok a => exact ⟨kept s, h.2, rfl⟩
    | error e => exact ⟨kept s, h.2, rfl⟩
  | ask question resume ih =>
    refine ⟨kept s, ?_⟩
    rintro answer ⟨s', t'⟩ ⟨answered, (rfl : t' = t)⟩
    exact ih answer (h.2 answer s' answered)
  | pause => exact h

end

end Library.Dialogue
