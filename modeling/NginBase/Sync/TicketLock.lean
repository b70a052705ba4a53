import NginBase.Library.Interleaving

namespace NginBase.Sync.TicketLock

open Library.Interleaving Function List Option

/-! `TicketLock` with the accesses to its two counters as steps. -/

/-- Where a thread is. A `trying` thread has loaded `m_nowServing` in `TryLock`, and an `exchanging` one `m_nextTicket` as well; the lock
    had been acquired `before` times when the call started. -/
inductive Phase
  | idle
  | waiting (ticket : Nat)
  | trying (current before : Nat)
  | exchanging (current before : Nat)
  | holding
  deriving DecidableEq

/-- How often the lock had been acquired at the start of a `TryLock` that has not returned. -/
def Phase.before? : Phase → Option Nat
  | .trying _ before => some before
  | .exchanging _ before => some before
  | _ => none

/-- `taken` are the threads in the order in which they took a ticket, and `acquired` in the order in which they acquired the lock. -/
structure State (threads : Nat) where
  nextTicket : Nat := 0
  nowServing : Nat := 0
  phases : Fin threads → Phase := fun _ => .idle
  taken : List (Fin threads) := []
  acquired : List (Fin threads) := []

/-- What a thread does next. A thread that is idle can start a call. -/
inductive Action (threads : Nat)
  | lock (t : Fin threads)
  | tryLock (t : Fin threads)
  | unlock (t : Fin threads)
  /-- The next access of a call. -/
  | access (t : Fin threads)

namespace State

variable {threads : Nat}

def increment (counter : Nat) : Nat := (counter + 1) % 2 ^ 32

def setPhase (s : State threads) (t : Fin threads) (phase : Phase) : State threads :=
  { s with phases := update s.phases t phase }

def act (s : State threads) : Action threads → Option (State threads)
  | .lock t =>
    if s.phases t = .idle then
      some ({ s with nextTicket := increment s.nextTicket, taken := s.taken ++ [t] }.setPhase t (.waiting s.nextTicket))
    else none
  | .tryLock t => if s.phases t = .idle then some (s.setPhase t (.trying s.nowServing s.acquired.length)) else none
  | .unlock t =>
    if s.phases t = .holding then some ({ s with nowServing := increment s.nowServing }.setPhase t .idle) else none
  | .access t =>
    match s.phases t with
    | .waiting ticket => some (if s.nowServing = ticket then { s with acquired := s.acquired ++ [t] }.setPhase t .holding else s)
    | .trying current before => some (s.setPhase t (if s.nextTicket = current then .exchanging current before else .idle))
    | .exchanging current _ =>
      some (if s.nextTicket = current then
          { s with nextTicket := increment current, taken := s.taken ++ [t], acquired := s.acquired ++ [t] }.setPhase t .holding
        else s.setPhase t .idle)
    | _ => none

/-- At most one thread holds the lock, threads acquire it in the order of their tickets, and the last step of a `TryLock` acquires it
    only if no thread held it or had a ticket. -/
structure Fair (s : State threads) : Prop where
  exclusive : ∀ t t', s.phases t = .holding → s.phases t' = .holding → t = t'
  ordered : s.acquired <+: s.taken
  free : ∀ t current before s', s.phases t = .exchanging current before → s.act (.access t) = some s' → s'.phases t = .holding →
    ∀ t', s.phases t' ≠ .holding ∧ ∀ ticket, s.phases t' ≠ .waiting ticket

/-- During each call of `TryLock` the lock has been acquired less than `bound` times. -/
def Brief (bound : Nat) (s : State threads) : Prop :=
  ∀ t, ∀ before ∈ (s.phases t).before?, s.acquired.length < before + bound

instance (bound : Nat) (s : State threads) : Decidable (s.Brief bound) :=
  inferInstanceAs (Decidable (∀ t, ∀ before ∈ (s.phases t).before?, s.acquired.length < before + bound))

/-- What a thread's phase says when the `queue` has the tickets that follow those of the threads that are `done`. -/
def Place (done queue acquired : List (Fin threads)) (t : Fin threads) : Phase → Prop
  | .idle => t ∉ queue
  | .waiting ticket => ∃ i, queue[i]? = some t ∧ ticket = (done.length + i) % 2 ^ 32
  | .trying current before | .exchanging current before =>
    t ∉ queue ∧ ∃ first, current = first % 2 ^ 32 ∧ first ≤ done.length ∧ before ≤ first + 1
  | .holding => queue.head? = some t ∧ acquired = done ++ [t]

structure Queued (s : State threads) (done queue : List (Fin threads)) : Prop where
  taken : s.taken = done ++ queue
  nextTicket : s.nextTicket = (done ++ queue).length % 2 ^ 32
  nowServing : s.nowServing = done.length % 2 ^ 32
  distinct : queue.Nodup
  places : ∀ t, Place done queue s.acquired t (s.phases t)
  settled : s.acquired = done ∨ ∃ t, s.phases t = .holding

section

variable {s : State threads} {t t' : Fin threads} {phase : Phase}

@[simp] theorem setPhase_self : (s.setPhase t phase).phases t = phase := update_self ..

theorem setPhase_other (other : t' ≠ t) : (s.setPhase t phase).phases t' = s.phases t' := update_of_ne other ..

namespace Queued

variable {done queue done' queue' : List (Fin threads)}

section

variable (queued : s.Queued done queue)

include queued

theorem head_holds (holding : s.phases t = .holding) : queue.head? = some t ∧ s.acquired = done ++ [t] := by
  have place := queued.places t
  rwa [holding] at place

theorem acquired_bounds : done.length ≤ s.acquired.length ∧ s.acquired.length ≤ done.length + 1 := by
  rcases queued.settled with same | ⟨t, holding⟩
  · simp [same]
  · simp [(queued.head_holds holding).2]

theorem place (here : s.phases t = phase) : Place done queue s.acquired t phase :=
  here ▸ queued.places t

/-- The places of a state in which only the thread `t` has moved. -/
theorem places_update {s' : State threads} (moved : s'.phases = update s.phases t phase)
    (here : Place done' queue' s'.acquired t phase)
    (others : ∀ t' phase, t' ≠ t → Place done queue s.acquired t' phase → Place done' queue' s'.acquired t' phase)
    (t' : Fin threads) : Place done' queue' s'.acquired t' (s'.phases t') := by
  rw [moved]
  by_cases same : t' = t
  · subst same
    rw [update_self]
    exact here
  · rw [update_of_ne same]
    exact others t' _ same (queued.places t')

theorem move (free : t ∉ queue) (here : Place done queue s.acquired t phase) : (s.setPhase t phase).Queued done queue where
  taken := queued.taken
  nextTicket := queued.nextTicket
  nowServing := queued.nowServing
  distinct := queued.distinct
  places := queued.places_update rfl here fun _ _ _ place => place
  settled := by
    apply queued.settled.imp_right
    rintro ⟨t', holding⟩
    have other : t' ≠ t := by
      rintro rfl
      exact free (mem_of_mem_head? (queued.place holding).1)
    exact ⟨t', (setPhase_other other).trans holding⟩

theorem lock (idle : s.phases t = .idle) :
    ({ s with nextTicket := increment s.nextTicket, taken := s.taken ++ [t] }.setPhase t (.waiting s.nextTicket)).Queued done
      (queue ++ [t]) where
  taken := by simp [setPhase, queued.taken]
  nextTicket := by simp [setPhase, increment, queued.nextTicket, Nat.add_assoc]
  nowServing := queued.nowServing
  distinct := by
    have free : t ∉ queue := queued.place idle
    simpa [nodup_append, queued.distinct] using fun other mem => ne_of_mem_of_not_mem mem free
  places := by
    apply queued.places_update rfl
    · exact ⟨queue.length, by simp, by rw [queued.nextTicket, length_append]⟩
    · intro t' phase other place
      cases phase with
      | idle => simpa [Place, other] using place
      | waiting ticket =>
        obtain ⟨i, found, same⟩ := place
        exact ⟨i, by rwa [List.getElem?_append_left (List.getElem?_eq_some_iff.mp found).1], same⟩
      | trying current before => simpa [Place, other] using place
      | exchanging current before => simpa [Place, other] using place
      | holding => exact ⟨by simp [place.1], place.2⟩
  settled := by
    apply queued.settled.imp_right
    rintro ⟨t', holding⟩
    have other : t' ≠ t := by
      rintro rfl
      cases idle.symm.trans holding
    exact ⟨t', (setPhase_other other).trans holding⟩

theorem unlock (holding : s.phases t = .holding) :
    ∃ rest, ({ s with nowServing := increment s.nowServing }.setPhase t .idle).Queued (done ++ [t]) rest := by
  obtain ⟨head, acquired⟩ := queued.place holding
  obtain ⟨rest, rfl⟩ := head?_eq_some_iff.mp head
  have distinct := nodup_cons.mp queued.distinct
  refine ⟨rest, ?_, ?_, ?_, distinct.2, queued.places_update rfl distinct.1 ?_, .inl acquired⟩
  · simp [setPhase, queued.taken]
  · simp [setPhase, queued.nextTicket]
  · simp [setPhase, increment, queued.nowServing]
  · intro t' phase other place
    cases phase with
    | idle => exact fun mem => place (mem_cons_of_mem _ mem)
    | waiting ticket =>
      obtain ⟨i, found, same⟩ := place
      cases i with
      | zero => exact absurd (some.inj found).symm other
      | succ i => exact ⟨i, found, by rw [length_append, length_singleton]; congr 1; omega⟩
    | trying current before =>
      obtain ⟨outside, first, same, low, earlier⟩ := place
      exact ⟨fun mem => outside (mem_cons_of_mem _ mem), first, same, by simp; omega, earlier⟩
    | exchanging current before =>
      obtain ⟨outside, first, same, low, earlier⟩ := place
      exact ⟨fun mem => outside (mem_cons_of_mem _ mem), first, same, by simp; omega, earlier⟩
    | holding => exact absurd (some.inj place.1).symm other

theorem acquire (small : threads ≤ 2 ^ 32) (waiting : s.phases t = .waiting s.nowServing) :
    ({ s with acquired := s.acquired ++ [t] }.setPhase t .holding).Queued done queue := by
  obtain ⟨i, found, same⟩ := queued.place waiting
  have inside := (List.getElem?_eq_some_iff.mp found).1
  have short : queue.length ≤ threads := by simpa using queued.distinct.length_le_card
  rw [queued.nowServing] at same
  obtain rfl : i = 0 := by omega
  have head : queue.head? = some t := by rwa [List.head?_eq_getElem?]
  have apart : ∀ t', s.phases t' ≠ .holding := by
    intro t' holding
    obtain rfl := Option.some.inj (head.symm.trans (queued.place holding).1)
    cases waiting.symm.trans holding
  have acquired : s.acquired = done := queued.settled.resolve_right fun ⟨t', holding⟩ => apart t' holding
  refine ⟨queued.taken, queued.nextTicket, queued.nowServing, queued.distinct, ?_, .inr ⟨t, setPhase_self⟩⟩
  apply queued.places_update rfl
  · exact ⟨head, by rw [← acquired]; rfl⟩
  · intro t' phase _ place
    cases phase with
    | holding =>
      have same := place.2
      rw [acquired] at same
      simp at same
    | _ => exact place

theorem free (small : threads ≤ 2 ^ 32) (brief : s.Brief (2 ^ 32 - threads)) {current before : Nat}
    (exchanging : s.phases t = .exchanging current before) (found : s.nextTicket = current) : queue = [] := by
  obtain ⟨outside, first, same, low, earlier⟩ := queued.place exchanging
  have soon := brief t before (by rw [exchanging]; rfl)
  have short : queue.length + 1 ≤ threads := by
    simpa using (nodup_cons.mpr ⟨outside, queued.distinct⟩).length_le_card
  have bounds := queued.acquired_bounds
  have length := queued.nextTicket
  rw [length_append] at length
  apply eq_nil_of_length_eq_zero
  omega

end

theorem exchange (queued : s.Queued done []) {current : Nat} (found : s.nextTicket = current) :
    ({ s with nextTicket := increment current, taken := s.taken ++ [t], acquired := s.acquired ++ [t] }.setPhase t .holding).Queued done
      [t] := by
  have acquired : s.acquired = done := queued.settled.resolve_right fun ⟨t', holding⟩ => by cases (queued.place holding).1
  refine ⟨?_, ?_, queued.nowServing, nodup_singleton t, ?_, .inr ⟨t, setPhase_self⟩⟩
  · simp [setPhase, queued.taken]
  · simp [setPhase, increment, ← found, queued.nextTicket]
  · apply queued.places_update rfl
    · exact ⟨rfl, by rw [← acquired]; rfl⟩
    · intro t' phase other place
      cases phase with
      | idle => simpa [Place] using other
      | waiting ticket =>
        obtain ⟨i, found, _⟩ := place
        cases found
      | trying current before => simpa [Place, other] using place
      | exchanging current before => simpa [Place, other] using place
      | holding => cases place.1

end Queued

def Inv (s : State threads) : Prop := ∃ done queue, s.Queued done queue

section

variable (inv : s.Inv) (small : threads ≤ 2 ^ 32) (brief : s.Brief (2 ^ 32 - threads))

include inv small brief

theorem Inv.act {s' : State threads} {action : Action threads} (acted : s.act action = some s') : s'.Inv := by
  obtain ⟨done, queue, queued⟩ := inv
  cases action with
  | lock t =>
    simp only [State.act, ite_none_right_eq_some, some.injEq] at acted
    obtain ⟨idle, rfl⟩ := acted
    exact ⟨_, _, queued.lock idle⟩
  | tryLock t =>
    simp only [State.act, ite_none_right_eq_some, some.injEq] at acted
    obtain ⟨idle, rfl⟩ := acted
    exact ⟨_, _, queued.move (queued.place idle)
      ⟨queued.place idle, done.length, queued.nowServing, Nat.le_refl _, queued.acquired_bounds.2⟩⟩
  | unlock t =>
    simp only [State.act, ite_none_right_eq_some, some.injEq] at acted
    obtain ⟨holding, rfl⟩ := acted
    exact ⟨_, queued.unlock holding⟩
  | access t =>
    simp only [State.act] at acted
    cases here : s.phases t with
    | idle => simp [here] at acted
    | holding => simp [here] at acted
    | waiting ticket =>
      simp only [here, some.injEq] at acted
      subst acted
      split
      case isTrue served =>
        subst served
        exact ⟨_, _, queued.acquire small here⟩
      case isFalse => exact ⟨_, _, queued⟩
    | trying current before =>
      simp only [here, some.injEq] at acted
      subst acted
      have place := queued.place here
      split
      case isTrue => exact ⟨_, _, queued.move place.1 place⟩
      case isFalse => exact ⟨_, _, queued.move place.1 place.1⟩
    | exchanging current before =>
      simp only [here, some.injEq] at acted
      subst acted
      split
      case isTrue found =>
        obtain rfl := queued.free small brief here found
        exact ⟨_, _, queued.exchange found⟩
      case isFalse => exact ⟨_, _, queued.move (queued.place here).1 (queued.place here).1⟩

theorem Inv.fair : s.Fair := by
  obtain ⟨done, queue, queued⟩ := inv
  constructor
  · intro t t' holding holding'
    exact some.inj ((queued.place holding).1.symm.trans (queued.place holding').1)
  · rw [queued.taken]
    rcases queued.settled with same | ⟨t, holding⟩
    · exact same ▸ prefix_append _ _
    · obtain ⟨head, same⟩ := queued.place holding
      obtain ⟨rest, rfl⟩ := head?_eq_some_iff.mp head
      exact same ▸ ⟨rest, by simp⟩
  · intro t current before s' exchanging acted holding t'
    simp only [State.act, exchanging, some.injEq] at acted
    split at acted
    case isTrue found =>
      obtain rfl := queued.free small brief exchanging found
      constructor
      · intro holds
        cases (queued.place holds).1
      · intro ticket waits
        obtain ⟨i, found, _⟩ := queued.place waits
        cases found
    case isFalse =>
      subst acted
      cases setPhase_self.symm.trans holding

end

end

theorem init_inv : ({} : State threads).Inv :=
  ⟨[], [], rfl, rfl, rfl, nodup_nil, fun _ => not_mem_nil, .inl rfl⟩

/-- With `threads` threads the lock is exclusive and fair if it is acquired less than `2 ^ 32 - threads` times during each call of
    `TryLock`. -/
theorem ticketLock_fair {actions : List (Action threads)} {s : State threads} (small : threads < 2 ^ 32)
    (brief : Along act (fun s _ => s.Brief (2 ^ 32 - threads)) {} actions) (ran : run act {} actions = some s)
    (last : s.Brief (2 ^ 32 - threads)) : s.Fair := by
  apply Inv.fair _ (Nat.le_of_lt small) last
  exact keeps (fun s action s' inv brief acted => inv.act (Nat.le_of_lt small) brief acted) brief ran init_inv

def contended : List (Action 2) := [.lock 0, .tryLock 1, .access 0, .access 1, .unlock 0, .tryLock 1, .access 1, .access 1]

theorem ticketLock_fair_contended : ∃ s, run act {} contended = some s ∧ s.Fair ∧ s.phases 1 = .holding :=
  ⟨_, rfl, ticketLock_fair (by decide) (by decide : Along act (fun s _ => s.Brief (2 ^ 32 - 2)) {} contended) rfl (by decide), rfl⟩

section

def both (p q : Phase) : Fin 2 → Phase
  | 0 => p
  | 1 => q

/-- The thread 1 has called `TryLock` when the thread 0 held the lock for the first time. -/
def passing (p q : Phase) (taken acquired served : Nat) : State 2 where
  nextTicket := taken % 2 ^ 32
  nowServing := served % 2 ^ 32
  phases := both p q
  taken := replicate taken 0
  acquired := replicate acquired 0

variable {p q : Phase} {k : Nat}

@[simp] theorem both_zero (p' : Phase) : update (both p q) 0 p' = both p' q := by
  funext t
  match t with
  | 0 => rfl
  | 1 => rfl

@[simp] theorem both_one (q' : Phase) : update (both p q) 1 q' = both p q' := by
  funext t
  match t with
  | 0 => rfl
  | 1 => rfl

theorem passing_lock : (passing .idle q k k k).act (.lock 0) = some (passing (.waiting (k % 2 ^ 32)) q (k + 1) k k) := by
  simp [act, passing, setPhase, increment, both, replicate_succ']

theorem passing_acquires :
    (passing (.waiting (k % 2 ^ 32)) q (k + 1) k k).act (.access 0) = some (passing .holding q (k + 1) (k + 1) k) := by
  simp [act, passing, setPhase, both, replicate_succ']

theorem passing_unlock : (passing .holding q (k + 1) (k + 1) k).act (.unlock 0) = some (passing .idle q (k + 1) (k + 1) (k + 1)) := by
  simp [act, passing, setPhase, increment, both]

/-- The thread 0 takes `n` further turns and then keeps the lock; the thread 1 goes on. -/
def turns : Nat → List (Action 2)
  | 0 => [.lock 0, .access 0, .access 1, .access 1]
  | n + 1 => .lock 0 :: .access 0 :: .unlock 0 :: turns n

def Overtakes (s : State 2) (actions : List (Action 2)) : Prop :=
  Along act (fun s _ => s.Brief (2 ^ 32)) s actions ∧ ∃ s', run act s actions = some s' ∧ s'.Brief (2 ^ 32) ∧
    s'.phases 0 = .holding ∧ s'.phases 1 = .holding

theorem Overtakes.cons {s s' : State 2} {action : Action 2} {actions : List (Action 2)} (brief : s.Brief (2 ^ 32))
    (acted : s.act action = some s') (later : s'.Overtakes actions) : s.Overtakes (action :: actions) := by
  refine ⟨⟨brief, fun t same => ?_⟩, ?_⟩
  · obtain rfl := some.inj (acted.symm.trans same)
    exact later.1
  · rw [run, acted]
    exact later.2

theorem passing_brief {taken acquired served : Nat} (quiet : p.before? = none)
    (since : q.before? = none ∨ ∃ before, q.before? = some before ∧ acquired < before + 2 ^ 32) :
    (passing p q taken acquired served).Brief (2 ^ 32) := by
  intro t earlier found
  match t with
  | 0 => cases quiet.symm.trans found
  | 1 =>
    rcases since with none_ | ⟨before, some_, soon⟩
    · cases none_.symm.trans found
    · obtain rfl := some.inj (some_.symm.trans found)
      simpa [passing] using soon

theorem turns_overtake (n : Nat) (many : n + k + 1 = 2 ^ 32) : (passing .idle (.trying 0 1) k k k).Overtakes (turns n) := by
  induction n generalizing k with
  | zero =>
    have wraps : (k + 1) % 4294967296 = 0 := by omega
    refine .cons (passing_brief rfl (.inr ⟨1, rfl, by omega⟩)) passing_lock ?_
    refine .cons (passing_brief rfl (.inr ⟨1, rfl, by omega⟩)) passing_acquires ?_
    have reads : (passing .holding (.trying 0 1) (k + 1) (k + 1) k).act (.access 1) =
        some (passing .holding (.exchanging 0 1) (k + 1) (k + 1) k) := by
      simp [act, passing, setPhase, both, wraps]
    refine .cons (passing_brief rfl (.inr ⟨1, rfl, by omega⟩)) reads ?_
    refine .cons (passing_brief rfl (.inr ⟨1, rfl, by omega⟩)) rfl ⟨trivial, _, rfl, ?_⟩
    simp [passing, setPhase, both, wraps, Brief, Phase.before?]
  | succ n later =>
    refine .cons (passing_brief rfl (.inr ⟨1, rfl, by omega⟩)) passing_lock ?_
    refine .cons (passing_brief rfl (.inr ⟨1, rfl, by omega⟩)) passing_acquires ?_
    exact .cons (passing_brief rfl (.inr ⟨1, rfl, by omega⟩)) passing_unlock (later (by omega))

theorem ticketLock_overtaken : ¬∀ (threads : Nat) (actions : List (Action threads)) (s : State threads), threads < 2 ^ 32 →
    Along act (fun s _ => s.Brief (2 ^ 32)) {} actions → run act {} actions = some s → s.Brief (2 ^ 32) → s.Fair := by
  intro fair
  have start : ({} : State 2) = passing .idle .idle 0 0 0 := by
    have phases : (fun _ => .idle) = both .idle .idle := funext fun t => match t with
      | 0 => rfl
      | 1 => rfl
    simp [passing, phases]
  have overtakes : ({} : State 2).Overtakes (.lock 0 :: .access 0 :: .tryLock 1 :: .unlock 0 :: turns (2 ^ 32 - 2)) := by
    rw [start]
    refine .cons (passing_brief rfl (.inl rfl)) passing_lock (.cons (passing_brief rfl (.inl rfl)) passing_acquires ?_)
    have calls : (passing .holding .idle 1 1 0).act (.tryLock 1) = some (passing .holding (.trying 0 1) 1 1 0) := by
      simp [act, passing, setPhase, both]
    refine .cons (passing_brief rfl (.inl rfl)) calls ?_
    exact .cons (passing_brief rfl (.inr ⟨1, rfl, by decide⟩)) passing_unlock (turns_overtake _ rfl)
  obtain ⟨along, s, ran, last, first, second⟩ := overtakes
  exact absurd ((fair 2 _ s (by decide) along ran last).exclusive 0 1 first second) (by decide)

end

end State

end NginBase.Sync.TicketLock
