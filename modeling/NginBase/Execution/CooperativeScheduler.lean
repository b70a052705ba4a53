import Mathlib

namespace NginBase.Execution.CooperativeScheduler

open List

section

variable {α : Type} {comp : α → α → Prop}

def IsHeap (comp : α → α → Prop) (l : List α) : Prop := ∀ i (inside : i < l.length), ¬comp (l.get ⟨(i - 1) / 2, by omega⟩) l[i]

/-- What `std::push_heap` and `std::pop_heap` are specified to do. -/
structure HeapAlgorithms (comp : α → α → Prop) where
  pushHeap : List α → List α
  popHeap : List α → List α
  pushes : ∀ l a, IsHeap comp l → (pushHeap (l ++ [a])).Perm (l ++ [a]) ∧ IsHeap comp (pushHeap (l ++ [a]))
  pops : ∀ l a, IsHeap comp (a :: l) → ∃ rest, popHeap (a :: l) = rest ++ [a] ∧ rest.Perm l ∧ IsHeap comp rest

theorem IsHeap.front {l : List α} {a : α} (heap : IsHeap comp (a :: l)) (trans : ∀ a b c, ¬comp a b → ¬comp b c → ¬comp a c) :
    ∀ b ∈ a :: l, ¬comp a b := by
  have reach : ∀ i (inside : i < (a :: l).length), ¬comp a (a :: l)[i] := by
    intro i
    induction i using Nat.strongRecOn with
    | ind i earlier =>
      intro inside
      by_cases root : i = 0
      · subst root
        exact heap 0 inside
      · exact trans _ _ _ (earlier ((i - 1) / 2) (by omega) (by omega)) (heap i inside)
  intro b mem
  obtain ⟨i, inside, rfl⟩ := mem_iff_getElem.mp mem
  exact reach i inside

theorem isHeap_of_sorted {l : List α} (sorted : l.Pairwise fun a b => ¬comp a b) (refl : ∀ a, ¬comp a a) : IsHeap comp l := by
  intro i inside
  rcases Nat.eq_or_lt_of_le (by omega : (i - 1) / 2 ≤ i) with same | before
  · simp only [same]
    exact refl _
  · exact pairwise_iff_getElem.mp sorted _ _ _ _ before

end

/-! `CooperativeScheduler`: ready items and timers, which run one at a time. An item that is empty is `none`. -/

variable {Time Item : Type} [LinearOrder Time]

structure Timer (Time Item : Type) where
  resumeAt : Time
  item : Item

def Timer.IsEarlier (a b : Timer Time Item) : Prop := a.resumeAt > b.resumeAt

theorem Timer.not_isEarlier {a b : Timer Time Item} : ¬a.IsEarlier b ↔ a.resumeAt ≤ b.resumeAt := not_lt

/-- Sorting does what the algorithms are specified to do. -/
def sorting : HeapAlgorithms (@Timer.IsEarlier Time Item _) :=
  let sort (l : List (Timer Time Item)) := l.mergeSort fun a b => a.resumeAt ≤ b.resumeAt
  have sorts (l : List (Timer Time Item)) : (sort l).Perm l ∧ IsHeap Timer.IsEarlier (sort l) := by
    refine ⟨mergeSort_perm _ _, isHeap_of_sorted ?_ fun a => Timer.not_isEarlier.mpr le_rfl⟩
    have sorted : (sort l).Pairwise fun a b => decide (a.resumeAt ≤ b.resumeAt) = true :=
      pairwise_mergeSort (by simpa using fun a b c => le_trans) (by simpa using fun a b => le_total _ _) l
    exact sorted.imp fun h => Timer.not_isEarlier.mpr (of_decide_eq_true h)
  { pushHeap := sort
    popHeap := fun
      | [] => []
      | a :: l => sort l ++ [a]
    pushes := fun l a _ => sorts (l ++ [a])
    pops := fun l a _ => ⟨sort l, rfl, sorts l⟩ }

/-- `submitted` and `executed` are the items so far. -/
structure State (Time Item : Type) where
  ready : List Item := []
  timers : List (Timer Time Item) := []
  submitted : List Item := []
  executed : List Item := []

/-- What `RunOneAt` invokes. -/
inductive Started (Time Item : Type)
  | timer (timer : Timer Time Item)
  | ready (item : Item)

/-- The calls. Those that an item makes follow the call that invokes it. -/
inductive Call (Time Item : Type)
  | execute (item : Option Item)
  | executeAt (item : Option Item) (resumeAt : Time)
  | runOneAt (now : Time)

namespace State

variable (algorithms : HeapAlgorithms (@Timer.IsEarlier Time Item _)) (s : State Time Item)

def execute : Option Item → State Time Item
  | none => s
  | some item => { s with ready := s.ready ++ [item], submitted := s.submitted ++ [item] }

def executeAt (resumeAt : Time) : Option Item → State Time Item
  | none => s
  | some item => { s with timers := algorithms.pushHeap (s.timers ++ [⟨resumeAt, item⟩]), submitted := s.submitted ++ [item] }

def runTimer : Option (Started Time Item) × State Time Item :=
  match (algorithms.popHeap s.timers).getLast? with
  | none => (none, s)
  | some timer =>
    (some (.timer timer), { s with timers := (algorithms.popHeap s.timers).dropLast, executed := s.executed ++ [timer.item] })

def runReady : Option (Started Time Item) × State Time Item :=
  match s.ready.getLast? with
  | none => (none, s)
  | some item => (some (.ready item), { s with ready := s.ready.dropLast, executed := s.executed ++ [item] })

def runOneAt (now : Time) : Option (Started Time Item) × State Time Item :=
  match s.timers with
  | [] => s.runReady
  | next :: _ => if next.resumeAt ≤ now then s.runTimer algorithms else s.runReady

def act : Call Time Item → State Time Item
  | .execute item => s.execute item
  | .executeAt item resumeAt => s.executeAt algorithms resumeAt item
  | .runOneAt now => (s.runOneAt algorithms now).2

/-- The items that are submitted are those that are executed and those that are pending. -/
structure Inv : Prop where
  accounts : s.submitted.Perm (s.executed ++ (s.ready ++ s.timers.map Timer.item))
  heap : IsHeap Timer.IsEarlier s.timers

def Picks (now : Time) : Option (Started Time Item) → Prop
  | some (.timer timer) => timer ∈ s.timers ∧ timer.resumeAt ≤ now ∧ ∀ other ∈ s.timers, timer.resumeAt ≤ other.resumeAt
  | some (.ready item) => item ∈ s.ready ∧ ∀ timer ∈ s.timers, now < timer.resumeAt
  | none => s.ready = [] ∧ ∀ timer ∈ s.timers, now < timer.resumeAt

variable {algorithms} {s}

section

variable (inv : s.Inv)

include inv

theorem Inv.front {next : Timer Time Item} {rest : List (Timer Time Item)} (timers : s.timers = next :: rest) :
    ∀ other ∈ s.timers, next.resumeAt ≤ other.resumeAt := by
  have heap := inv.heap
  rw [timers] at heap ⊢
  intro other mem
  apply Timer.not_isEarlier.mp
  apply heap.front _ other mem
  intro a b c first second
  exact Timer.not_isEarlier.mpr ((Timer.not_isEarlier.mp first).trans (Timer.not_isEarlier.mp second))

theorem Inv.execute (item : Option Item) : (s.execute item).Inv := by
  cases item with
  | none => exact inv
  | some item =>
    refine ⟨?_, inv.heap⟩
    simp only [State.execute]
    apply (inv.accounts.append_right [item]).trans
    simp only [append_assoc]
    exact .append_left _ (.append_left _ perm_append_comm)

theorem Inv.executeAt (item : Option Item) (resumeAt : Time) : (s.executeAt algorithms resumeAt item).Inv := by
  cases item with
  | none => exact inv
  | some item =>
    obtain ⟨perm, heap⟩ := algorithms.pushes s.timers ⟨resumeAt, item⟩ inv.heap
    refine ⟨?_, heap⟩
    apply (inv.accounts.append_right [item]).trans
    simp only [State.executeAt, append_assoc]
    refine .append_left _ (.append_left _ ?_)
    simpa using (perm.map Timer.item).symm

theorem Inv.runReady {now : Time} (late : ∀ timer ∈ s.timers, now < timer.resumeAt) :
    s.Picks now s.runReady.1 ∧ s.runReady.2.Inv := by
  rcases eq_nil_or_concat s.ready with empty | ⟨ready, item, same⟩
  · have nothing : s.runReady = (none, s) := by simp [State.runReady, empty]
    rw [nothing]
    exact ⟨⟨empty, late⟩, inv⟩
  · have runs : s.runReady = (some (.ready item), { s with ready := ready, executed := s.executed ++ [item] }) := by
      simp [State.runReady, same]
    rw [runs]
    refine ⟨⟨by simp [same], late⟩, ?_, inv.heap⟩
    apply inv.accounts.trans
    simp only [same, concat_eq_append, append_assoc]
    exact .append_left _ (perm_append_comm_assoc _ _ _)

theorem Inv.runTimer {next : Timer Time Item} {rest : List (Timer Time Item)} (timers : s.timers = next :: rest)
    {now : Time} (due : next.resumeAt ≤ now) : s.Picks now (s.runTimer algorithms).1 ∧ (s.runTimer algorithms).2.Inv := by
  obtain ⟨others, popped, perm, heap⟩ := algorithms.pops rest next (timers ▸ inv.heap)
  have runs : s.runTimer algorithms = (some (.timer next), { s with timers := others, executed := s.executed ++ [next.item] }) := by
    simp [State.runTimer, timers, popped]
  rw [runs]
  refine ⟨⟨by simp [timers], due, inv.front timers⟩, ?_, heap⟩
  apply inv.accounts.trans
  simp only [timers, append_assoc]
  refine .append_left _ (perm_middle.trans (.cons _ (.append_left _ ?_)))
  exact (perm.map _).symm

theorem Inv.runOneAt (now : Time) : s.Picks now (s.runOneAt algorithms now).1 ∧ (s.runOneAt algorithms now).2.Inv := by
  unfold State.runOneAt
  split
  case h_1 none_ =>
    apply inv.runReady
    simp [none_]
  case h_2 next rest timers =>
    split
    case isTrue due => exact inv.runTimer timers due
    case isFalse early => exact inv.runReady fun timer mem => (not_le.mp early).trans_le (inv.front timers timer mem)

theorem Inv.act (call : Call Time Item) : (s.act algorithms call).Inv := by
  cases call with
  | execute item => exact inv.execute item
  | executeAt item resumeAt => exact inv.executeAt item resumeAt
  | runOneAt now => exact (inv.runOneAt now).2

end

theorem Inv.run (algorithms : HeapAlgorithms (@Timer.IsEarlier Time Item _)) (calls : List (Call Time Item))
    (inv : s.Inv) : (calls.foldl (State.act algorithms) s).Inv := by
  induction calls generalizing s with
  | nil => exact inv
  | cons call calls later => exact later (inv.act call)

theorem init_inv : ({} : State Time Item).Inv := ⟨.refl _, fun i inside => absurd inside (Nat.not_lt_zero i)⟩

end State

end NginBase.Execution.CooperativeScheduler
