import NginBase.Execution.ThreadPool

namespace NginBase.Execution.ThreadPool

open Library Library.Interleaving Function List Nat Option WorkerQueue

namespace WorkerQueue

variable {q : WorkerQueue}

theorem live_push (q : WorkerQueue) (item : WorkItem) : (q.push item).live = q.live ++ [item] :=
  drop_append_of_le_length q.inside

def Gives (q : WorkerQueue) (taken : WorkItem × WorkerQueue) : Prop :=
  (taken = (none, q) ∧ q.live = []) ∨ q.live.Perm (taken.1 :: taken.2.live)

theorem tryPop_gives (q : WorkerQueue) : q.Gives q.tryPop := by
  unfold tryPop
  split
  case h_1 last =>
    apply Or.inl
    simp [live, getLast?_eq_none_iff.mp last]
  case h_2 out last =>
    obtain ⟨init, items⟩ := getLast?_eq_some_iff.mp last
    split
    case isTrue none_ => exact .inl ⟨rfl, drop_eq_nil_of_le none_⟩
    case isFalse some_ =>
      have whole : q.live = init.drop q.head ++ [out] := by
        rw [live, items]
        apply drop_append_of_le_length
        simp only [items, length_append, length_singleton] at some_
        omega
      apply Or.inr
      rw [whole]
      split
      case isTrue more =>
        have left : q.items.dropLast = init := by rw [items, dropLast_concat]
        simp only [left]
        exact perm_append_singleton _ _
      case isFalse final =>
        have nothing : init.drop q.head = [] := by
          apply drop_eq_nil_of_le
          simp only [items, length_append, length_singleton] at final
          omega
        rw [nothing]
        exact List.Perm.refl _

theorem tryTake_gives (q : WorkerQueue) (compact : Bool) : q.Gives (q.tryTake compact) := by
  unfold tryTake
  split
  case h_1 out =>
    exact .inl ⟨rfl, drop_eq_nil_of_le (getElem?_eq_none_iff.mp out)⟩
  case h_2 out found =>
    have whole : q.live = out :: q.items.drop (q.head + 1) := by
      obtain ⟨inside, same⟩ := List.getElem?_eq_some_iff.mp found
      rw [live, drop_eq_getElem_cons inside, same]
    have kept : (q.items.set q.head none).drop (q.head + 1) = q.items.drop (q.head + 1) :=
      drop_set_of_lt (lt_succ_self _)
    apply Or.inr
    rw [whole]
    split
    case isTrue more =>
      split
      · simp [live, kept]
      · simp [live, kept]
    case isFalse final =>
      rw [List.drop_eq_nil_of_le (Nat.le_of_not_lt final)]
      exact List.Perm.refl _

theorem Gives.items {taken : WorkItem × WorkerQueue} (gives : q.Gives taken) :
    (q.live.filterMap id).Perm (taken.1.toList ++ taken.2.live.filterMap id) := by
  rcases gives with ⟨rfl, _⟩ | all
  · exact List.Perm.refl _
  have items := all.filterMap id
  cases out : taken.1 with
  | none => simpa [out] using items
  | some item => simpa [out] using items

theorem Gives.nothing {taken : WorkItem × WorkerQueue} (gives : q.Gives taken) (empty : taken.1 = none)
    (leaves : LeavesNothing taken) (item : Nat) : some item ∉ q.live := by
  intro mem
  rcases gives with ⟨_, none_⟩ | all
  · simp [none_] at mem
  have kept := all.subset mem
  rw [empty, mem_cons] at kept
  rcases kept with same | kept
  · contradiction
  have same := leaves empty _ kept
  contradiction

end WorkerQueue

namespace State

variable {s s' : State} {w : Nat} {place : Place} {taken : WorkItem × WorkerQueue}

structure Placed (s : State) : Prop where
  queued : ∀ place, ((s.queues place).live.filterMap id).Nodup
  apart : ∀ place place' item, some item ∈ (s.queues place).live → some item ∈ (s.queues place').live → place = place'
  waits : ∀ place item, some item ∈ (s.queues place).live → item ∉ s.log ∧ item < s.fresh
  known : ∀ item ∈ s.log, item < s.fresh
  once : s.log.Nodup

theorem Placed.same (placed : s.Placed) (queues : s'.queues = s.queues) (fresh : s'.fresh = s.fresh) (log : s'.log = s.log) :
    s'.Placed where
  queued := by simpa [queues] using placed.queued
  apart := by simpa [queues] using placed.apart
  waits := by simpa [queues, fresh, log] using placed.waits
  known := by simpa [fresh, log] using placed.known
  once := by simpa [log] using placed.once

theorem mem_live_update {q : WorkerQueue} {other : Place} {item : WorkItem} : item ∈ (update s.queues place q other).live ↔
      (other = place ∧ item ∈ q.live) ∨ (other ≠ place ∧ item ∈ (s.queues other).live) := by
  by_cases same : other = place
  · subst same
    simp
  · simp [same]

theorem Placed.enqueue (placed : s.Placed) (place : Place) (empty : Bool) : (s.enqueue place empty).Placed := by
  unfold State.enqueue
  cases empty with
  | true =>
    have same : ∀ other item, some item ∈ (update s.queues place ((s.queues place).push none) other).live ↔
        some item ∈ (s.queues other).live := by
      intro other item
      rw [mem_live_update, live_push]
      by_cases same : other = place
      · subst same
        simp
      · simp [same]
    constructor
    · intro other
      by_cases at_ : other = place
      · subst at_
        simpa [setQueue, live_push] using placed.queued other
      · simpa [setQueue, at_] using placed.queued other
    · intro first second item one two
      exact placed.apart first second item ((same first item).mp one) ((same second item).mp two)
    · intro other item mem
      exact placed.waits other item ((same other item).mp mem)
    · exact placed.known
    · exact placed.once
  | false =>
    simp only [Bool.false_eq_true, if_false]
    have either : ∀ other item, some item ∈ (update s.queues place ((s.queues place).push (some s.fresh)) other).live ↔
        some item ∈ (s.queues other).live ∨ (other = place ∧ item = s.fresh) := by
      intro other item
      rw [mem_live_update, live_push]
      by_cases same : other = place
      · subst same
        simp
      · simp [same]
    have new : ∀ other, some s.fresh ∉ (s.queues other).live := fun other mem =>
      lt_irrefl _ (placed.waits other s.fresh mem).2
    constructor
    · intro other
      by_cases at_ : other = place
      · subst at_
        have outside : s.fresh ∉ (s.queues other).live.filterMap id := by
          intro mem
          exact new other (by simpa using mem)
        have before := placed.queued other
        simp only [setQueue, update_self, live_push, filterMap_append]
        apply nodup_append'.mpr
        refine ⟨before, nodup_singleton _, ?_⟩
        intro item mem single
        obtain rfl : item = s.fresh := by simpa using single
        exact outside mem
      · simpa [setQueue, at_] using placed.queued other
    · intro first second item one two
      rcases (either first item).mp one with one | ⟨rfl, rfl⟩
      · rcases (either second item).mp two with two | ⟨_, rfl⟩
        · exact placed.apart first second item one two
        · exact absurd one (new first)
      · rcases (either second _).mp two with two | ⟨same, _⟩
        · exact absurd two (new second)
        · exact same.symm
    · intro other item mem
      rcases (either other item).mp mem with mem | ⟨_, rfl⟩
      · exact ⟨(placed.waits other item mem).1, lt_succ_of_lt (placed.waits other item mem).2⟩
      · exact ⟨fun run => lt_irrefl _ (placed.known _ run), lt_succ_self _⟩
    · intro item mem
      exact lt_succ_of_lt (placed.known item mem)
    · exact placed.once

theorem Placed.take (placed : s.Placed) (gives : (s.queues place).Gives taken) (w : Nat) (otherwise : Phase) :
    ((s.setQueue place taken.2).took w taken.1 otherwise).Placed := by
  have items := gives.items
  have nodup := items.nodup_iff.mp (placed.queued place)
  have kept : ∀ item, some item ∈ taken.2.live → some item ∈ (s.queues place).live := by
    intro item mem
    have inside : item ∈ (s.queues place).live.filterMap id := by
      apply items.symm.subset
      apply mem_append_right
      simpa using mem
    simpa using inside
  have before : ∀ other item, some item ∈ (update s.queues place taken.2 other).live →
      some item ∈ (s.queues other).live := by
    intro other item mem
    rcases mem_live_update.mp mem with ⟨rfl, inside⟩ | ⟨_, inside⟩
    · exact kept item inside
    · exact inside
  have left : (s.setQueue place taken.2).Placed := by
    constructor
    · intro other
      by_cases same : other = place
      · subst same
        simpa [setQueue] using nodup.of_append_right
      · simpa [setQueue, same] using placed.queued other
    · intro first second item one two
      exact placed.apart first second item (before first item one) (before second item two)
    · intro other item mem
      exact placed.waits other item (before other item mem)
    · exact placed.known
    · exact placed.once
  cases out : taken.1 with
  | none => exact left.same rfl rfl rfl
  | some item =>
    have given : some item ∈ (s.queues place).live := by
      have inside : item ∈ (s.queues place).live.filterMap id := by
        apply items.symm.subset
        simp [out]
      simpa using inside
    have gone : ∀ other, some item ∉ (update s.queues place taken.2 other).live := by
      intro other mem
      have same := placed.apart other place item (before other item mem) given
      subst same
      rw [out] at nodup
      apply disjoint_of_nodup_append nodup (mem_singleton_self item)
      simpa using mem
    obtain ⟨unrun, old⟩ := placed.waits place item given
    constructor
    · exact left.queued
    · exact left.apart
    · intro other waiting mem
      obtain ⟨unrun', old'⟩ := left.waits other waiting mem
      refine ⟨?_, old'⟩
      intro run
      rcases mem_append.mp run with run | new
      · exact unrun' run
      · rw [mem_singleton.mp new] at mem
        exact gone other mem
    · intro run mem
      rcases mem_append.mp mem with mem | new
      · exact placed.known run mem
      · rw [mem_singleton.mp new]
        exact old
    · apply nodup_append'.mpr
      refine ⟨placed.once, nodup_singleton _, ?_⟩
      intro run mem single
      rw [mem_singleton.mp single] at mem
      exact unrun mem

theorem Placed.work (placed : s.Placed) (worked : s.work w = some s') : s'.Placed := by
  unfold State.work at worked
  split at worked
  case h_1 =>
    obtain rfl := some.inj worked
    exact placed.take (tryPop_gives _) _ _
  case h_2 =>
    obtain rfl := some.inj worked
    exact placed.take (tryTake_gives _ false) _ _
  case h_3 =>
    split at worked
    · obtain rfl := some.inj worked
      exact placed.take (tryTake_gives _ true) _ _
    · obtain rfl := some.inj worked
      exact placed.same rfl rfl rfl
  case h_4 =>
    obtain rfl := some.inj worked
    exact placed.same rfl rfl rfl
  case h_5 =>
    split at worked
    · contradiction
    obtain rfl := some.inj worked
    exact placed.same rfl rfl rfl
  case h_6 =>
    obtain rfl := some.inj worked
    exact placed.same rfl rfl rfl
  all_goals contradiction

theorem Placed.act (placed : s.Placed) {action : Action} (acted : s.act action = some s') : s'.Placed := by
  cases action with
  | submit empty =>
    obtain rfl := some.inj acted
    exact (placed.enqueue .injection empty).same rfl rfl rfl
  | notify =>
    simp only [State.act] at acted
    split at acted
    · obtain rfl := some.inj acted
      exact placed.same rfl rfl rfl
    · contradiction
  | submitLocal w empty =>
    simp only [State.act] at acted
    split at acted
    · obtain rfl := some.inj acted
      exact (placed.enqueue (.worker w) empty).same rfl rfl rfl
    · contradiction
  | finish w =>
    simp only [State.act] at acted
    split at acted
    · obtain rfl := some.inj acted
      exact placed.same rfl rfl rfl
    · contradiction
  | work w => exact placed.work acted

theorem start_placed (threadCount : Nat) : (start threadCount).Placed where
  queued _ := nodup_nil
  apart _ _ _ mem := absurd mem not_mem_nil
  waits _ _ mem := absurd mem not_mem_nil
  known _ mem := absurd mem not_mem_nil
  once := nodup_nil

theorem run_once {threadCount : Nat} {actions : List Action} (ran : run act (start threadCount) actions = some s) :
    s.log.Nodup := by
  have placed : s.Placed := by
    apply invariant _ ran (start_placed threadCount)
    intro s action s' placed acted
    exact placed.act acted
  exact placed.once

def Clean (s : State) (place : Place) : Prop := ∀ item, some item ∉ (s.queues place).live

def Signalling (s : State) : Prop := 0 < s.submitting ∨ ∃ item, .notifying item ∈ s.workers

/-- The queues that a worker has looked into since it loaded the generation, of so many workers. -/
def Scanned (workers w : Nat) : Phase → Place → Prop
  | .tryInjection _, place => place = .worker w
  | .trySteal _ offset, place =>
    place = .worker w ∨ place = .injection ∨ ∃ k, 1 ≤ k ∧ k < offset ∧ place = .worker ((w + k) % workers)
  | .waiting _, place => place = .injection ∨ ∃ v < workers, place = .worker v
  | _, _ => False

/-- A worker that has not seen a notification since it loaded the generation has left nothing behind, unless one is still to
    come. -/
structure Watch (s : State) : Prop where
  workers : 0 < s.workers.length
  beyond : ∀ v, s.workers.length ≤ v → s.Clean (.worker v)
  seen : ∀ phase ∈ s.workers, ∀ observed ∈ phase.observed,
    s.notified = observed ∨ s.notified % generations ≠ observed % generations
  clean : ∀ w phase, s.workers[w]? = some phase → ∀ observed ∈ phase.observed, s.notified = observed →
    s.Signalling ∨ ∀ place, Scanned s.workers.length w phase place → s.Clean place

variable {phase phase' : Phase} {observed : Option Nat}

theorem mem_set_cases {l : List Phase} (mem : phase ∈ l.set w phase') : phase = phase' ∨ phase ∈ l :=
  (mem_or_eq_of_mem_set mem).symm

theorem Watch.move (watch : s.Watch) (found : s.workers[w]? = some phase) (quiet : ∀ item, phase ≠ .notifying item)
    (workers : s'.workers = s.workers.set w phase') (notified : s'.notified = s.notified) (submitting : s'.submitting = s.submitting)
    (cleaner : ∀ place, s.Clean place → s'.Clean place)
    (mine : ∀ o ∈ phase'.observed, (s.notified = o ∨ s.notified % generations ≠ o % generations) ∧
      (s.notified = o → s.Signalling ∨ ∀ place, Scanned s.workers.length w phase' place → s'.Clean place)) : s'.Watch := by
  have signalling : s.Signalling → s'.Signalling := by
    rintro (outside | ⟨item, mem⟩)
    · exact .inl (submitting ▸ outside)
    · apply Or.inr
      exists item
      obtain ⟨u, at_⟩ := mem_iff_getElem?.mp mem
      have other : w ≠ u := by
        rintro rfl
        rw [found] at at_
        exact quiet item (some.inj at_)
      rw [workers]
      apply mem_of_getElem? (i := u)
      rw [getElem?_set_ne other, at_]
  have length : s'.workers.length = s.workers.length := by rw [workers, length_set]
  constructor
  · rw [length]
    exact watch.workers
  · intro v past
    exact cleaner _ (watch.beyond v (length ▸ past))
  · intro p mem o known
    rw [notified]
    rw [workers] at mem
    rcases mem_set_cases mem with rfl | mem
    · exact (mine o known).1
    · exact watch.seen p mem o known
  · intro u p at_ o known same
    rw [notified] at same
    rw [length]
    by_cases other : w = u
    · subst other
      have inside : w < s.workers.length := (List.getElem?_eq_some_iff.mp found).1
      rw [workers, getElem?_set_self inside] at at_
      obtain rfl := some.inj at_
      exact ((mine o known).2 same).imp signalling id
    · rw [workers, getElem?_set_ne other] at at_
      rcases watch.clean u p at_ o known same with signal | clean
      · exact .inl (signalling signal)
      · exact .inr fun place scanned => cleaner place (clean place scanned)

theorem Watch.enqueued (watch : s.Watch) {place : Place} (known : ∀ v, place = .worker v → v < s.workers.length)
    (length : s'.workers.length = s.workers.length) (notified : s'.notified = s.notified)
    (others : ∀ other, other ≠ place → s'.queues other = s.queues other) (signalling : s'.Signalling)
    (observers : ∀ phase ∈ s'.workers, phase.observed = none ∨ phase ∈ s.workers) : s'.Watch where
  workers := length ▸ watch.workers
  beyond v past := by
    rw [length] at past
    have other : Place.worker v ≠ place := by
      intro same
      exact lt_irrefl _ (lt_of_lt_of_le (known v same.symm) past)
    intro item
    rw [others _ other]
    exact watch.beyond v past item
  seen phase mem o seen := by
    rw [notified]
    rcases observers phase mem with none_ | old
    · rw [none_] at seen
      contradiction
    · exact watch.seen phase old o seen
  clean _ _ _ _ _ _ := .inl signalling

theorem Watch.notified (watch : s.Watch) (counts : s.Counts) (queues : s'.queues = s.queues) (one : s'.notified = s.notified + 1)
    (length : s'.workers.length = s.workers.length)
    (observers : ∀ phase ∈ s'.workers, phase.observed = none ∨ phase ∈ s.workers) : s'.Watch where
  workers := length ▸ watch.workers
  beyond v past item := by
    rw [queues]
    exact watch.beyond v (length ▸ past) item
  seen phase mem o seen := by
    rcases observers phase mem with none_ | old
    · rw [none_] at seen
      contradiction
    · rw [one]
      exact .inr (counts phase old o seen)
  clean w phase at_ o seen same := by
    rcases observers phase (mem_of_getElem? at_) with none_ | old
    · rw [none_] at seen
      contradiction
    have differ := counts phase old o seen
    rw [one] at same
    rw [same] at differ
    exact absurd rfl differ

section

variable (watch : s.Watch) (found : s.workers[w]? = some phase) (quiet : ∀ item, phase ≠ .notifying item)

include watch found quiet

theorem Watch.take (gives : (s.queues place).Gives taken) (same : phase'.observed = phase.observed)
    (leaves : ∀ o ∈ phase.observed, LeavesNothing taken)
    (grows : ∀ other, Scanned s.workers.length w phase' other → other = place ∨ Scanned s.workers.length w phase other) :
    ((s.setQueue place taken.2).took w taken.1 phase').Watch := by
  have kept : ∀ item, some item ∈ taken.2.live → some item ∈ (s.queues place).live := by
    intro item mem
    rcases gives with ⟨rfl, _⟩ | all
    · exact mem
    · exact all.symm.subset (mem_cons_of_mem _ mem)
  have cleaner : ∀ other, s.Clean other → (s.setQueue place taken.2).Clean other := by
    intro other clean item mem
    rcases mem_live_update.mp mem with ⟨rfl, inside⟩ | ⟨_, inside⟩
    · exact clean item (kept item inside)
    · exact clean item inside
  cases out : taken.1 with
  | some item =>
    apply watch.move found quiet
    · rfl
    · rfl
    · rfl
    · exact cleaner
    · intro o seen
      contradiction
  | none =>
    apply watch.move found quiet
    · rfl
    · rfl
    · rfl
    · exact cleaner
    · intro o seen
      have before : o ∈ phase.observed := same ▸ seen
      refine ⟨watch.seen phase (mem_of_getElem? found) o before, ?_⟩
      intro still
      rcases watch.clean w phase found o before still with signal | clean
      · exact .inl signal
      apply Or.inr
      intro other scanned
      rcases grows other scanned with rfl | old
      · apply cleaner
        exact gives.nothing out (leaves o before)
      · exact cleaner other (clean other old)

theorem Watch.setPhase (mine : ∀ o ∈ phase'.observed, (s.notified = o ∨ s.notified % generations ≠ o % generations) ∧
      (s.notified = o → s.Signalling ∨ ∀ place, Scanned s.workers.length w phase' place → s.Clean place)) :
    (s.setPhase w phase').Watch :=
  watch.move found quiet rfl rfl rfl (fun _ clean => clean) mine

end

theorem scanned_all {workers w offset : Nat} (inside : w < workers) (last : workers ≤ offset) {o : Nat} {place : Place}
    (all : Scanned workers w (.waiting o) place) : Scanned workers w (.trySteal (some o) offset) place := by
  rcases all with rfl | ⟨v, known, rfl⟩
  · exact .inr (.inl rfl)
  by_cases own : v = w
  · exact .inl (by rw [own])
  apply Or.inr
  apply Or.inr
  by_cases after : w < v
  · refine ⟨v - w, by omega, by omega, ?_⟩
    have sum : w + (v - w) = v := by omega
    rw [sum, mod_eq_of_lt known]
  · refine ⟨v + workers - w, by omega, by omega, ?_⟩
    have sum : w + (v + workers - w) = v + workers := by omega
    rw [sum, add_mod_right, mod_eq_of_lt known]

theorem Watch.work (watch : s.Watch) (orderly : s.Orderly (.work w)) (worked : s.work w = some s') : s'.Watch := by
  unfold State.work at worked
  split at worked
  case h_1 observed found =>
    obtain rfl := some.inj worked
    apply watch.take found nofun (tryPop_gives _)
    · rfl
    · intro o seen
      obtain rfl : observed = some o := seen
      exact (orderly _ found).1 _ rfl
    · intro other scanned
      exact .inl scanned
  case h_2 observed found =>
    obtain rfl := some.inj worked
    apply watch.take found nofun (tryTake_gives _ false)
    · rfl
    · intro o seen
      obtain rfl : observed = some o := seen
      exact (orderly _ found).1 _ rfl
    · rintro other (own | injection | ⟨k, first, past, _⟩)
      · exact .inr own
      · exact .inl injection
      · omega
  case h_3 observed offset found =>
    split at worked
    case isTrue victim =>
      obtain rfl := some.inj worked
      apply watch.take found nofun (tryTake_gives _ true)
      · rfl
      · intro o seen
        obtain rfl : observed = some o := seen
        apply (orderly _ found).1
        simp only [second, victim]
        rfl
      · rintro other (own | injection | ⟨k, first, past, rfl⟩)
        · exact .inr (.inl own)
        · exact .inr (.inr (.inl injection))
        · by_cases last : k = offset
          · rw [last]
            exact .inl rfl
          · exact .inr (.inr (.inr ⟨k, first, by omega, rfl⟩))
    case isFalse last =>
      obtain rfl := some.inj worked
      apply watch.setPhase found nofun
      intro o seen
      cases observed with
      | none => contradiction
      | some p =>
        obtain rfl : p = o := some.inj seen
        refine ⟨watch.seen _ (mem_of_getElem? found) p rfl, ?_⟩
        intro still
        have inside : w < s.workers.length := (List.getElem?_eq_some_iff.mp found).1
        exact (watch.clean w _ found p rfl still).imp id fun clean place all =>
          clean place (scanned_all inside (Nat.le_of_not_lt last) all)
  case h_4 found =>
    obtain rfl := some.inj worked
    apply watch.setPhase found nofun
    intro o seen
    obtain rfl : s.notified = o := some.inj seen
    refine ⟨.inl rfl, ?_⟩
    intro _
    apply Or.inr
    intro place scanned
    exact scanned.elim
  case h_5 observed found =>
    split at worked
    case isTrue => contradiction
    case isFalse =>
      obtain rfl := some.inj worked
      apply watch.setPhase found nofun
      intro o seen
      contradiction
  case h_6 item found =>
    obtain rfl := some.inj worked
    apply watch.notified ((orderly _ found).2 rfl)
    · rfl
    · rfl
    · exact length_set
    · intro phase mem
      rcases mem_set_cases mem with rfl | old
      · exact .inl rfl
      · exact .inr old
  all_goals contradiction

theorem Watch.act (watch : s.Watch) {action : Action} (orderly : s.Orderly action) (acted : s.act action = some s') :
    s'.Watch := by
  cases action with
  | submit empty =>
    obtain rfl := some.inj acted
    have same : (s.enqueue .injection empty).workers = s.workers := by cases empty <;> rfl
    have outside : ∀ v, Place.injection = .worker v → v < s.workers.length := nofun
    apply watch.enqueued outside
    · exact congrArg length same
    · cases empty <;> rfl
    · intro other differ
      cases empty <;> exact update_of_ne differ _ _
    · exact .inl (succ_pos _)
    · intro phase mem
      rw [show (_ : List Phase) = s.workers from same] at mem
      exact .inr mem
  | notify =>
    simp only [State.act] at acted
    split at acted
    · obtain rfl := some.inj acted
      exact watch.notified orderly rfl rfl rfl fun phase mem => .inr mem
    · contradiction
  | submitLocal w empty =>
    simp only [State.act] at acted
    split at acted
    case h_1 item found =>
      obtain rfl := some.inj acted
      have inside : w < s.workers.length := (List.getElem?_eq_some_iff.mp found).1
      have same : (s.enqueue (.worker w) empty).workers = s.workers := by cases empty <;> rfl
      apply watch.enqueued
      · intro v at_
        obtain rfl : w = v := Place.worker.inj at_
        exact inside
      · simp only [State.setPhase, length_set, same]
      · cases empty <;> rfl
      · intro other differ
        cases empty <;> exact update_of_ne differ _ _
      · apply Or.inr
        exists item
        simp only [State.setPhase, same]
        exact mem_set inside _
      · intro phase mem
        simp only [State.setPhase, same] at mem
        rcases mem_set_cases mem with rfl | old
        · exact .inl rfl
        · exact .inr old
    case h_2 => contradiction
  | finish w =>
    simp only [State.act] at acted
    split at acted
    case h_1 item found =>
      obtain rfl := some.inj acted
      apply watch.setPhase found nofun
      intro o seen
      contradiction
    case h_2 => contradiction
  | work w => exact watch.work orderly acted

theorem start_watch (threadCount : Nat) : (start threadCount).Watch where
  workers := by
    simp only [start, length_replicate]
    split <;> omega
  beyond _ _ _ mem := absurd mem not_mem_nil
  seen phase mem o seen := by
    obtain rfl := eq_of_mem_replicate mem
    contradiction
  clean w phase found o seen _ := by
    obtain rfl := eq_of_mem_replicate (mem_of_getElem? found)
    contradiction

theorem Watch.asleep (watch : s.Watch) (blocked : ∀ phase ∈ s.workers, s.Blocked phase) (outside : s.submitting = 0)
    (place : Place) : s.Clean place := by
  obtain ⟨phase, found⟩ : ∃ phase, s.workers[0]? = some phase := ⟨_, getElem?_eq_getElem watch.workers⟩
  have mem := mem_of_getElem? found
  have stuck := blocked phase mem
  cases phase with
  | waiting observed =>
    have still : s.notified = observed := (watch.seen _ mem observed rfl).resolve_right fun differ => differ stuck
    rcases watch.clean 0 _ found observed rfl still with signal | clean
    · rcases signal with submitting | ⟨item, notifying⟩
      · omega
      · exact (blocked _ notifying).elim
    · cases place with
      | injection => exact clean _ (.inl rfl)
      | worker v =>
        by_cases known : v < s.workers.length
        · exact clean _ (.inr ⟨v, known, rfl⟩)
        · exact watch.beyond v (Nat.le_of_not_lt known)
  | _ => exact stuck.elim

/-- In an orderly run nobody sleeps on queued work, and nothing is run twice. -/
theorem orderly_awake (threadCount : Nat) (actions : List Action) (ran : run act (start threadCount) actions = some s)
    (orderly : Along act Orderly (start threadCount) actions) : s.Awake where
  work blocked outside place item := by
    have watch : s.Watch := by
      apply keeps _ orderly ran (start_watch threadCount)
      intro s action s' watch orderly acted
      exact watch.act orderly acted
    exact watch.asleep blocked outside place item
  once := run_once ran

def drained : List Action :=
  [.submit true, .notify, .submit false, .notify] ++ replicate 6 (.work 0) ++ [.finish 0] ++ replicate 7 (.work 0)

theorem orderly_awake_drained : ∃ s, run act (start 1) drained = some s ∧ s.Awake ∧ (∀ phase ∈ s.workers, s.Blocked phase) ∧
    s.log = [0] := by
  have seen : (run act (start 1) drained).any (fun s => s.workers = [.waiting 2] ∧ s.notified = 2 ∧ s.log = [0]) = true := by
    decide +kernel
  cases ran : run act (start 1) drained with
  | none => simp [ran] at seen
  | some s =>
    rw [ran] at seen
    obtain ⟨asleep, notified, log⟩ : s.workers = [.waiting 2] ∧ s.notified = 2 ∧ s.log = [0] := by simpa using seen
    have awake : s.Awake := orderly_awake 1 drained ran (by decide +kernel)
    refine ⟨s, rfl, awake, fun phase mem => ?_, log⟩
    rw [asleep] at mem
    obtain rfl := mem_singleton.mp mem
    rw [Blocked, notified]

def dropped : List Action :=
  [.submit true, .notify, .submit true, .notify, .submit false, .notify] ++ replicate 7 (.work 0)

theorem empty_items_asleep : ∃ s, run act (start 1) dropped = some s ∧ ¬ s.Awake := by
  have seen : (run act (start 1) dropped).any (fun s => s.workers = [.waiting 3] ∧ s.notified = 3 ∧ s.submitting = 0 ∧
      (s.queues .injection).live = [some 0]) = true := by decide +kernel
  cases ran : run act (start 1) dropped with
  | none => simp [ran] at seen
  | some s =>
    rw [ran] at seen
    obtain ⟨asleep, notified, outside, left⟩ : s.workers = [.waiting 3] ∧ s.notified = 3 ∧ s.submitting = 0 ∧
        (s.queues .injection).live = [some 0] := by simpa using seen
    refine ⟨s, rfl, fun awake => ?_⟩
    have blocked : ∀ phase ∈ s.workers, s.Blocked phase := by
      intro phase mem
      rw [asleep] at mem
      obtain rfl := mem_singleton.mp mem
      rw [Blocked, notified]
    apply awake.work blocked outside .injection 0
    rw [left]
    exact mem_singleton_self _

def Waits (s : State) (item : Nat) (place : Place) : Prop := some item ∈ (s.queues place).live

/-- What was submitted has been started, or waits. -/
def Kept (s : State) : Prop := ∀ item < s.fresh, item ∈ s.log ∨ ∃ place, s.Waits item place

theorem Kept.update {q : WorkerQueue} (kept : s.Kept) (queues : s'.queues = update s.queues place q)
    (fresh : ∀ item < s'.fresh, item < s.fresh ∨ some item ∈ q.live) (log : s.log ⊆ s'.log)
    (moved : ∀ item, s.Waits item place → some item ∈ q.live ∨ item ∈ s'.log) : s'.Kept := by
  have waits : ∀ item, some item ∈ q.live → s'.Waits item place := by simp [Waits, queues]
  intro item known
  rcases fresh item known with old | new
  · rcases kept item old with run | ⟨other, mem⟩
    · exact .inl (log run)
    by_cases same : other = place
    · subst same
      exact (moved item mem).symm.imp id fun left => ⟨other, waits item left⟩
    · exact .inr ⟨other, by rwa [Waits, queues, update_of_ne same]⟩
  · exact .inr ⟨place, waits item new⟩

theorem Kept.enqueue (kept : s.Kept) (place : Place) (empty : Bool) : (s.enqueue place empty).Kept := by
  cases empty with
  | true => exact kept.update rfl (fun _ => .inl) (fun _ => id) (by simp +contextual [live_push, Waits])
  | false =>
    refine kept.update rfl (fun item old => ?_) (fun _ => id) (by simp +contextual [live_push, Waits])
    exact (Nat.lt_succ_iff_lt_or_eq.mp old).imp id fun same => by simp [live_push, same]

theorem Kept.take (kept : s.Kept) (gives : (s.queues place).Gives taken) {otherwise : Phase} :
    ((s.setQueue place taken.2).took w taken.1 otherwise).Kept := by
  have moved : ∀ item, s.Waits item place → taken.1 = some item ∨ some item ∈ taken.2.live := by
    intro item mem
    have inside := gives.items.subset (mem_filterMap.mpr ⟨_, mem, rfl⟩)
    simpa using inside
  cases out : taken.1 with
  | none => exact kept.update rfl (fun _ => .inl) (fun _ => id) fun item mem => .inl ((moved item mem).resolve_left (by simp [out]))
  | some started =>
    refine kept.update rfl (fun _ => .inl) (subset_append_left _ [started]) fun item mem => ?_
    exact (moved item mem).symm.imp id fun same => by simp_all [took]

theorem Kept.work (kept : s.Kept) (worked : s.work w = some s') : s'.Kept := by
  unfold State.work at worked
  repeat' split at worked
  all_goals cases worked
  · exact kept.take (tryPop_gives _)
  · exact kept.take (tryTake_gives _ false)
  · exact kept.take (tryTake_gives _ true)
  all_goals exact kept

theorem Kept.act (kept : s.Kept) {action : Action} (acted : s.act action = some s') : s'.Kept := by
  cases action
  case work w => exact kept.work acted
  all_goals
    simp only [State.act] at acted
    repeat' split at acted
    all_goals cases acted
  all_goals first
    | exact kept.enqueue _ _
    | exact kept

end State

end NginBase.Execution.ThreadPool
