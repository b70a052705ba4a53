import NginBase.Library.Interleaving

namespace NginBase.Memory.EpochReclaimer

open Library.Interleaving Function List Nat

/-! `EpochReclaimer` with the accesses to its atomic objects as steps. -/

/-- `seen` are the guards of each thread that were alive when the node was retired. -/
structure RetiredNode where
  id : Nat
  retireEpoch : Nat
  seen : Nat → List Nat

/-- Where a thread is in `Enter` or in `TryAdvanceAndReclaim`. The threads in `todo` have the records that `MinActiveEpoch` has still to
    look at; a record that is there may not have been stored. -/
inductive Phase
  | idle
  | entering (epoch : Nat)
  | advancing
  | counting
  | minimum (todo : List Nat)
  | scanning (todo : List Nat) (minEpoch : Nat)
  | loading (record : Nat) (todo : List Nat) (minEpoch : Nat)

/-- A `ThreadRecord`, with the locals of the thread: `guards` are its guards that are alive, `toReclaim` are the nodes whose deleters
    are still to run and `reclaimed` those whose deleters have run. -/
structure ThreadRecord where
  activeEpoch : Nat := 0
  pending : List RetiredNode := []
  reclaiming : Bool := false
  stored : Bool := false
  phase : Phase := .idle
  guards : List Nat := []
  retired : Nat := 0
  toReclaim : List RetiredNode := []
  reclaimed : List Nat := []

def kMaxThreads : Nat := 4096

def retireBatchThreshold : Nat := 32

/-- The `records` are those of the threads that have got a slot, in order; `entered` is the number of guards so far. -/
structure State where
  globalEpoch : Nat := 1
  records : List Nat := []
  threads : Nat → ThreadRecord := fun _ => {}
  entered : Nat := 0

/-- The steps of a thread. The deleter that `delete` calls may make further calls before the next step of `TryAdvanceAndReclaim`. -/
inductive Action
  | register (t : Nat)
  | store (t : Nat)
  | enter (t : Nat)
  | leave (t guard : Nat)
  | retire (t : Nat)
  | forceDrain (t : Nat)
  /-- The next access of `Enter` or of `TryAdvanceAndReclaim`. -/
  | access (t : Nat)
  | delete (t : Nat)
  | finish (t : Nat)

namespace ThreadRecord

variable (r : ThreadRecord)

def Ready : Prop := r.stored = true ∧ r.phase matches .idle

instance : Decidable r.Ready := inferInstanceAs (Decidable (_ ∧ _))

def tryAdvanceAndReclaim (force : Bool) : ThreadRecord :=
  if (!force && decide (r.pending.length < retireBatchThreshold)) || r.reclaiming then r
  else { r with reclaiming := true, phase := .advancing }

theorem tryAdvanceAndReclaim_keeps (force : Bool) : (r.tryAdvanceAndReclaim force).guards = r.guards ∧
    (r.tryAdvanceAndReclaim force).activeEpoch = r.activeEpoch ∧ (r.tryAdvanceAndReclaim force).stored = r.stored := by
  unfold tryAdvanceAndReclaim
  split <;> exact ⟨rfl, rfl, rfl⟩

def partition (safeEpoch : Nat) : ThreadRecord :=
  { r with
    pending := r.pending.filter fun n => !decide (n.retireEpoch < safeEpoch)
    toReclaim := r.pending.filter fun n => n.retireEpoch < safeEpoch
    phase := .idle }

end ThreadRecord

namespace State

variable (s : State)

def set (t : Nat) (r : ThreadRecord) : State := { s with threads := update s.threads t r }

def access (t : Nat) : Option State :=
  let r := s.threads t
  match r.phase with
  | .idle => none
  | .entering epoch =>
    some ({ s with entered := s.entered + 1 }.set t { r with activeEpoch := epoch, guards := s.entered :: r.guards, phase := .idle })
  | .advancing => some ({ s with globalEpoch := s.globalEpoch + 1 }.set t { r with phase := .counting })
  | .counting => some (s.set t { r with phase := .minimum s.records })
  | .minimum todo => some (s.set t { r with phase := .scanning todo s.globalEpoch })
  | .scanning [] minEpoch => some (s.set t (r.partition minEpoch))
  | .scanning (record :: todo) minEpoch =>
    some (s.set t { r with phase := if (s.threads record).stored then .loading record todo minEpoch else .scanning todo minEpoch })
  | .loading record todo minEpoch =>
    let e := (s.threads record).activeEpoch
    some (s.set t { r with phase := .scanning todo (if e ≠ 0 ∧ e < minEpoch then e else minEpoch) })

def act (s : State) : Action → Option State
  | .register t =>
    if t ∉ s.records ∧ s.records.length < kMaxThreads then some { s with records := s.records ++ [t] } else none
  | .store t =>
    if t ∈ s.records ∧ (s.threads t).stored = false then some (s.set t { s.threads t with stored := true }) else none
  | .enter t => if (s.threads t).Ready then some (s.set t { s.threads t with phase := .entering s.globalEpoch }) else none
  | .leave t guard =>
    let r := s.threads t
    if r.Ready ∧ guard ∈ r.guards then some (s.set t { r with activeEpoch := 0, guards := r.guards.erase guard }) else none
  | .retire t =>
    let r := s.threads t
    let node : RetiredNode := ⟨r.retired, s.globalEpoch, fun t => (s.threads t).guards⟩
    if r.Ready then some (s.set t ({ r with pending := r.pending ++ [node], retired := r.retired + 1 }.tryAdvanceAndReclaim false))
    else none
  | .forceDrain t => if (s.threads t).Ready then some (s.set t ((s.threads t).tryAdvanceAndReclaim true)) else none
  | .access t => s.access t
  | .delete t =>
    let r := s.threads t
    match r.toReclaim with
    | [] => none
    | node :: rest => if r.Ready then some (s.set t { r with toReclaim := rest, reclaimed := r.reclaimed ++ [node.id] }) else none
  | .finish t =>
    let r := s.threads t
    if r.Ready ∧ r.reclaiming = true ∧ r.toReclaim = [] then some (s.set t { r with reclaiming := false }) else none

variable {s s' : State} {t : Nat} {r : ThreadRecord}

/-- The guard was alive when the node was retired, and is still. -/
def Live (s : State) (node : RetiredNode) (u guard : Nat) : Prop := guard ∈ node.seen u ∧ guard ∈ (s.threads u).guards

/-- What is known of the pending nodes in the middle of `MinActiveEpoch`. -/
def Passed (s : State) (pending : List RetiredNode) : Phase → Prop
  | .entering epoch => epoch ≠ 0 ∧ epoch ≤ s.globalEpoch
  | .minimum todo => ∀ node ∈ pending, ∀ u guard, s.Live node u guard → u ∈ todo
  | .scanning todo minEpoch => ∀ node ∈ pending, ∀ u guard, s.Live node u guard → minEpoch ≤ node.retireEpoch ∨ u ∈ todo
  | .loading record todo minEpoch =>
    ∀ node ∈ pending, ∀ u guard, s.Live node u guard → minEpoch ≤ node.retireEpoch ∨ u ∈ record :: todo
  | _ => True

structure Local (s : State) (r : ThreadRecord) : Prop where
  known : ∀ node ∈ r.pending ++ r.toReclaim, ∀ u, ∀ guard ∈ node.seen u, guard < s.entered
  early : ∀ node ∈ r.pending, ∀ u guard, s.Live node u guard → (s.threads u).activeEpoch ≤ node.retireEpoch
  passed : s.Passed r.pending r.phase
  spared : ∀ node ∈ r.toReclaim, ∀ u guard, ¬s.Live node u guard
  distinct : ((r.pending ++ r.toReclaim).map RetiredNode.id ++ r.reclaimed).Nodup
  bounded : ∀ id ∈ (r.pending ++ r.toReclaim).map RetiredNode.id ++ r.reclaimed, id < r.retired
  mine : ∀ guard ∈ r.guards, guard < s.entered
  announced : r.guards ≠ [] → r.activeEpoch ≠ 0 ∧ r.stored = true
  behind : r.activeEpoch ≤ s.globalEpoch
  single : r.guards.length ≤ 1
  alone : ∀ epoch, r.phase = .entering epoch → r.guards = [] ∧ r.stored = true

structure Inv (s : State) : Prop where
  positive : s.globalEpoch ≠ 0
  stored : ∀ t, (s.threads t).stored = true → t ∈ s.records
  each : ∀ t, s.Local (s.threads t)

/-- Guards are new, or they were alive before with the same epoch. -/
structure Grows (s s' : State) : Prop where
  epochs : s.globalEpoch ≤ s'.globalEpoch
  entered : s.entered ≤ s'.entered
  guards : ∀ u, ∀ guard ∈ (s'.threads u).guards, guard < s.entered →
    guard ∈ (s.threads u).guards ∧ (s'.threads u).activeEpoch = (s.threads u).activeEpoch

theorem Local.live (local_ : s.Local r) (grows : s.Grows s') {node : RetiredNode} (mem : node ∈ r.pending ++ r.toReclaim)
    {u guard : Nat} (live : s'.Live node u guard) : s.Live node u guard :=
  ⟨live.1, (grows.guards u guard live.2 (local_.known node mem u guard live.1)).1⟩

theorem Local.mono (local_ : s.Local r) (grows : s.Grows s') : s'.Local r where
  known node mem u guard seen := Nat.lt_of_lt_of_le (local_.known node mem u guard seen) grows.entered
  early node mem u guard live := by
    have same := (grows.guards u guard live.2 (local_.known node (mem_append_left _ mem) u guard live.1)).2
    rw [same]
    exact local_.early node mem u guard (local_.live grows (mem_append_left _ mem) live)
  passed := by
    have passed := local_.passed
    have live : ∀ node ∈ r.pending, ∀ u guard, s'.Live node u guard → s.Live node u guard :=
      fun node mem u guard => local_.live grows (mem_append_left _ mem)
    cases phase : r.phase with
    | entering epoch =>
      rw [phase] at passed
      exact passed.imp_right fun le => Nat.le_trans le grows.epochs
    | minimum todo =>
      rw [phase] at passed
      exact fun node mem u guard now => passed node mem u guard (live node mem u guard now)
    | scanning todo minEpoch =>
      rw [phase] at passed
      exact fun node mem u guard now => passed node mem u guard (live node mem u guard now)
    | loading record todo minEpoch =>
      rw [phase] at passed
      exact fun node mem u guard now => passed node mem u guard (live node mem u guard now)
    | _ => trivial
  spared node mem u guard live := local_.spared node mem u guard (local_.live grows (mem_append_right _ mem) live)
  distinct := local_.distinct
  bounded := local_.bounded
  mine guard mem := Nat.lt_of_lt_of_le (local_.mine guard mem) grows.entered
  announced := local_.announced
  behind := Nat.le_trans local_.behind grows.epochs
  single := local_.single
  alone := local_.alone

theorem Inv.step (inv : s.Inv) (grows : s.Grows s') (records : s.records ⊆ s'.records)
    (threads : s'.threads = update s.threads t r) (stored : r.stored = true → t ∈ s'.records) (local_ : s'.Local r) : s'.Inv where
  positive := Nat.ne_of_gt (Nat.lt_of_lt_of_le (Nat.pos_of_ne_zero inv.positive) grows.epochs)
  stored u := by
    rw [threads]
    by_cases same : u = t
    · rw [same, update_self]
      exact stored
    · rw [update_of_ne same]
      exact fun has => records (inv.stored u has)
  each u := by
    rw [threads]
    by_cases same : u = t
    · rw [same, update_self]
      exact local_
    · rw [update_of_ne same]
      exact (inv.each u).mono grows

theorem grows_set (guards : r.guards = (s.threads t).guards) (epoch : r.activeEpoch = (s.threads t).activeEpoch) : s.Grows (s.set t r) := by
  refine ⟨Nat.le_refl _, Nat.le_refl _, fun u guard mem _ => ?_⟩
  by_cases same : u = t
  · subst same
    simp only [set, update_self] at mem ⊢
    exact ⟨guards ▸ mem, epoch⟩
  · simp only [set, update_of_ne same] at mem ⊢
    exact ⟨mem, trivial⟩

theorem Inv.set (inv : s.Inv) (guards : r.guards = (s.threads t).guards) (epoch : r.activeEpoch = (s.threads t).activeEpoch)
    (stored : r.stored = (s.threads t).stored) (local_ : s.Local r) : (s.set t r).Inv :=
  inv.step (grows_set guards epoch) (List.Subset.refl _) rfl (fun has => inv.stored t (stored ▸ has))
    (local_.mono (grows_set guards epoch))

theorem Local.plain (local_ : s.Local r) (phase : Phase) (reclaiming stored : Bool) (has : r.stored = true → stored = true)
    (passed : s.Passed r.pending phase) (alone : ∀ epoch, phase = .entering epoch → r.guards = [] ∧ stored = true) :
    s.Local { r with phase := phase, reclaiming := reclaiming, stored := stored } where
  known := local_.known
  early := local_.early
  passed := passed
  spared := local_.spared
  distinct := local_.distinct
  bounded := local_.bounded
  mine := local_.mine
  announced := fun some_ => (local_.announced some_).imp_right has
  behind := local_.behind
  single := local_.single
  alone := alone

theorem Local.tryAdvance (local_ : s.Local r) (force : Bool) : s.Local (r.tryAdvanceAndReclaim force) := by
  unfold ThreadRecord.tryAdvanceAndReclaim
  split
  · exact local_
  · exact local_.plain .advancing true r.stored id trivial nofun

theorem Local.partition (local_ : s.Local r) {minEpoch : Nat} (scanned : r.phase = .scanning [] minEpoch) :
    s.Local (r.partition minEpoch) := by
  have passed := local_.passed
  rw [scanned] at passed
  have perm := (perm_append_comm.trans (filter_append_perm (fun n => decide (n.retireEpoch < minEpoch)) r.pending)).map
    RetiredNode.id
  have part : (r.pending.map RetiredNode.id ++ r.reclaimed).Sublist ((r.pending ++ r.toReclaim).map RetiredNode.id ++ r.reclaimed) :=
    .append_right ((sublist_append_left _ _).map _) _
  constructor
  · intro node mem
    apply local_.known node
    rcases mem_append.mp mem with mem | mem <;> exact mem_append_left _ (mem_filter.mp mem).1
  · exact fun node mem => local_.early node (mem_filter.mp mem).1
  · trivial
  · intro node mem u guard live
    obtain ⟨mem, before⟩ := mem_filter.mp mem
    rcases passed node mem u guard live with late | nothing
    · exact absurd (of_decide_eq_true before) (Nat.not_lt.mpr late)
    · cases nothing
  · exact ((perm.append_right _).nodup_iff).mpr (local_.distinct.sublist part)
  · exact fun id mem => local_.bounded id (part.subset ((perm.append_right _).mem_iff.mp mem))
  · exact local_.mine
  · exact local_.announced
  · exact local_.behind
  · exact local_.single
  · nofun

theorem Inv.retires (inv : s.Inv) (ready : (s.threads t).Ready) : s.Local { s.threads t with
      pending := (s.threads t).pending ++ [⟨(s.threads t).retired, s.globalEpoch, fun t => (s.threads t).guards⟩]
      retired := (s.threads t).retired + 1 } := by
  have local_ := inv.each t
  have perm (node : RetiredNode) (pending toReclaim : List RetiredNode) (ids : List Nat) :
      ((pending ++ [node] ++ toReclaim).map RetiredNode.id ++ ids).Perm
        (node.id :: ((pending ++ toReclaim).map RetiredNode.id ++ ids)) := by
    simp only [map_append, append_assoc]
    exact perm_middle
  constructor
  · intro node mem u guard seen
    simp only [mem_append, mem_singleton] at mem
    rcases mem with (old | rfl) | old
    · exact local_.known node (mem_append_left _ old) u guard seen
    · exact (inv.each u).mine guard seen
    · exact local_.known node (mem_append_right _ old) u guard seen
  · intro node mem u guard live
    rcases mem_append.mp mem with old | new
    · exact local_.early node old u guard live
    · rw [mem_singleton.mp new]
      exact (inv.each u).behind
  · have idle := ready.2
    split at idle
    case h_1 phase =>
      simp only [phase]
      trivial
    case h_2 => cases idle
  · exact local_.spared
  · exact (perm _ _ _ _).nodup_iff.mpr (nodup_cons.mpr ⟨fun mem => Nat.lt_irrefl _ (local_.bounded _ mem), local_.distinct⟩)
  · intro id mem
    rcases mem_cons.mp ((perm _ _ _ _).mem_iff.mp mem) with rfl | old
    · exact lt_succ_self _
    · exact lt_succ_of_lt (local_.bounded id old)
  · exact local_.mine
  · exact local_.announced
  · exact local_.behind
  · exact local_.single
  · exact local_.alone

theorem Local.delete (local_ : s.Local r) {node : RetiredNode} {rest : List RetiredNode} (next : r.toReclaim = node :: rest) :
    s.Local { r with toReclaim := rest, reclaimed := r.reclaimed ++ [node.id] } := by
  have perm : ((r.pending ++ rest).map RetiredNode.id ++ (r.reclaimed ++ [node.id])).Perm
      ((r.pending ++ r.toReclaim).map RetiredNode.id ++ r.reclaimed) := by
    rw [next]
    simp only [map_append, append_assoc]
    refine .append_left _ ?_
    rw [← append_assoc]
    exact perm_append_singleton _ _
  have less : ∀ other ∈ r.pending ++ rest, other ∈ r.pending ++ r.toReclaim := by
    rw [next]
    exact fun other mem => (mem_append.mp mem).elim (mem_append_left _) fun mem =>
      mem_append_right _ (mem_cons_of_mem _ mem)
  exact
    { known := fun other mem => local_.known other (less other mem)
      early := local_.early
      passed := local_.passed
      spared := fun other mem => local_.spared other (next ▸ mem_cons_of_mem _ mem)
      distinct := perm.nodup_iff.mpr local_.distinct
      bounded := fun id mem => local_.bounded id (perm.mem_iff.mp mem)
      mine := local_.mine
      announced := local_.announced
      behind := local_.behind
      single := local_.single
      alone := local_.alone }

theorem Inv.live_stored (inv : s.Inv) {node : RetiredNode} {u guard : Nat} (live : s.Live node u guard) :
    (s.threads u).activeEpoch ≠ 0 ∧ (s.threads u).stored = true := (inv.each u).announced (ne_nil_of_mem live.2)

theorem Inv.enters (inv : s.Inv) {epoch : Nat} (phase : (s.threads t).phase = .entering epoch) :
    ({ s with entered := s.entered + 1 }.set t
      { s.threads t with activeEpoch := epoch, guards := s.entered :: (s.threads t).guards, phase := .idle }).Inv := by
  have local_ := inv.each t
  obtain ⟨nothing, stored⟩ := local_.alone epoch phase
  obtain ⟨nonzero, behind⟩ : epoch ≠ 0 ∧ epoch ≤ s.globalEpoch := by
    have passed := local_.passed
    rwa [phase] at passed
  have grows : s.Grows ({ s with entered := s.entered + 1 }.set t
      { s.threads t with activeEpoch := epoch, guards := s.entered :: (s.threads t).guards, phase := .idle }) := by
    refine ⟨Nat.le_refl _, Nat.le_succ _, fun u guard mem old => ?_⟩
    by_cases same : u = t
    · subst same
      simp only [State.set, update_self, nothing, mem_singleton] at mem
      exact absurd mem (Nat.ne_of_lt old)
    · simp only [State.set, update_of_ne same] at mem ⊢
      exact ⟨mem, trivial⟩
  have moved := local_.mono grows
  refine inv.step grows (List.Subset.refl _) rfl (fun _ => inv.stored t stored)
    { moved with passed := trivial, mine := ?_, announced := fun _ => ⟨nonzero, stored⟩, behind := behind, single := ?_, alone := nofun }
  · rw [nothing]
    exact forall_mem_singleton.mpr (lt_succ_self _)
  · rw [nothing]
    exact Nat.le_refl _

theorem Inv.leaves (inv : s.Inv) {guard : Nat} (mem : guard ∈ (s.threads t).guards) :
    (s.set t { s.threads t with activeEpoch := 0, guards := (s.threads t).guards.erase guard }).Inv := by
  have local_ := inv.each t
  have empty : (s.threads t).guards.erase guard = [] := by
    apply eq_nil_of_length_eq_zero
    rw [length_erase_of_mem mem]
    exact Nat.sub_eq_zero_of_le local_.single
  rw [empty]
  have grows : s.Grows (s.set t { s.threads t with activeEpoch := 0, guards := [] }) := by
    refine ⟨Nat.le_refl _, Nat.le_refl _, fun u other mem _ => ?_⟩
    by_cases same : u = t
    · subst same
      simp only [State.set, update_self] at mem
      cases mem
    · simp only [State.set, update_of_ne same] at mem ⊢
      exact ⟨mem, trivial⟩
  exact inv.step grows (List.Subset.refl _) rfl (inv.stored t)
    { local_.mono grows with
      mine := nofun, announced := fun some_ => absurd rfl some_, behind := zero_le _, single := zero_le _,
      alone := fun epoch phase => ⟨rfl, (local_.alone epoch phase).2⟩ }

theorem Inv.access (inv : s.Inv) (acted : s.access t = some s') : s'.Inv := by
  have local_ := inv.each t
  have passed := local_.passed
  have moves (phase : Phase) (passed : s.Passed (s.threads t).pending phase) (plain : ∀ epoch, phase ≠ .entering epoch) :
      (s.set t { s.threads t with phase := phase }).Inv :=
    inv.set rfl rfl rfl (local_.plain phase _ _ id passed fun epoch same => absurd same (plain epoch))
  unfold State.access at acted
  cases phase : (s.threads t).phase with
  | idle => simp [phase] at acted
  | entering epoch =>
    simp only [phase, Option.some.injEq] at acted
    subst acted
    exact inv.enters phase
  | advancing =>
    simp only [phase, Option.some.injEq] at acted
    subst acted
    have grows : s.Grows ({ s with globalEpoch := s.globalEpoch + 1 }.set t { s.threads t with phase := .counting }) :=
      { (grows_set (t := t) (r := { s.threads t with phase := .counting }) rfl rfl : s.Grows _) with epochs := le_succ _ }
    exact inv.step grows (List.Subset.refl _) rfl (inv.stored t) ((local_.plain .counting _ _ id trivial nofun).mono grows)
  | counting =>
    simp only [phase, Option.some.injEq] at acted
    subst acted
    exact moves _ (fun node mem u guard live => inv.stored u (inv.live_stored live).2) nofun
  | minimum todo =>
    simp only [phase, Option.some.injEq] at acted
    subst acted
    rw [phase] at passed
    exact moves _ (fun node mem u guard live => .inr (passed node mem u guard live)) nofun
  | scanning todo minEpoch =>
    cases todo with
    | nil =>
      simp only [phase, Option.some.injEq] at acted
      subst acted
      exact inv.set rfl rfl rfl (local_.partition phase)
    | cons record todo =>
      simp only [phase, Option.some.injEq] at acted
      subst acted
      rw [phase] at passed
      split
      case isTrue => exact moves _ passed nofun
      case isFalse missing =>
        refine moves _ (fun node mem u guard live => (passed node mem u guard live).imp_right fun left => ?_) nofun
        rcases mem_cons.mp left with rfl | later
        · exact absurd (inv.live_stored live).2 missing
        · exact later
  | loading record todo minEpoch =>
    simp only [phase, Option.some.injEq] at acted
    subst acted
    rw [phase] at passed
    refine moves _ (fun node mem u guard live => ?_) nofun
    have least : (if (s.threads record).activeEpoch ≠ 0 ∧ (s.threads record).activeEpoch < minEpoch then
        (s.threads record).activeEpoch else minEpoch) ≤ minEpoch := by
      split <;> omega
    rcases passed node mem u guard live with late | left
    · exact .inl (Nat.le_trans least late)
    rcases mem_cons.mp left with rfl | later
    · left
      have early := local_.early node mem u guard live
      have nonzero := (inv.live_stored live).1
      split <;> omega
    · exact .inr later

def Unnested (s : State) : Action → Prop
  | .enter t => (s.threads t).guards = []
  | _ => True

instance : ∀ (s : State) (action : Action), Decidable (s.Unnested action)
  | s, .enter t => inferInstanceAs (Decidable ((s.threads t).guards = []))
  | _, .register _ | _, .store _ | _, .leave _ _ | _, .retire _ | _, .forceDrain _ | _, .access _ | _, .delete _ | _, .finish _ =>
    .isTrue trivial

theorem Inv.act (inv : s.Inv) {action : Action} (unnested : s.Unnested action) (acted : s.act action = some s') : s'.Inv := by
  cases action with
  | register t =>
    simp only [State.act, Option.ite_none_right_eq_some, Option.some.injEq] at acted
    obtain ⟨_, rfl⟩ := acted
    have grows : s.Grows { s with records := s.records ++ [t] } := ⟨Nat.le_refl _, Nat.le_refl _, fun _ _ mem _ => ⟨mem, rfl⟩⟩
    exact inv.step grows (subset_append_left _ _) (Function.update_eq_self t s.threads).symm
      (fun has => mem_append_left _ (inv.stored t has)) ((inv.each t).mono grows)
  | store t =>
    simp only [State.act, Option.ite_none_right_eq_some, Option.some.injEq] at acted
    obtain ⟨⟨slot, _⟩, rfl⟩ := acted
    have local_ := inv.each t
    have grows := grows_set (s := s) (t := t) (r := { s.threads t with stored := true }) rfl rfl
    exact inv.step grows (List.Subset.refl _) rfl (fun _ => slot)
      ((local_.plain _ _ true (fun _ => rfl) local_.passed fun epoch same => ⟨(local_.alone epoch same).1, rfl⟩).mono grows)
  | enter t =>
    simp only [State.act, Option.ite_none_right_eq_some, Option.some.injEq] at acted
    obtain ⟨ready, rfl⟩ := acted
    exact inv.set rfl rfl rfl ((inv.each t).plain (.entering s.globalEpoch) _ _ id ⟨inv.positive, Nat.le_refl _⟩
      fun _ _ => ⟨unnested, ready.1⟩)
  | leave t guard =>
    simp only [State.act, Option.ite_none_right_eq_some, Option.some.injEq] at acted
    obtain ⟨⟨_, mem⟩, rfl⟩ := acted
    exact inv.leaves mem
  | retire t =>
    simp only [State.act, Option.ite_none_right_eq_some, Option.some.injEq] at acted
    obtain ⟨ready, rfl⟩ := acted
    obtain ⟨guards, epoch, stored⟩ := ThreadRecord.tryAdvanceAndReclaim_keeps { s.threads t with
      pending := (s.threads t).pending ++ [⟨(s.threads t).retired, s.globalEpoch, fun t => (s.threads t).guards⟩]
      retired := (s.threads t).retired + 1 } false
    exact inv.set guards epoch stored ((inv.retires ready).tryAdvance false)
  | forceDrain t =>
    simp only [State.act, Option.ite_none_right_eq_some, Option.some.injEq] at acted
    obtain ⟨_, rfl⟩ := acted
    obtain ⟨guards, epoch, stored⟩ := (s.threads t).tryAdvanceAndReclaim_keeps true
    exact inv.set guards epoch stored ((inv.each t).tryAdvance true)
  | access t => exact inv.access acted
  | delete t =>
    simp only [State.act] at acted
    split at acted
    case h_1 => cases acted
    case h_2 node rest next =>
      simp only [Option.ite_none_right_eq_some, Option.some.injEq] at acted
      obtain ⟨_, rfl⟩ := acted
      exact inv.set rfl rfl rfl ((inv.each t).delete next)
  | finish t =>
    simp only [State.act, Option.ite_none_right_eq_some, Option.some.injEq] at acted
    obtain ⟨_, rfl⟩ := acted
    have local_ := inv.each t
    exact inv.set rfl rfl rfl (local_.plain _ false _ id local_.passed local_.alone)

theorem init_inv : ({} : State).Inv where
  positive := Nat.one_ne_zero
  stored := nofun
  each _ :=
    { known := nofun, early := nofun, passed := trivial, spared := nofun, distinct := nodup_nil, bounded := nofun, mine := nofun
      announced := fun some_ => absurd rfl some_, behind := zero_le _, single := zero_le _, alone := nofun }

end State

end NginBase.Memory.EpochReclaimer
