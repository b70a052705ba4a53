import NginBase.Execution.JobPool

namespace NginBase.Execution.JobPool

open Library Library.Interleaving List Option

/-- What a phase says about the memory: a block that is being popped is one, and a block that is being pushed already names
    the head that the push expects. -/
def Phase.Sound (next : Nat → Nat) : Phase → Prop
  | .popNext _ _ node => node ≠ 0
  | .popSwap _ _ node _ => node ≠ 0
  | .pushSwap _ node cur _ => next node = cur
  | _ => True

theorem Phase.Sound.update {next : Nat → Nat} {p : Phase} {node : Nat} (sound : p.Sound next)
    (off : ∀ c, node ∉ p.hands c) (value : Nat) : p.Sound (Function.update next node value) := by
  cases p with
  | pushSwap c other cur rest =>
    have differ : other ≠ node := by
      intro same
      apply off c
      simp [Phase.hands, same]
    exact (Function.update_of_ne differ _ _).trans sound
  | _ => exact sound

namespace State

/-- Every block is in one place: on the free list of its class, held, or in hands. -/
structure Placed (s : State) (lists : SizeClass → List Nat) : Prop where
  linked : ∀ c, Linked s.next (s.heads c) (lists c)
  whole : ∀ c, (lists c ++ (s.held c ++ s.hands c)).Perm (s.blocks c)
  distinct : ∀ c, (s.blocks c).Nodup
  classes : ∀ c d node, node ∈ s.blocks c → node ∈ s.blocks d → c = d
  nonzero : ∀ c, ∀ node ∈ s.blocks c, node ≠ 0
  sound : ∀ (t : Nat) p, s.threads[t]? = some p → p.Sound s.next

variable {s s' : State} {lists : SizeClass → List Nat} {c d : SizeClass} {t u node fresh : Nat} {p q : Phase}

section

variable (placed : s.Placed lists)

include placed

theorem Placed.nodup (c : SizeClass) : (lists c ++ (s.held c ++ s.hands c)).Nodup :=
  (placed.whole c).nodup_iff.mpr (placed.distinct c)

theorem Placed.of_list (mem : node ∈ lists c) : node ∈ s.blocks c :=
  (placed.whole c).subset (mem_append_left _ mem)

theorem Placed.of_held (mem : node ∈ s.held c) : node ∈ s.blocks c :=
  (placed.whole c).subset (mem_append_right _ (mem_append_left _ mem))

theorem Placed.of_hands (mem : node ∈ s.hands c) : node ∈ s.blocks c :=
  (placed.whole c).subset (mem_append_right _ (mem_append_right _ mem))

end

theorem mem_hands (found : s.threads[t]? = some p) (mem : node ∈ p.hands c) : node ∈ s.hands c :=
  mem_flatMap.mpr ⟨p, mem_of_getElem? found, mem⟩

section

variable (placed : s.Placed lists)

include placed

theorem Placed.off_lists (mem : node ∈ s.held c ++ s.hands c) (d : SizeClass) : node ∉ lists d := by
  intro listed
  have block : node ∈ s.blocks c := (placed.whole c).subset (mem_append_right _ mem)
  obtain rfl := placed.classes _ _ _ block (placed.of_list listed)
  exact disjoint_of_nodup_append (placed.nodup c) listed mem

theorem Placed.held_off_hands (held : node ∈ s.held c) : node ∉ s.hands d := by
  intro inHands
  obtain rfl := placed.classes _ _ _ (placed.of_held held) (placed.of_hands inHands)
  exact disjoint_of_nodup_append (List.Nodup.of_append_right (placed.nodup c)) held inHands

theorem Placed.hands_apart (first : s.threads[t]? = some p) (second : s.threads[u]? = some q) (differ : t ≠ u)
    (mine : node ∈ p.hands c) : node ∉ q.hands d := by
  intro theirs
  obtain rfl := placed.classes _ _ _ (placed.of_hands (mem_hands first mine)) (placed.of_hands (mem_hands second theirs))
  have moved := flatMap_set_perm first .idle (Phase.hands c)
  have apart := moved.nodup_iff.mpr (List.Nodup.of_append_right (List.Nodup.of_append_right (placed.nodup c)))
  apply disjoint_of_nodup_append apart mine
  apply mem_flatMap.mpr
  refine ⟨q, mem_of_getElem? (i := u) ?_, theirs⟩
  rw [getElem?_set_ne differ, second]

theorem Placed.apart : s.Apart where
  once c := List.Nodup.of_append_left (List.Nodup.of_append_right (placed.nodup c))
  classes c d node first second := placed.classes c d node (placed.of_held first) (placed.of_held second)
  free c d node held on :=
    placed.off_lists (List.mem_append_left _ held) d (((placed.linked d).onList_iff).mp on)
  kept c node block := by
    rw [(placed.linked c).onList_iff]
    simpa using (placed.whole c).symm.subset block

end

@[simp] theorem setThread_threads : (s.setThread t p).threads = s.threads.set t p := rfl

theorem hands_setThread (found : s.threads[t]? = some p) (c : SizeClass) :
    (p.hands c ++ (s.setThread t q).hands c).Perm (q.hands c ++ s.hands c) :=
  flatMap_set_perm found q (Phase.hands c)

theorem hands_setThread_same (found : s.threads[t]? = some p) (same : q.hands c = p.hands c) :
    ((s.setThread t q).hands c).Perm (s.hands c) :=
  flatMap_set_same found same

theorem sound_setThread {next : Nat → Nat} (old : ∀ (u : Nat) r, u ≠ t → s.threads[u]? = some r → r.Sound next)
    (new : q.Sound next) (u : Nat) (r : Phase) (found : (s.threads.set t q)[u]? = some r) : r.Sound next := by
  by_cases same : t = u
  · rw [getElem?_set] at found
    split at found
    · split at found
      · exact some.inj found ▸ new
      · simp at found
    · contradiction
  · rw [getElem?_set_ne same] at found
    exact old u r (Ne.symm same) found

section

variable (placed : s.Placed lists) (found : s.threads[t]? = some p) (same : ∀ c, q.hands c = p.hands c)

include placed found same

theorem Placed.setThread (new : q.Sound s.next) : (s.setThread t q).Placed lists where
  linked := placed.linked
  whole c := (((hands_setThread_same found (same c)).append_left _).append_left _).trans (placed.whole c)
  distinct := placed.distinct
  classes := placed.classes
  nonzero := placed.nonzero
  sound := sound_setThread (fun u r _ => placed.sound u r) new

theorem Placed.setNext (mine : node ∈ p.hands c) {value : Nat} (new : q.Sound (Function.update s.next node value)) :
    ((s.setNext node value).setThread t q).Placed lists where
  linked d := (placed.linked d).update (placed.off_lists (mem_append_right _ (mem_hands found mine)) d) value
  whole d := (((hands_setThread_same found (same d)).append_left _).append_left _).trans (placed.whole d)
  distinct := placed.distinct
  classes := placed.classes
  nonzero := placed.nonzero
  sound := sound_setThread
    (fun u r differ other => (placed.sound u r other).update (fun _ => placed.hands_apart found other (Ne.symm differ) mine) value)
    new

end

theorem Placed.write (placed : s.Placed lists) (held : node ∈ s.held c) (value : Nat) : (s.setNext node value).Placed lists where
  linked d := (placed.linked d).update (placed.off_lists (mem_append_left _ held) d) value
  whole := placed.whole
  distinct := placed.distinct
  classes := placed.classes
  nonzero := placed.nonzero
  sound t p found :=
    (placed.sound t p found).update (fun _ mine => placed.held_off_hands held (mem_hands found mine)) value

theorem popped_hands (c : SizeClass) (again : Bool) (node : Nat) (d : SizeClass) :
    (if node ≠ 0 then Phase.popNext c again node else if again then .fallback c else .refill c).hands d = [] := by
  repeat' split
  all_goals rfl

theorem Placed.popFrom (placed : s.Placed lists) (found : s.threads[t]? = some p) (empty : ∀ d, p.hands d = [])
    (again : Bool) : (s.popFrom t c again node).Placed lists := by
  apply placed.setThread found
  · intro d
    rw [popped_hands, empty]
  · split
    · assumption
    · split
      · trivial
      · trivial

theorem linked_update {next : Nat → Nat} {heads : SizeClass → Nat} {head : Nat} {list : List Nat}
    (all : ∀ d, Linked next (heads d) (lists d)) (new : Linked next head list) (d : SizeClass) :
    Linked next (Function.update heads c head d) (Function.update lists c list d) := by
  by_cases same : d = c
  · subst same
    simpa using new
  · simpa [same] using all d

theorem count_hands (found : s.threads[t]? = some p) (q : Phase) (c : SizeClass) (node : Nat) :
    (p.hands c).count node + ((s.threads.set t q).flatMap (Phase.hands c)).count node =
      (q.hands c).count node + (s.hands c).count node := by
  have moved := (hands_setThread (q := q) found c).count_eq node
  simpa [hands] using moved

section

variable (placed : s.Placed lists)

include placed

theorem Placed.count (c : SizeClass) (node : Nat) :
    (lists c).count node + ((s.held c).count node + (s.hands c).count node) = (s.blocks c).count node := by
  have whole := (placed.whole c).count_eq node
  simpa using whole

theorem Placed.pop {again : Bool} {next : Nat} (found : s.threads[t]? = some (.popSwap c again node next))
    (head : s.heads c = node) (unchanged : s.next node = next) :
    ∃ lists, ((s.setHead c next).setThread t (.popClear c node)).Placed lists := by
  have nonzero : node ≠ 0 := placed.sound t _ found
  have first := placed.linked c
  rw [head] at first
  obtain ⟨rest, split, linked⟩ := first.uncons nonzero
  rw [unchanged] at linked
  exists Function.update lists c rest
  constructor
  · exact linked_update placed.linked linked
  · intro d
    apply perm_iff_count.mpr
    intro n
    have whole := placed.count d n
    have moved := count_hands found (.popClear c node) d n
    by_cases same : d = c
    · subst same
      rw [split] at whole
      simp [Phase.hands, hands, State.setThread, setHead, count_cons] at moved whole ⊢
      omega
    · simp [Phase.hands, hands, State.setThread, setHead, same, Ne.symm same] at moved whole ⊢
      omega
  · exact placed.distinct
  · exact placed.classes
  · exact placed.nonzero
  · exact sound_setThread (fun u r _ => placed.sound u r) trivial

theorem Placed.give (found : s.threads[t]? = some (.popClear c node)) :
    (((s.setNext node 0).hold c node).setThread t .idle).Placed lists := by
  have mine : node ∈ (Phase.popClear c node).hands c := by simp [Phase.hands]
  have cleared : ((s.setNext node 0).setThread t (.popClear c node)).Placed lists := placed.setNext found (fun _ => rfl) mine trivial
  constructor
  · exact cleared.linked
  · intro d
    apply perm_iff_count.mpr
    intro n
    have whole := placed.count d n
    have moved := count_hands found .idle d n
    by_cases same : d = c
    · subst same
      simp [Phase.hands, hands, State.setThread, State.setNext, hold, count_cons] at moved whole ⊢
      omega
    · simp [Phase.hands, hands, State.setThread, State.setNext, hold, same, Ne.symm same] at moved whole ⊢
      omega
  · exact cleared.distinct
  · exact cleared.classes
  · exact cleared.nonzero
  · exact sound_setThread (fun u r differ other => (placed.sound u r other).update
      (fun _ => placed.hands_apart found other (Ne.symm differ) mine) 0) trivial

theorem Placed.takeBack (found : s.threads[t]? = some .idle) (held : node ∈ s.held c) :
    ((s.release c node).setThread t (.pushLoad c node none)).Placed lists := by
  constructor
  · exact placed.linked
  · intro d
    apply perm_iff_count.mpr
    intro n
    have whole := placed.count d n
    have moved := count_hands found (.pushLoad c node none) d n
    by_cases same : d = c
    · subst same
      have present : n = node → 0 < (s.held d).count n := by
        rintro rfl
        exact count_pos_iff.mpr held
      simp [Phase.hands, hands, State.setThread, release, count_cons, count_erase] at moved whole ⊢
      split_ifs at moved ⊢ <;> omega
    · simp [Phase.hands, hands, State.setThread, release, same, Ne.symm same] at moved whole ⊢
      omega
  · exact placed.distinct
  · exact placed.classes
  · exact placed.nonzero
  · exact sound_setThread (fun u r _ => placed.sound u r) trivial

theorem Placed.addBlocks {nodes : List Nat} (unused : s.Unused nodes) (found : s.threads[t]? = some p)
    (empty : ∀ d, p.hands d = []) (whole : q.hands c = nodes) (others : ∀ d, d ≠ c → q.hands d = [])
    (new : q.Sound s.next) : ((s.addBlocks c nodes).setThread t q).Placed lists := by
  constructor
  · exact placed.linked
  · intro d
    apply perm_iff_count.mpr
    intro n
    have before := placed.count d n
    have moved := count_hands found q d n
    rw [empty] at moved
    by_cases same : d = c
    · subst same
      rw [whole] at moved
      simp [hands, State.setThread, State.addBlocks] at moved before ⊢
      omega
    · rw [others d same] at moved
      simp [hands, State.setThread, State.addBlocks, same] at moved before ⊢
      omega
  · intro d
    by_cases same : d = c
    · subst same
      have apart : (nodes ++ s.blocks d).Nodup := by
        apply nodup_append'.mpr
        exact ⟨unused.1, placed.distinct d, fun n mem => (unused.2 n mem).2 d⟩
      simpa [State.setThread, State.addBlocks] using apart
    · simpa [State.setThread, State.addBlocks, same] using placed.distinct d
  · intro d e n first second
    by_cases mine : n ∈ nodes
    · have only : ∀ f, n ∈ ((s.addBlocks c nodes).setThread t q).blocks f → f = c := by
        intro f mem
        by_contra differ
        apply (unused.2 n mine).2 f
        simpa [State.setThread, State.addBlocks, differ] using mem
      rw [only d first, only e second]
    · have old : ∀ f, n ∈ ((s.addBlocks c nodes).setThread t q).blocks f → n ∈ s.blocks f := by
        intro f mem
        by_cases same : f = c
        · subst same
          simpa [State.setThread, State.addBlocks, mine] using mem
        · simpa [State.setThread, State.addBlocks, same] using mem
      exact placed.classes d e n (old d first) (old e second)
  · intro d n mem
    by_cases same : d = c
    · subst same
      have either : n ∈ nodes ∨ n ∈ s.blocks d := by
        simpa [State.setThread, State.addBlocks] using mem
      cases either with
      | inl added => exact (unused.2 n added).1
      | inr old => exact placed.nonzero d n old
    · apply placed.nonzero d n
      simpa [State.setThread, State.addBlocks, same] using mem
  · exact sound_setThread (fun u r _ => placed.sound u r) new

end

theorem length_slabBlocks (c : SizeClass) (slab : Nat) : (slabBlocks c slab).length = 64 := by
  simp [slabBlocks]

theorem Placed.refill (placed : s.Placed lists) (found : s.threads[t]? = some (.refill c))
    (unused : s.Unused (slabBlocks c fresh)) :
    ((s.addBlocks c (slabBlocks c fresh)).pushed t c (some (slabBlocks c fresh))).Placed lists := by
  cases blocks : slabBlocks c fresh with
  | nil =>
    have counted := length_slabBlocks c fresh
    simp [blocks] at counted
  | cons node rest =>
    rw [blocks] at unused
    apply placed.addBlocks unused found (fun _ => rfl)
    · simp [Phase.hands]
    · intro d differ
      simp [Phase.hands, Ne.symm differ]
    · trivial

theorem Placed.fallback (placed : s.Placed lists) (found : s.threads[t]? = some (.fallback c)) (unused : s.Unused [fresh]) :
    (((s.addBlocks c [fresh]).hold c fresh).setThread t .idle).Placed lists := by
  have added : ((s.addBlocks c [fresh]).setThread t (.popClear c fresh)).Placed lists := by
    apply placed.addBlocks unused found (fun _ => rfl)
    · simp [Phase.hands]
    · intro d differ
      simp [Phase.hands, Ne.symm differ]
    · trivial
  constructor
  · exact added.linked
  · intro d
    apply perm_iff_count.mpr
    intro n
    have before := placed.count d n
    have moved := count_hands found .idle d n
    by_cases same : d = c
    · subst same
      simp [Phase.hands, hands, State.setThread, State.addBlocks, hold, count_cons] at moved before ⊢
      omega
    · simp [Phase.hands, hands, State.setThread, State.addBlocks, hold, same] at moved before ⊢
      omega
  · exact added.distinct
  · exact added.classes
  · exact added.nonzero
  · exact sound_setThread (fun u r _ => placed.sound u r) trivial

theorem Placed.push (placed : s.Placed lists) {cur : Nat} {rest : Option (List Nat)}
    (found : s.threads[t]? = some (.pushSwap c node cur rest)) (head : s.heads c = cur) :
    ∃ lists, ((s.setHead c node).pushed t c rest).Placed lists := by
  have mine : node ∈ (Phase.pushSwap c node cur rest).hands c := by simp [Phase.hands]
  have nonzero : node ≠ 0 := placed.nonzero c node (placed.of_hands (mem_hands found mine))
  have names : s.next node = cur := placed.sound t _ found
  have first := placed.linked c
  rw [head, ← names] at first
  obtain ⟨q, same, kept, others, trivially⟩ : ∃ q : Phase, (s.setHead c node).pushed t c rest = (s.setHead c node).setThread t q ∧
      q.hands c = rest.getD [] ∧ (∀ d, d ≠ c → q.hands d = []) ∧ q.Sound s.next := by
    match rest with
    | none => exact ⟨.idle, rfl, rfl, fun _ _ => rfl, trivial⟩
    | some [] => exact ⟨.popLoad c true, rfl, rfl, fun _ _ => rfl, trivial⟩
    | some (next :: rest) =>
      exact ⟨.pushLoad c next (some rest), rfl, by simp [Phase.hands], fun d differ => by simp [Phase.hands, Ne.symm differ],
        trivial⟩
  rw [same]
  exists Function.update lists c (node :: lists c)
  constructor
  · exact linked_update placed.linked (first.push nonzero)
  · intro d
    apply perm_iff_count.mpr
    intro n
    have before := placed.count d n
    have moved := count_hands found q d n
    by_cases class_ : d = c
    · subst class_
      rw [kept] at moved
      simp [Phase.hands, hands, State.setThread, setHead, count_cons] at moved before ⊢
      omega
    · rw [others d class_] at moved
      simp [Phase.hands, hands, State.setThread, setHead, class_, Ne.symm class_] at moved before ⊢
      omega
  · exact placed.distinct
  · exact placed.classes
  · exact placed.nonzero
  · exact sound_setThread (fun u r _ => placed.sound u r) trivially

theorem start_placed (threads : Nat) : (start threads).Placed fun _ => [] where
  linked _ := rfl
  whole c := by simp [start, hands, flatMap_replicate, Phase.hands]
  distinct _ := nodup_nil
  classes _ _ _ mem := absurd mem not_mem_nil
  nonzero _ _ mem := absurd mem not_mem_nil
  sound t p found := by
    have idle : p = .idle := eq_of_mem_replicate (mem_of_getElem? found)
    rw [idle]
    trivial

theorem Placed.step (placed : s.Placed lists) {spurious : Bool} (unchanged : s.Unchanged (.step t spurious fresh))
    (stepped : s.step t spurious fresh = some s') : ∃ lists, s'.Placed lists := by
  unfold State.step at stepped
  cases found : s.threads[t]? with
  | none => simp [found] at stepped
  | some p =>
    rw [found] at stepped
    cases p with
    | idle => simp at stepped
    | popLoad c again =>
      obtain rfl := some.inj stepped
      exact ⟨lists, placed.popFrom found (fun _ => rfl) again⟩
    | popNext c again node =>
      obtain rfl := some.inj stepped
      have nonzero : node ≠ 0 := placed.sound t _ found
      exact ⟨lists, placed.setThread found (fun _ => rfl) nonzero⟩
    | popSwap c again node next =>
      simp only at stepped
      split at stepped
      case isTrue swapped =>
        obtain ⟨rfl, head⟩ := swapped
        obtain rfl := some.inj stepped
        exact placed.pop found head (unchanged _ found head)
      case isFalse =>
        obtain rfl := some.inj stepped
        exact ⟨lists, placed.popFrom found (fun _ => rfl) again⟩
    | popClear c node =>
      obtain rfl := some.inj stepped
      exact ⟨lists, placed.give found⟩
    | refill c =>
      simp only at stepped
      split at stepped
      case isTrue unused =>
        obtain rfl := some.inj stepped
        exact ⟨lists, placed.refill found unused⟩
      case isFalse => contradiction
    | fallback c =>
      simp only at stepped
      split at stepped
      case isTrue unused =>
        obtain rfl := some.inj stepped
        exact ⟨lists, placed.fallback found unused⟩
      case isFalse => contradiction
    | pushLoad c node rest =>
      obtain rfl := some.inj stepped
      exact ⟨lists, placed.setThread found (fun _ => rfl) trivial⟩
    | pushNext c node cur rest =>
      obtain rfl := some.inj stepped
      have mine : node ∈ (Phase.pushNext c node cur rest).hands c := by simp [Phase.hands]
      have named : Function.update s.next node cur node = cur := Function.update_self ..
      exact ⟨lists, placed.setNext (q := .pushSwap c node cur rest) found (fun _ => rfl) mine named⟩
    | pushSwap c node cur rest =>
      simp only at stepped
      split at stepped
      case isTrue swapped =>
        obtain rfl := some.inj stepped
        exact placed.push found swapped.2
      case isFalse =>
        obtain rfl := some.inj stepped
        exact ⟨lists, placed.setThread found (fun _ => rfl) trivial⟩

theorem Placed.act (placed : s.Placed lists) {action : Action} (unchanged : s.Unchanged action)
    (acted : s.act action = some s') : ∃ lists, s'.Placed lists := by
  cases action with
  | allocate t size alignment =>
    simp only [State.act] at acted
    split at acted
    case isTrue idle =>
      split at acted
      · obtain rfl := some.inj acted
        exact ⟨lists, placed.setThread idle (fun _ => rfl) trivial⟩
      · obtain rfl := some.inj acted
        exact ⟨lists, placed⟩
    case isFalse => contradiction
  | deallocate t size alignment node =>
    simp only [State.act] at acted
    split at acted
    case isTrue idle =>
      split at acted
      · split at acted
        case isTrue held =>
          obtain rfl := some.inj acted
          exact ⟨lists, placed.takeBack idle held⟩
        case isFalse => contradiction
      · obtain rfl := some.inj acted
        exact ⟨lists, placed⟩
    case isFalse => contradiction
  | step t spurious fresh => exact placed.step unchanged acted
  | write c node value =>
    simp only [State.act] at acted
    split at acted
    case isTrue held =>
      obtain rfl := some.inj acted
      exact ⟨lists, placed.write held value⟩
    case isFalse => contradiction

/-- As long as no `Pop` takes a head away whose next block is not the one it read, no block is given away twice. -/
theorem unchanged_apart (threads : Nat) (actions : List Action) (ran : run act (start threads) actions = some s)
    (unchanged : Along act Unchanged (start threads) actions) : s.Apart := by
  have kept : ∃ lists, s.Placed lists := by
    apply keeps _ unchanged ran ⟨_, start_placed threads⟩
    intro s action s' placed unchanged acted
    obtain ⟨lists, placed⟩ := placed
    exact placed.act unchanged acted
  obtain ⟨lists, placed⟩ := kept
  exact placed.apart

def steps (t count fresh : Nat) : List Action := replicate count (.step t false fresh)

def filled : List Action := .allocate 0 64 16 :: steps 0 198 64

theorem unchanged_apart_filled : (run act (start 2) filled).any (fun s => s.held .class64 = [4096]) = true ∧
    ∀ s, run act (start 2) filled = some s → s.Apart := by
  constructor
  · decide +kernel
  · intro s ran
    apply unchanged_apart 2 filled ran
    decide +kernel

/-- Thread 0 has read the head and its next block when thread 1 takes both and gives the head back. -/
def reused : List Action :=
  filled ++ .allocate 0 64 16 :: steps 0 2 0 ++ .allocate 1 64 16 :: steps 1 4 0 ++ .allocate 1 64 16 :: steps 1 4 0 ++
    .deallocate 1 64 16 4032 :: steps 1 3 0 ++ steps 0 2 0 ++ .allocate 0 64 16 :: steps 0 4 0

theorem reused_not_apart : ∃ s, run act (start 2) reused = some s ∧ ¬ s.Apart := by
  have twice : (run act (start 2) reused).any (fun s => ¬ (s.held .class64).Nodup) = true := by decide +kernel
  cases ran : run act (start 2) reused with
  | none => simp [ran] at twice
  | some s =>
    rw [ran] at twice
    refine ⟨s, rfl, fun apart => ?_⟩
    have given : ¬ (s.held .class64).Nodup := by simpa using twice
    exact given (apart.once _)

end State

end NginBase.Execution.JobPool
