import NginBase.Containers.ConcurrentReclamation

namespace NginBase.Containers.ConcurrentHashMap

open Library Heap List Task RetiredRecord Object Nat

variable {Key Value : Type}

section

variable {memory memory' : Memory Key Value} {roots : List Root}

/-- What a successful allocation leaves: the new objects have a root each, and the others are as they were. -/
structure Allocated (memory memory' : Memory Key Value) (roots : List Root) : Prop where
  sound : memory'.Sound
  owns : memory'.Owns buckets roots
  keeps : memory.Extends memory'

theorem Allocated.ne_root {root : Root} {a : Nat} (allocated : Allocated memory memory' (root :: roots))
    (owns : memory.Owns buckets roots) (mem : a ∈ memory.owned buckets roots) : root.address ≠ a := by
  apply allocated.owns.apart (address_mem_footprint root)
  rwa [owned_congr fun other inside => allocated.keeps.object _ (owns.root_alive inside)]

theorem chainNodes_extends {head : Nat} (more : memory.Extends memory') (living : head ≠ 0 → memory.live head = true) :
    chainNodes memory' head = chainNodes memory head := by
  unfold chainNodes
  split
  · rfl
  · rename_i nonzero
    rw [more.object head (living nonzero)]

section

variable (sound : memory.Sound) (owns : memory.Owns buckets roots)

include sound owns

theorem allocateChain_spec {address head : Nat} {nodes : List (Node Key Value)}
    (run : allocateChain memory address nodes = some (memory', head)) :
    Allocated memory memory' (leaves head ++ roots) ∧ chainNodes memory' head = nodes := by
  unfold allocateChain at run
  split at run
  · rename_i none_
    cases run
    exact ⟨⟨sound, owns, .refl _⟩, by simp [chainNodes, none_]⟩
  · split at run
    · rename_i free
      cases run
      constructor
      · rw [leaves_of_ne free.1]
        exact ⟨sound.allocate free, owns.allocate_leaf free, free.extends⟩
      · simp [chainNodes, free.1, Object.nodes]
    · cases run

theorem allocateChains_spec {choice : Nat → Nat} {chains : List (List (Node Key Value))} {i : Nat} {heads : List Nat}
    (run : allocateChains memory choice chains i = some (memory', heads)) :
    Allocated memory memory' ((heads.filter (· ≠ 0)).map .leaf ++ roots) ∧
      heads.map (chainNodes memory') = chains := by
  induction chains generalizing memory i heads roots with
  | nil =>
    cases run
    exact ⟨⟨sound, owns, .refl _⟩, rfl⟩
  | cons nodes chains step =>
    simp only [allocateChains, Option.bind_eq_bind, Option.bind_eq_some_iff, Option.pure_def, Option.some.injEq,
      Prod.exists, Prod.mk.injEq] at run
    obtain ⟨middle, head, first, last, others, rest, rfl, rfl⟩ := run
    obtain ⟨one, here⟩ := allocateChain_spec sound owns first
    obtain ⟨more, there⟩ := step one.sound one.owns rest
    constructor
    · refine ⟨more.sound, more.owns.perm ?_, one.keeps.trans more.keeps⟩
      by_cases null : head = 0
      · simp [null]
      · simp only [leaves_of_ne null, filter_cons, null, ne_eq, not_false_eq_true, decide_true, if_true,
          map_cons, cons_append, nil_append]
        exact perm_middle
    · have living : head ≠ 0 → middle.live head = true := by
        intro nonzero
        rw [leaves_of_ne nonzero] at one
        exact one.owns.root_alive (mem_cons_self ..)
      rw [map_cons, there, chainNodes_extends more.keeps living, here]

theorem allocateTable_spec {choice : Nat → Nat} {chains : List (List (Node Key Value))} {table : Nat}
    (run : allocateTable memory choice chains = some (memory', table)) :
    Allocated memory memory' (.node table 0 :: roots) ∧ table ≠ 0 ∧
      (memory'.object table).buckets.map (chainNodes memory') = chains := by
  simp only [allocateTable, Option.bind_eq_bind, Option.bind_eq_some_iff, Prod.exists] at run
  obtain ⟨middle, heads, first, last⟩ := run
  split at last
  · rename_i free
    cases last
    obtain ⟨many, here⟩ := allocateChains_spec sound owns first
    refine ⟨⟨many.sound.allocate free, many.owns.allocate_node free, many.keeps.trans free.extends⟩, free.1, ?_⟩
    rw [← here, allocate_object_self]
    apply map_congr_left
    intro head mem
    apply chainNodes_extends free.extends
    intro nonzero
    have root : Root.leaf head ∈ (heads.filter (· ≠ 0)).map .leaf ++ roots := by
      simp only [buckets] at mem
      simp [mem, nonzero]
    exact many.owns.root_alive root
  · cases last

end

end

/-- The writer has a task before it, and others behind that one. -/
def Shard.Head (s : Shard Key Value) (w : Writer Key Value) (task : Task Key Value) (rest : List (Task Key Value)) : Prop :=
  s.writer = some w ∧ w.todo = task :: rest

namespace Safe

variable {policy : ReclamationPolicy} {s t : Shard Key Value} {w : Writer Key Value} {task : Task Key Value}
  {rest l : List (Task Key Value)}

section

theorem fits_of_no_locals {memory : Memory Key Value} {table : Nat} (none_ : task.hasLocals = false) :
    task.Fits memory table := by
  cases task <;> first | trivial | cases none_

theorem destroys_of_writes (changes : task.writes = true) : task.destroys = false := by
  cases task <;> first | rfl | cases changes

theorem destroys_of_reclaims (inside : task.reclaims = true) : task.destroys = false := by
  cases task <;> first | rfl | cases inside

theorem writes_of_hasLocals (carries : task.hasLocals = true) : task.writes = true := by
  cases task <;> first | rfl | cases carries

variable {difference : Int} {tasks : List (Task Key Value)}

theorem counts_append : counts difference (tasks ++ rest) = counts difference tasks ++ rest := by
  unfold counts
  split <;> rfl

theorem mem_counts (mem : task ∈ counts difference tasks) : task = .count difference ∨ task ∈ tasks := by
  unfold counts at mem
  split at mem
  · exact .inr mem
  · exact mem_cons.mp mem

theorem counts_roots : (counts difference tasks).flatMap roots = tasks.flatMap roots := by
  unfold counts
  split
  · rfl
  · simp [roots]

theorem counts_records : (counts difference tasks).flatMap records = tasks.flatMap records := by
  unfold counts
  split
  · rfl
  · simp [records]

end

theorem writer_step (safe : Safe policy s) (todo : s.todo = task :: rest) (pushed : t.todo = l ++ rest)
    (same : t.readers = s.readers ∧ t.records = s.records) (epoch : s.epoch ≤ t.epoch)
    (sound : t.memory.Sound) (owns : t.memory.Owns buckets t.roots) (covered : ∀ i, (s.readers i).Covered t.memory t.roots)
    (newFits : ∀ other ∈ l, other.Fits t.memory t.table) (newOrder : l.Pairwise Before)
    (newWrites : ∀ other ∈ l, other.writes = true → task.writes = true)
    (restFits : task.writes = true ∨ t.table = s.table ∧ t.memory.object s.table = s.memory.object s.table)
    (epochs : policy = .localEpoch → ∀ record ∈ t.pending, record ∈ s.pending ∨ s.epoch ≤ record.retireEpoch)
    (spares : ∀ i, ∀ other ∈ l, other.Spares policy i (s.readers i))
    (newReclaims : ∀ other ∈ l, other.reclaims = true → t.retired = [])
    (newDestroys : task.destroys = true → t.retired = s.retired ∧ ∀ other ∈ l, other.destroys = true) : Safe policy t := by
  obtain ⟨readers, records⟩ := same
  have order := safe.ordered
  rw [todo, pairwise_cons] at order
  have old : ∀ other ∈ rest, other ∈ s.todo := by
    intro other mem
    rw [todo]
    exact mem_cons_of_mem _ mem
  constructor
  · exact sound
  · exact owns
  · intro other mem
    rw [pushed] at mem
    rcases mem_append.mp mem with fresh | later
    · exact newFits other fresh
    rcases restFits with writes | ⟨table, object⟩
    · exact fits_of_no_locals ((order.1 other later).1 writes)
    have fits := safe.fits other (old other later)
    cases other with
    | publishTable replacement current counted => exact fits.trans table.symm
    | storeBucket place index newHead oldHead =>
      obtain ⟨same, found⟩ := fits
      subst same
      rw [← object] at found
      exact ⟨table.symm, found⟩
    | _ => trivial
  · rw [pushed, pairwise_append]
    refine ⟨newOrder, order.2, ?_⟩
    intro first mem second later
    obtain ⟨noLocals, destroys⟩ := order.1 second later
    exact ⟨fun writes => noLocals (newWrites first mem writes),
      fun reclaims => (newDestroys (destroys reclaims)).2 first mem⟩
  · intro other mem reclaims
    rw [pushed] at mem
    rcases mem_append.mp mem with fresh | later
    · exact newReclaims other fresh reclaims
    · rw [(newDestroys ((order.1 other later).2 reclaims)).1]
      exact safe.emptied other (old other later) reclaims
  · rw [records]
    exact safe.distinct
  · rw [readers, records]
    exact safe.linked
  · rw [readers]
    exact safe.readers
  · rw [readers]
    exact covered
  · rw [readers]
    exact fun i => (safe.entered i).trans epoch
  · rw [readers]
    intro policy_ i record mem touched
    rcases epochs policy_ record mem with waits | recent
    · exact safe.epochs policy_ i record waits touched
    · exact (safe.entered i).trans recent
  · rw [readers, pushed]
    intro i other mem
    rcases mem_append.mp mem with fresh | later
    · exact spares i other fresh
    · exact safe.spares i other (old other later)

theorem writer_moves (safe : Safe policy s) (todo : s.todo = task :: rest) (pushed : t.todo = l ++ rest)
    (same : t.memory = s.memory ∧ t.readers = s.readers ∧ t.records = s.records) (epoch : s.epoch ≤ t.epoch)
    (roots : s.roots.Perm t.roots)
    (plain : ∀ other ∈ l, other.writes = false) (restFits : task.writes = true ∨ t.table = s.table)
    (epochs : policy = .localEpoch → ∀ record ∈ t.pending, record ∈ s.pending ∨ s.epoch ≤ record.retireEpoch)
    (spares : ∀ i, ∀ other ∈ l, other.Spares policy i (s.readers i)) (steady : task.destroys = false)
    (newOrder : l.Pairwise fun first second => second.reclaims = true → first.destroys = true)
    (newReclaims : ∀ other ∈ l, other.reclaims = true → t.retired = []) : Safe policy t := by
  obtain ⟨memory, readers, records⟩ := same
  have noLocals : ∀ other ∈ l, other.hasLocals = false := by
    intro other mem
    cases carries : other.hasLocals with
    | false => rfl
    | true =>
      rw [← plain other mem]
      exact (writes_of_hasLocals carries).symm
  apply safe.writer_step todo pushed ⟨readers, records⟩ epoch
  · rw [memory]
    exact safe.sound
  · rw [memory]
    exact safe.owns.perm roots
  · intro i
    rw [memory]
    exact (safe.covered i).mono (fun root mem _ => roots.mem_iff.mp mem) (fun _ _ => rfl) (fun _ _ => rfl)
  · exact fun other mem => fits_of_no_locals (noLocals other mem)
  · apply newOrder.imp_of_mem
    exact fun _ mem destroys => ⟨fun _ => noLocals _ mem, destroys⟩
  · intro other mem writes
    rw [plain other mem] at writes
    cases writes
  · exact restFits.imp_right fun table => ⟨table, by rw [memory]⟩
  · exact epochs
  · exact spares
  · exact newReclaims
  · rw [steady]
    exact nofun

section

variable (head : s.Head w task rest)

include head

theorem todo_eq : s.todo = task :: rest := by
  unfold Shard.todo
  rw [head.1]
  exact head.2

theorem roots_eq : s.roots = .node s.table 0 :: (s.retired.map root ++ (task.roots ++ rest.flatMap roots)) := by
  simp [Shard.roots, todo_eq head]

theorem pending_eq : s.pending = s.retired ++ (task.records ++ rest.flatMap records) := by
  simp [Shard.pending, todo_eq head]

end

section

section

variable (safe : Safe policy s)

include safe

/-- Tasks that leave the memory and the table alone may hand on what they hold. -/
theorem goes_on {t : Shard Key Value} (head : s.Head w task rest)
    (pushed : t.todo = l ++ rest)
    (same : t.memory = s.memory ∧ t.table = s.table ∧ t.records = s.records ∧ t.readers = s.readers)
    (epoch : s.epoch ≤ t.epoch) (roots : (s.retired.map root ++ task.roots).Perm (t.retired.map root ++ l.flatMap roots))
    (records : t.retired ++ l.flatMap records ⊆ s.retired ++ task.records)
    (plain : ∀ other ∈ l, other.writes = false) (spares : ∀ i, ∀ other ∈ l, other.Spares policy i (s.readers i))
    (steady : task.destroys = false)
    (newOrder : l.Pairwise fun first second => second.reclaims = true → first.destroys = true)
    (newReclaims : ∀ other ∈ l, other.reclaims = true → t.retired = []) : Safe policy t := by
  obtain ⟨memory, table, records', readers⟩ := same
  apply safe.writer_moves (todo_eq head) pushed ⟨memory, readers, records'⟩ epoch _ plain (.inr table) _ spares steady
    newOrder newReclaims
  · rw [roots_eq head, Shard.roots, table, pushed, flatMap_append, ← append_assoc, ← append_assoc]
    exact (roots.append_right _).cons _
  · intro _ record mem
    left
    rw [Shard.pending, pushed, flatMap_append, ← append_assoc] at mem
    rw [pending_eq head, ← append_assoc]
    exact (mem_append.mp mem).elim (fun here => mem_append_left _ (records here)) (mem_append_right _)

theorem skips {t : Shard Key Value} (head : s.Head w task rest)
    (same : t.memory = s.memory ∧ t.table = s.table ∧ t.records = s.records ∧ t.readers = s.readers)
    (kept : t.epoch = s.epoch ∧ t.retired = s.retired) (next : t.todo = rest) (noRoots : task.roots = [])
    (steady : task.destroys = false) : Safe policy t := by
  apply safe.goes_on head (l := []) next same kept.1.ge
  · rw [noRoots, kept.2]
    exact .refl _
  · simp [kept.2]
  · simp
  · simp
  · exact steady
  · exact .nil
  · simp

theorem table_ne_zero : s.table ≠ 0 := by
  intro null
  have living : s.memory.live s.table = true := safe.owns.root_alive (mem_cons_self ..)
  rw [null, safe.sound.null] at living
  cases living

theorem head_fits (head : s.Head w task rest) : task.Fits s.memory s.table := by
  apply safe.fits
  rw [todo_eq head]
  exact mem_cons_self ..

theorem head_spares (head : s.Head w task rest) (i : Nat) :
    task.Spares policy i (s.readers i) := by
  apply safe.spares
  rw [todo_eq head]
  exact mem_cons_self ..

theorem head_emptied (head : s.Head w task rest) (inside : task.reclaims = true) :
    s.retired = [] := by
  apply safe.emptied task _ inside
  rw [todo_eq head]
  exact mem_cons_self ..

theorem publishes_table {replacement current counted n : Nat} (head : s.Head w (.publishTable replacement current counted) rest) :
    Safe policy ({ s with table := replacement }.proceed w
      (.storeBucketCount n :: counts (-counted) (.retire current .table :: rest))) := by
  obtain rfl : current = s.table := safe.head_fits head
  apply safe.writer_moves (todo_eq head) (l := .storeBucketCount n :: counts (-counted) [.retire s.table .table])
  · rw [cons_append, ← counts_append]
    rfl
  · exact ⟨rfl, rfl, rfl⟩
  · exact le_refl _
  · rw [roots_eq head]
    simp only [Shard.roots, Shard.todo, Shard.proceed, flatMap_cons, counts_roots, roots, nil_append,
      rootsOf, safe.table_ne_zero, if_false, cons_append, root, rootFrom]
    apply Perm.trans _ (Perm.cons _ perm_middle.symm)
    apply Perm.trans (Perm.cons _ perm_middle)
    exact Perm.swap _ _ _
  · intro other mem
    rcases mem_cons.mp mem with rfl | later
    · rfl
    rcases mem_counts later with rfl | last
    · rfl
    · obtain rfl := mem_singleton.mp last
      rfl
  · exact .inl rfl
  · intro _ record mem
    left
    rw [pending_eq head]
    simpa [Shard.pending, Shard.todo, Shard.proceed, counts_records, records] using mem
  · intro i other mem
    rcases mem_cons.mp mem with rfl | later
    · trivial
    rcases mem_counts later with rfl | last
    · trivial
    · obtain rfl := mem_singleton.mp last
      trivial
  · rfl
  · unfold counts
    split <;> simp [reclaims]
  · unfold counts
    split <;> simp [reclaims]

theorem retires {object epoch : Nat} {deleter : Deleter} (head : s.Head w (.retire object deleter) rest) (nonzero : object ≠ 0) (now : policy = .localEpoch → epoch = s.epoch) :
    Safe policy ({ s with retired := ⟨object, deleter, epoch⟩ :: s.retired }.proceed w rest) := by
  apply safe.writer_moves (todo_eq head) (l := [])
  · rfl
  · exact ⟨rfl, rfl, rfl⟩
  · exact le_refl _
  · rw [roots_eq head]
    simp only [roots, rootsOf, nonzero]
    exact Perm.cons _ perm_middle
  · simp
  · exact .inr rfl
  · intro epochs record mem
    rcases mem_cons.mp mem with rfl | waits
    · right
      rw [now epochs]
    · left
      rw [pending_eq head]
      exact waits
  · simp
  · rfl
  · simp
  · simp

theorem takes_records {criterion : Criterion} (head : s.Head w task rest)
    (noRoots : task.roots = []) (noRecords : task.records = []) (steady : task.destroys = false)
    (spares : ∀ i, (reclaimIf criterion s.retired [] : Task Key Value).Spares policy i (s.readers i)) :
    Safe policy ({ s with retired := [] }.proceed w (.reclaimIf criterion s.retired [] :: rest)) := by
  apply safe.goes_on head (l := [.reclaimIf criterion s.retired []])
  · rfl
  · exact ⟨rfl, rfl, rfl, rfl⟩
  · exact le_refl _
  · rw [noRoots]
    simp [Shard.proceed, roots]
  · simp [Shard.proceed, records]
  · simp [writes]
  · simpa using spares
  · exact steady
  · simp
  · exact fun _ _ _ => rfl

theorem touched_epoch {i a : Nat} (touched : (s.readers i).Touches a) : s.minimumActiveEpoch ≤ (s.readers i).epoch := by
  have linked := safe.touches_linked touched
  have bound : ∀ (records : List Nat) (minimum : Nat),
      records.foldl (fun minimum i => min minimum (s.readers i).epoch) minimum ≤ minimum ∧
        ∀ i ∈ records, records.foldl (fun minimum i => min minimum (s.readers i).epoch) minimum ≤ (s.readers i).epoch := by
    intro records
    induction records with
    | nil => simp
    | cons j records step =>
      intro minimum
      obtain ⟨below, each⟩ := step (min minimum (s.readers j).epoch)
      constructor
      · exact below.trans (min_le_left _ _)
      · intro i mem
        rcases mem_cons.mp mem with rfl | later
        · exact below.trans (min_le_right _ _)
        · exact each i later
  exact (bound s.records s.epoch).2 i linked

end

/-- A task that reclaims goes on with the records it holds. -/
theorem reclaims_on (l : List (Task Key Value)) (safe : Safe policy s) (head : s.Head w task rest) (inside : task.reclaims = true) (roots : task.roots.Perm (l.flatMap roots))
    (records : l.flatMap records ⊆ task.records) (plain : ∀ other ∈ l, other.writes = false)
    (order : l.Pairwise fun first second => second.reclaims = true → first.destroys = true)
    (spares : ∀ i, ∀ other ∈ l, other.Spares policy i (s.readers i)) : Safe policy (s.proceed w (l ++ rest)) := by
  apply safe.goes_on head (l := l) (t := s.proceed w (l ++ rest)) rfl ⟨rfl, rfl, rfl, rfl⟩ (le_refl _)
  · exact roots.append_left _
  · exact append_subset.mpr ⟨subset_append_left _ _, fun _ mem => mem_append_right _ (records mem)⟩
  · exact plain
  · exact spares
  · exact destroys_of_reclaims inside
  · exact order
  · exact fun _ _ _ => safe.head_emptied head inside

variable {record : RetiredRecord} {current survivors : List RetiredRecord}

variable {criterion : Criterion}

variable (criterion) in
theorem keeps_record (safe : Safe policy s) (head : s.Head w task rest)
    (inside : task.reclaims = true) (roots : task.roots = ((record :: current) ++ survivors).map root)
    (records : task.records = (record :: current) ++ survivors)
    (spares : ∀ i, (reclaimIf criterion current (record :: survivors) : Task Key Value).Spares policy i (s.readers i)) :
    Safe policy (s.proceed w (.reclaimIf criterion current (record :: survivors) :: rest)) := by
  apply safe.reclaims_on [.reclaimIf criterion current (record :: survivors)] head inside
  · rw [roots]
    simpa [Task.roots] using (@perm_middle _ record current survivors).symm.map root
  · rw [records]
    simpa [Task.records] using (@perm_middle _ record current survivors).subset
  · simp [writes]
  · simp
  · simpa using spares

variable (criterion) in
theorem condemns (safe : Safe policy s) (head : s.Head w task rest)
    (inside : task.reclaims = true) (roots : task.roots = ((record :: current) ++ survivors).map root)
    (records : task.records = (record :: current) ++ survivors) (untouched : ∀ i, ¬ (s.readers i).Touches record.object)
    (spares : ∀ i, (Task.reclaimIf criterion current survivors : Task Key Value).Spares policy i (s.readers i)) :
    Safe policy (s.proceed w (.destroy record 0 :: .reclaimIf criterion current survivors :: rest)) := by
  apply safe.reclaims_on [.destroy record 0, .reclaimIf criterion current survivors] head inside
  · rw [roots]
    simp [Task.roots, root]
  · rw [records]
    simp [Task.records]
  · simp [Task.writes]
  · simp [Task.destroys]
  · simpa using fun i => ⟨untouched i, spares i⟩

theorem scans {slots : List (Nat × HazardSlot)} (safe : Safe policy s) (head : s.Head w task rest) (inside : task.reclaims = true)
    (roots : task.roots = ((record :: current) ++ survivors).map root)
    (records : task.records = (record :: current) ++ survivors)
    (spares : ∀ i, (Task.isHazard record slots current survivors : Task Key Value).Spares policy i (s.readers i)) :
    Safe policy (s.proceed w (.isHazard record slots current survivors :: rest)) := by
  apply safe.reclaims_on [.isHazard record slots current survivors] head inside
  · rw [roots]
    exact .of_eq (by simp [Task.roots])
  · rw [records]
    simp [Task.records]
  · simp [Task.writes]
  · simp
  · simpa using spares

theorem polls (safe : Safe .localEpoch s) (head : s.Head w .poll rest) :
    Safe .localEpoch ({ s with epoch := s.epoch + 1 }.proceed w (.minimumActiveEpoch :: rest)) := by
  apply safe.goes_on head (l := [.minimumActiveEpoch])
  · rfl
  · exact ⟨rfl, rfl, rfl, rfl⟩
  · exact le_succ _
  · exact .refl _
  · exact Subset.refl _
  · simp [writes]
  · simp [Spares]
  · rfl
  · simp
  · simp [reclaims]

theorem touched_retired {i : Nat} {record : RetiredRecord} (safe : Safe policy s) (epochs : policy = .localEpoch)
    (mem : record ∈ s.retired) (touched : (s.readers i).Touches record.object) : (s.readers i).epoch ≤ record.retireEpoch :=
  safe.epochs epochs i record (mem_append_left _ mem) touched

theorem returns_records (safe : Safe policy s) (head : s.Head w (.reclaimIf criterion [] survivors) rest) :
    Safe policy ({ s with retired := survivors }.proceed w rest) := by
  have emptied := safe.head_emptied head rfl
  apply safe.goes_on head (l := [])
  · rfl
  · exact ⟨rfl, rfl, rfl, rfl⟩
  · exact le_refl _
  · simp [Shard.proceed, emptied, roots]
  · simp [Shard.proceed, records]
  · simp
  · simp
  · rfl
  · exact .nil
  · simp

theorem hazardSlots_mem {i : Nat} (linked : i ∈ s.records) (slot : HazardSlot) : (i, slot) ∈ s.hazardSlots := by
  apply mem_flatMap.mpr ⟨i, linked, _⟩
  cases slot <;> simp

theorem reclaims_next [DecidableEq Key] {choice : Nat → Nat} (safe : Safe policy s) (head : s.Head w (.reclaimIf criterion (record :: current) survivors) rest)
    (step : s.perform policy choice w rest (.reclaimIf criterion (record :: current) survivors) = some t) :
    Safe policy t := by
  have spares := safe.head_spares head
  cases criterion with
  | below minimum =>
    simp only [Shard.perform] at step
    split at step
    · rename_i before
      cases step
      apply safe.condemns _ head rfl rfl rfl
      · exact fun i touched => absurd (spares i record (mem_cons_self ..) touched) (not_le_of_gt before)
      · exact fun i other mem => spares i other (mem_cons_of_mem _ mem)
    · cases step
      exact safe.keeps_record _ head rfl rfl rfl fun i other mem => spares i other (mem_cons_of_mem _ mem)
  | unguarded =>
    cases step
    apply safe.scans head rfl rfl rfl
    intro i
    refine ⟨spares i, ?_, ?_⟩
    · exact fun held holder _ => hazardSlots_mem (safe.touches_linked (Reader.touches_table holder)) _
    · exact fun held holder _ => hazardSlots_mem (safe.touches_linked (Reader.touches_chain holder)) _
  | everything =>
    cases step
    apply safe.condemns _ head rfl rfl rfl
    · exact fun i => spares i record (mem_cons_self ..)
    · exact fun i other mem => spares i other (mem_cons_of_mem _ mem)

theorem scans_next {slots : List (Nat × HazardSlot)} [DecidableEq Key] {choice : Nat → Nat} (safe : Safe policy s) (head : s.Head w (.isHazard record slots current survivors) rest)
    (step : s.perform policy choice w rest (.isHazard record slots current survivors) = some t) : Safe policy t := by
  have spares := safe.head_spares head
  cases slots with
  | nil =>
    cases step
    apply safe.condemns .unguarded head rfl rfl rfl
    · intro i touched
      rcases Reader.touches_iff.mp touched with ⟨held, holder, same⟩ | ⟨held, holder, same⟩
      · cases (spares i).2.1 held holder same
      · cases (spares i).2.2 held holder same
    · exact fun i => (spares i).1
  | cons slot slots =>
    simp only [Shard.perform] at step
    split at step
    · cases step
      exact safe.keeps_record .unguarded head rfl rfl rfl fun i => (spares i).1
    rename_i other
    cases step
    apply safe.scans head rfl rfl rfl
    intro i
    obtain ⟨hazards, table, chain⟩ := spares i
    refine ⟨hazards, ?_, ?_⟩
    · intro held holder same
      rcases mem_cons.mp (table held holder same) with rfl | later
      · exact absurd (((safe.readers i).tableHazard hazards held holder).symm.trans same) other
      · exact later
    · intro held holder same
      rcases mem_cons.mp (chain held holder same) with rfl | later
      · exact absurd (((safe.readers i).chainHazard hazards held holder).symm.trans same) other
      · exact later

end

theorem allocates (extra : List Root) (safe : Safe policy s) (head : s.Head w task rest)
    (writes : task.writes = true) (noRoots : task.roots = []) (noRecords : task.records = []) (pushed : t.todo = l ++ rest)
    (same : t.readers = s.readers ∧ t.records = s.records ∧ t.table = s.table ∧ t.retired = s.retired ∧ t.epoch = s.epoch)
    (allocated : Allocated s.memory t.memory (extra ++ s.roots))
    (owners : l.flatMap roots = extra) (noneTaken : l.flatMap records = [])
    (newFits : ∀ other ∈ l, other.Fits t.memory t.table) (newOrder : l.Pairwise Before)
    (spares : ∀ i, ∀ other ∈ l, other.Spares policy i (s.readers i))
    (noReclaims : ∀ other ∈ l, other.reclaims = false) : Safe policy t := by
  obtain ⟨readers, records, table, retired, epoch⟩ := same
  have roots : (extra ++ s.roots).Perm t.roots := by
    rw [roots_eq head, Shard.roots, table, retired, pushed, noRoots, flatMap_append, owners]
    apply perm_middle.trans
    apply Perm.cons
    exact perm_append_comm_assoc _ _ _
  apply safe.writer_step (todo_eq head) pushed ⟨readers, records⟩ epoch.ge allocated.sound
    (allocated.owns.perm roots)
  · intro i
    apply (safe.covered i).mono
    · exact fun root mem _ => roots.mem_iff.mp (mem_append_right _ mem)
    · exact fun a touched => allocated.keeps.object a (safe.touches_live touched)
    · exact fun a touched => allocated.keeps.serial a (safe.touches_live touched)
  · exact newFits
  · exact newOrder
  · exact fun _ _ _ => writes
  · exact .inl writes
  · intro _ record mem
    left
    rw [Shard.pending, retired, pushed, flatMap_append, noneTaken] at mem
    rwa [pending_eq head, noRecords]
  · exact spares
  · exact fun other mem inside => absurd inside (by rw [noReclaims other mem]; decide)
  · rw [destroys_of_writes writes]
    exact nofun

theorem table_live (safe : Safe policy s) : s.memory.live s.table = true := safe.owns.root_alive (mem_cons_self ..)

theorem allocates_table {choice : Nat → Nat} {chains : List (List (Node Key Value))} {memory : Memory Key Value}
    {replacement counted : Nat} (safe : Safe policy s) (head : s.Head w task rest)
    (writes : task.writes = true) (noRoots : task.roots = []) (noRecords : task.records = [])
    (run : allocateTable s.memory choice chains = some (memory, replacement)) (later : l = [] ∨ l = [.poll]) :
    Safe policy ({ s with memory := memory }.proceed w (.publishTable replacement s.table counted :: (l ++ rest))) := by
  obtain ⟨allocated, _⟩ := allocateTable_spec safe.sound safe.owns run
  apply safe.allocates [.node replacement 0] (l := .publishTable replacement s.table counted :: l) head
    writes noRoots noRecords
  · rfl
  · exact ⟨rfl, rfl, rfl, rfl, rfl⟩
  · exact allocated
  · rcases later with rfl | rfl <;> simp [roots]
  · rcases later with rfl | rfl <;> simp [records]
  · rcases later with rfl | rfl <;> simp [Fits, Shard.proceed]
  · rcases later with rfl | rfl <;> simp [Before, hasLocals, reclaims]
  · have fresh : ∀ i, ¬ (s.readers i).Touches replacement :=
      fun i touched => allocated.ne_root safe.owns ((safe.covered i).owned touched) rfl
    rcases later with rfl | rfl <;> simp [Spares, fresh]
  · rcases later with rfl | rfl <;> simp [reclaims]

theorem clones_chain {choice : Nat → Nat} {nodes : List (Node Key Value)} {memory : Memory Key Value}
    {index newHead oldHead : Nat} {difference : Int} {w' : Writer Key Value} (safe : Safe policy s) (head : s.Head w task rest) (writes : task.writes = true) (noRoots : task.roots = []) (noRecords : task.records = [])
    (found : (s.memory.object s.table).buckets[index]? = some oldHead)
    (run : allocateChain s.memory (choice 0) nodes = some (memory, newHead))
    (pushed : l = .storeBucket s.table index newHead oldHead :: Task.counts difference [.poll] ∨
      l = Task.counts difference [.storeBucket s.table index newHead oldHead, .poll]) :
    Safe policy ({ s with memory := memory }.proceed w' (l ++ rest)) := by
  obtain ⟨allocated, _⟩ := allocateChain_spec safe.sound safe.owns run
  have place : (memory.object s.table).buckets[index]? = some oldHead := by
    rwa [allocated.keeps.object _ safe.table_live]
  apply safe.allocates (leaves newHead) head writes noRoots noRecords
  · rfl
  · exact ⟨rfl, rfl, rfl, rfl, rfl⟩
  · exact allocated
  · rcases pushed with rfl | rfl <;> simp [counts_roots, Task.roots]
  · rcases pushed with rfl | rfl <;> simp [counts_records, Task.records]
  · rcases pushed with rfl | rfl <;> unfold Task.counts <;> split <;>
      simp [Task.Fits, Shard.proceed, place]
  · rcases pushed with rfl | rfl <;> unfold Task.counts <;> split <;>
      simp [Task.Before, Task.hasLocals, Task.writes, Task.reclaims]
  · have fresh : ∀ i, ¬ newHead = 0 → ¬ (s.readers i).Touches newHead := by
      intro i nonzero touched
      rw [leaves_of_ne nonzero] at allocated
      exact allocated.ne_root safe.owns ((safe.covered i).owned touched) rfl
    rcases pushed with rfl | rfl <;> unfold Task.counts <;> split <;> simp [Task.Spares] <;> exact fresh
  · rcases pushed with rfl | rfl <;> unfold Task.counts <;> split <;> simp [Task.reclaims]

theorem mem_set_or {l : List Nat} {a i d : Nat} (mem : a ∈ l) : a ∈ l.set i d ∨ l[i]? = some a := by
  obtain ⟨j, found⟩ := mem_iff_getElem?.mp mem
  by_cases same : i = j
  · exact .inr (same ▸ found)
  · exact .inl (mem_iff_getElem?.mpr ⟨j, by rwa [getElem?_set_ne same]⟩)

theorem stores_bucket {place index newHead oldHead : Nat} (safe : Safe policy s) (head : s.Head w (.storeBucket place index newHead oldHead) rest) :
    Safe policy ({ s with memory := s.memory.assign place ((s.memory.object place).setBucket index newHead) }.proceed w
      (.retire oldHead .chain :: rest)) := by
  obtain ⟨rfl, found⟩ := safe.head_fits head
  have fresh := safe.head_spares head
  have before : s.roots.Perm (leaves newHead ++ .node s.table 0 :: (s.retired.map root ++
      rest.flatMap roots)) := by
    rw [roots_eq head]
    apply Perm.trans _ perm_middle.symm
    apply Perm.cons
    exact perm_append_comm_assoc _ _ _
  have after : (leaves oldHead ++ .node s.table 0 :: (s.retired.map root ++ rest.flatMap roots)).Perm
      (Root.node s.table 0 :: (s.retired.map root ++ (leaves oldHead ++ rest.flatMap roots))) := by
    apply perm_middle.trans
    apply Perm.cons
    exact perm_append_comm_assoc _ _ _
  apply safe.writer_step (todo_eq head) (l := [.retire oldHead .chain])
  · rfl
  · exact ⟨rfl, rfl⟩
  · exact le_refl _
  · exact safe.sound.assign
  · exact ((safe.owns.perm before).assign found (buckets_setBucket _ _ _)).perm after
  · intro i
    have kept : ∀ root ∈ s.roots, (s.readers i).Touches root.address → root ∈ leaves oldHead ++
        .node s.table 0 :: (s.retired.map RetiredRecord.root ++ rest.flatMap roots) := by
      intro root mem touched
      rcases mem_append.mp (before.mem_iff.mp mem) with own | other
      · obtain ⟨nonzero, rfl⟩ := mem_leaves.mp own
        exact absurd touched (fresh i nonzero)
      · exact mem_append_right _ other
    constructor
    · intro held holder
      exact after.mem_iff.mp (kept _ ((safe.covered i).table held holder) (Reader.touches_table holder))
    · intro held holder
      rcases (safe.covered i).chains held holder with root | ⟨table, owner, part⟩
      · exact .inl (after.mem_iff.mp (kept _ root (Reader.touches_chain holder)))
      obtain ⟨inside, nonzero⟩ := mem_partsFrom.mp part
      by_cases same : table.address = s.table
      · rw [same] at inside
        rcases mem_set_or (i := index) (d := newHead) inside with stays | leaves_
        · right
          refine ⟨table, owner, mem_partsFrom.mpr ⟨?_, nonzero⟩⟩
          change _ ∈ ((s.memory.assign s.table _).object table.address).buckets
          rw [same, assign_object_self, buckets_setBucket]
          exact stays
        · left
          obtain rfl : oldHead = held.address := Option.some.inj (found.symm.trans leaves_)
          apply after.mem_iff.mp
          exact mem_append_left _ (mem_leaves.mpr ⟨nonzero, rfl⟩)
      · right
        refine ⟨table, owner, mem_partsFrom.mpr ⟨?_, nonzero⟩⟩
        change _ ∈ ((s.memory.assign s.table _).object table.address).buckets.drop 0
        rwa [assign_object _ _ _ same]
    · exact (safe.covered i).serials
  · simp [Fits]
  · simp
  · simp [writes]
  · exact .inl rfl
  · intro _ record mem
    left
    rw [pending_eq head]
    simpa [Shard.pending, Shard.todo, Shard.proceed, records] using mem
  · simp [Spares]
  · simp [reclaims]
  · rintro ⟨⟩

section

variable {record : RetiredRecord} {index : Nat}

theorem destroys (memory : Memory Key Value) (l : List (Task Key Value)) (safe : Safe policy s)
    (head : s.Head w (.destroy record index) rest)
    (goes_on : l = [] ∨ l = [.destroy record (index + 1)])
    (objects : memory.object = s.memory.object) (serials : memory.serial = s.memory.serial) (sound : memory.Sound)
    (owns : memory.Owns buckets ({ s with memory := memory }.proceed w (l ++ rest)).roots) :
    Safe policy ({ s with memory := memory }.proceed w (l ++ rest)) := by
  have untouched : ∀ i, ¬ (s.readers i).Touches record.object := safe.head_spares head
  have spared : ∀ i, ∀ other ∈ l, other.Spares policy i (s.readers i) := by
    rcases goes_on with rfl | rfl
    · simp
    · simpa [Spares] using untouched
  apply safe.writer_step (todo_eq head) (l := l)
  · rfl
  · exact ⟨rfl, rfl⟩
  · exact le_refl _
  · exact sound
  · exact owns
  · intro i
    apply (safe.covered i).mono
    · intro root mem touched
      rw [roots_eq head] at mem
      have other : root ≠ record.rootFrom index := by
        rintro rfl
        rw [record.rootFrom_address] at touched
        exact untouched i touched
      simp only [roots, mem_cons, mem_append, not_mem_nil, other, false_or] at mem
      simp only [Shard.roots, Shard.todo, Shard.proceed, flatMap_append, cons_append, mem_cons,
        mem_append]
      rcases mem with current | waits | later
      · exact .inl current
      · exact .inr (.inl waits)
      · exact .inr (.inr (.inr later))
    · exact fun a _ => congrFun objects a
    · exact fun a _ => congrFun serials a
  · rcases goes_on with rfl | rfl <;> simp [Fits]
  · rcases goes_on with rfl | rfl <;> simp
  · rcases goes_on with rfl | rfl <;> simp [writes]
  · exact .inr ⟨rfl, congrFun objects _⟩
  · intro _ other mem
    left
    rw [pending_eq head]
    rcases goes_on with rfl | rfl
    · rcases mem_append.mp mem with waits | later
      · exact mem_append_left _ waits
      · exact mem_append_right _ (mem_append_right _ later)
    · simpa [Shard.pending, Shard.todo, Shard.proceed, records] using mem
  · exact spared
  · rcases goes_on with rfl | rfl <;> simp [reclaims]
  · rcases goes_on with rfl | rfl <;> simp [Task.destroys, Shard.proceed]

theorem roots_split (head : s.Head w (.destroy record index) rest) :
    s.roots.Perm (record.rootFrom index :: .node s.table 0 :: (s.retired.map root ++ rest.flatMap roots)) := by
  rw [roots_eq head]
  apply Perm.trans _ (Perm.swap _ _ _)
  apply Perm.cons
  exact perm_middle

theorem destroys_next [DecidableEq Key] {choice : Nat → Nat} (safe : Safe policy s) (head : s.Head w (.destroy record index) rest)
    (step : s.perform policy choice w rest (.destroy record index) = some t) : Safe policy t := by
  have owns := safe.owns.perm (roots_split head)
  have living : s.memory.live record.object = true := by
    rw [← record.rootFrom_address index]
    exact owns.root_alive (mem_cons_self ..)
  simp only [Shard.perform] at step
  split at step
  · rename_i chain
    cases step
    apply safe.destroys (s.memory.destroy record.object) [] head (.inl rfl) rfl rfl (safe.sound.destroy living)
    simp only [rootFrom, chain] at owns
    exact owns.destroy_leaf
  · rename_i table
    simp only [rootFrom, table] at owns
    split at step
    · rename_i part found
      cases step
      have next := owns.next_part found
      have after : (.node record.object (index + 1) :: .node s.table 0 :: (s.retired.map root ++
          rest.flatMap roots)).Perm (Root.node s.table 0 :: (s.retired.map root ++
            (.node record.object (index + 1) :: rest.flatMap roots))) := by
        apply (Perm.swap _ _ _).trans
        apply Perm.cons
        exact perm_middle.symm
      have roots : ∀ memory : Memory Key Value, ({ s with memory := memory }.proceed w
          (.destroy record (index + 1) :: rest)).roots = Root.node s.table 0 :: (s.retired.map root ++
            (.node record.object (index + 1) :: rest.flatMap roots)) := by
        intro memory
        simp [Shard.roots, Shard.todo, Shard.proceed, roots, rootFrom, table]
      by_cases null : part = 0
      · rw [if_pos null]
        rw [null] at next
        apply safe.destroys s.memory [.destroy record (index + 1)] head (.inr rfl) rfl rfl safe.sound
        rw [singleton_append, roots]
        exact next.perm after
      · rw [if_neg null]
        rw [leaves_of_ne null] at next
        have alive : s.memory.live (Root.leaf part).address = true := next.root_alive (mem_cons_self ..)
        apply safe.destroys (s.memory.destroy part) [.destroy record (index + 1)] head (.inr rfl) rfl rfl
          (safe.sound.destroy alive)
        rw [singleton_append, roots]
        exact next.destroy_leaf.perm after
    · cases step
      apply safe.destroys (s.memory.destroy record.object) [] head (.inl rfl) rfl rfl (safe.sound.destroy living)
      exact owns.destroy_node

end

section

variable [DecidableEq Key] {choice : Nat → Nat}

theorem applies {change : Change Key Value} (safe : Safe policy s) (head : s.Head w (.applyChange change) rest) (step : s.applyChange choice w rest change = some t) : Safe policy t := by
  have nothing : ∀ result, Safe policy (s.proceed { w with result := result } rest) := by
    intro result
    exact safe.skips head ⟨rfl, rfl, rfl, rfl⟩ ⟨rfl, rfl⟩ rfl rfl rfl
  cases change with
  | insertOrAssign hash key value =>
    simp only [Shard.applyChange, Option.bind_eq_bind, Option.bind_eq_some_iff, Option.pure_def, Option.some.injEq,
      Prod.exists] at step
    obtain ⟨oldHead, found, memory, newHead, run, rfl⟩ := step
    rw [show (poll :: rest : List (Task Key Value)) = [.poll] ++ rest from rfl, counts_append]
    exact safe.clones_chain head rfl rfl rfl found run (.inl rfl)
  | upsert hash key value updater =>
    simp only [Shard.applyChange, Option.bind_eq_bind, Option.bind_eq_some_iff, Option.pure_def, Option.some.injEq,
      Prod.exists] at step
    obtain ⟨oldHead, found, memory, newHead, run, rfl⟩ := step
    rw [show (storeBucket s.table _ newHead oldHead :: poll :: rest : List (Task Key Value))
      = [.storeBucket s.table _ newHead oldHead, .poll] ++ rest from rfl, counts_append]
    exact safe.clones_chain head rfl rfl rfl found run (.inr rfl)
  | remove hash key =>
    simp only [Shard.applyChange] at step
    split at step
    · cases step
      exact nothing false
    simp only [Option.bind_eq_bind, Option.bind_eq_some_iff] at step
    obtain ⟨oldHead, found, step⟩ := step
    split at step
    · cases step
      exact nothing false
    simp only [Option.bind_eq_some_iff, Option.pure_def, Option.some.injEq, Prod.exists] at step
    obtain ⟨memory, newHead, run, rfl⟩ := step
    exact safe.clones_chain head rfl rfl rfl found run
      (.inl (rfl : _ = .storeBucket s.table _ newHead oldHead :: counts (-1) [.poll]))

theorem perform (safe : Safe policy s) (head : s.Head w task rest)
    (step : s.perform policy choice w rest task = some t) : Safe policy t := by
  cases task with
  | ensureShardCapacity desiredElements =>
    simp only [Shard.perform] at step
    split at step
    · cases step
      exact safe.skips head ⟨rfl, rfl, rfl, rfl⟩ ⟨rfl, rfl⟩ rfl rfl rfl
    simp only [Option.bind_eq_bind, Option.bind_eq_some_iff, Option.pure_def, Option.some.injEq, Prod.exists] at step
    obtain ⟨memory, replacement, run, rfl⟩ := step
    exact safe.allocates_table (l := []) head rfl rfl rfl run (.inl rfl)
  | publishTable replacement current counted =>
    cases step
    exact safe.publishes_table head
  | storeBucketCount bucketCount =>
    cases step
    exact safe.skips head ⟨rfl, rfl, rfl, rfl⟩ ⟨rfl, rfl⟩ rfl rfl rfl
  | applyChange change => exact safe.applies head step
  | storeBucket place index newHead oldHead =>
    cases step
    exact safe.stores_bucket head
  | retire object deleter =>
    simp only [Shard.perform] at step
    split at step
    · rename_i null
      cases step
      exact safe.skips head ⟨rfl, rfl, rfl, rfl⟩ ⟨rfl, rfl⟩ rfl (by simp [roots, rootsOf, null]) rfl
    · rename_i nonzero
      cases step
      apply safe.retires head nonzero
      rintro rfl
      rfl
  | count difference =>
    cases step
    exact safe.skips head ⟨rfl, rfl, rfl, rfl⟩ ⟨rfl, rfl⟩ rfl rfl rfl
  | renew =>
    simp only [Shard.perform] at step
    split at step
    · cases step
      exact safe.skips head ⟨rfl, rfl, rfl, rfl⟩ ⟨rfl, rfl⟩ rfl rfl rfl
    simp only [Option.bind_eq_bind, Option.bind_eq_some_iff, Option.pure_def, Option.some.injEq, Prod.exists] at step
    obtain ⟨memory, replacement, run, rfl⟩ := step
    exact safe.allocates_table (l := [.poll]) head rfl rfl rfl run (.inr rfl)
  | poll =>
    cases policy with
    | localEpoch =>
      cases step
      exact safe.polls head
    | hazardPointers =>
      cases step
      exact safe.takes_records head rfl rfl rfl fun _ => rfl
  | minimumActiveEpoch =>
    cases step
    apply safe.takes_records head rfl rfl rfl
    intro i record mem touched
    exact (safe.touched_epoch touched).trans (safe.touched_retired (safe.head_spares head i) mem touched)
  | reclaimIf criterion current survivors =>
    cases current with
    | nil =>
      cases step
      exact safe.returns_records head
    | cons record current => exact safe.reclaims_next head step
  | isHazard record slots current survivors => exact safe.scans_next head step
  | destroy record index => exact safe.destroys_next head step
  | awaitReaders =>
    simp only [Shard.perform] at step
    split at step
    · rename_i none_
      cases step
      apply safe.takes_records head rfl rfl rfl
      intro i record _ touched
      have linked := safe.touches_linked touched
      rw [none_] at linked
      cases linked
    · cases step
      exact safe

end

end Safe

end NginBase.Containers.ConcurrentHashMap
