import NginBase.Containers.ConcurrentCalls
import NginBase.Containers.ConcurrentReaders
import NginBase.Containers.ConcurrentWriters

namespace NginBase.Containers.ConcurrentHashMap

open Library Heap Option Task Map

variable {Key Value : Type} {policy : ReclamationPolicy} {s t : Shard Key Value}

theorem Safe.initial (bucketCount : Nat) : Safe policy (Shard.initial bucketCount : Shard Key Value) where
  sound := by
    constructor <;> simp [Shard.initial]
  owns := by
    constructor
    · simp [Shard.roots, Shard.todo, Shard.initial, footprint, partsFrom, Object.buckets]
    · simp [Shard.roots, Shard.todo, Shard.initial, footprint, partsFrom, Object.buckets]
  fits := nofun
  ordered := .nil
  emptied := nofun
  distinct := List.nodup_nil
  linked i := by simp [Shard.initial, Phase.linked]
  readers i := .of_bare rfl rfl rfl (by simp [Shard.initial])
  covered i := .of_empty rfl rfl
  entered i := Nat.zero_le _
  epochs _ _ _ mem := by cases mem
  spares := nofun

def Task.begins : Task Key Value → Bool
  | .ensureShardCapacity _ => true
  | .applyChange _ => true
  | .renew => true
  | .poll => true
  | .awaitReaders => true
  | _ => false

theorem Operation.tasks_begin (parameters : Parameters Key) (op : Operation Key Value) (size : Nat) :
    ∀ task ∈ op.tasks parameters size, task.begins = true := by
  cases op <;> simp [Operation.tasks, begins]

theorem Task.begins_plain (policy : ReclamationPolicy) {task : Task Key Value} (begins : task.begins = true) :
    task.hasLocals = false ∧ task.reclaims = false ∧ task.roots = [] ∧ task.records = [] ∧
      ∀ i r, task.Spares policy i r := by
  cases task <;> first | exact ⟨rfl, rfl, rfl, rfl, fun _ _ => trivial⟩ | cases begins

theorem Safe.lock {call : Nat} {todo : List (Task Key Value)} (safe : Safe policy s)
    (begins : ∀ task ∈ todo, task.begins = true) (step : s.lock call todo = some t) : Safe policy t := by
  unfold Shard.lock at step
  split at step
  · rename_i free
    cases step
    have idle : s.todo = [] := by
      unfold Shard.todo
      rw [free]
    have roots : ({ s with writer := some { call := call, todo := todo } } : Shard Key Value).roots = s.roots := by
      have none_ : todo.flatMap roots = [] :=
        List.flatMap_eq_nil_iff.mpr fun task mem => (begins_plain policy (begins task mem)).2.2.1
      simp only [Shard.roots, idle]
      exact congrArg _ none_
    have pending : ({ s with writer := some { call := call, todo := todo } } : Shard Key Value).pending = s.pending := by
      have none_ : todo.flatMap records = [] :=
        List.flatMap_eq_nil_iff.mpr fun task mem => (begins_plain policy (begins task mem)).2.2.2.1
      simp only [Shard.pending, idle]
      exact congrArg _ none_
    constructor
    · exact safe.sound
    · rw [roots]
      exact safe.owns
    · exact fun task mem => fits_of_no_locals (begins_plain policy (begins task mem)).1
    · apply List.pairwise_of_forall_mem_list
      intro first _ second mem
      obtain ⟨noLocals, noReclaims, _⟩ := begins_plain policy (begins second mem)
      simp [Before, noLocals, noReclaims]
    · intro task mem reclaims
      rw [(begins_plain policy (begins task mem)).2.1] at reclaims
      cases reclaims
    · exact safe.distinct
    · exact safe.linked
    · exact safe.readers
    · rw [roots]
      exact safe.covered
    · exact safe.entered
    · rw [pending]
      exact safe.epochs
    · exact fun i task mem => (begins_plain policy (begins task mem)).2.2.2.2 i _
  · cases step

theorem Safe.unlock (safe : Safe policy s) (step : s.unlock = some t) : Safe policy t := by
  unfold Shard.unlock at step
  split at step
  · rename_i call result writer
    cases step
    have idle : s.todo = [] := by
      unfold Shard.todo
      rw [writer]
    have same : ({ s with writer := none } : Shard Key Value).todo = s.todo := idle.symm
    have roots : ({ s with writer := none } : Shard Key Value).roots = s.roots := by
      unfold Shard.roots
      rw [same]
    have pending : ({ s with writer := none } : Shard Key Value).pending = s.pending := by
      unfold Shard.pending
      rw [same]
    constructor
    · exact safe.sound
    · rw [roots]
      exact safe.owns
    · exact nofun
    · exact .nil
    · exact nofun
    · exact safe.distinct
    · exact safe.linked
    · exact safe.readers
    · rw [roots]
      exact safe.covered
    · exact safe.entered
    · rw [pending]
      exact safe.epochs
    · exact nofun
  · cases step

theorem Safe.write [DecidableEq Key] {choice : Nat → Nat} (safe : Safe policy s) (step : s.write policy choice = some t) :
    Safe policy t := by
  unfold Shard.write at step
  split at step
  · rename_i w writer
    split at step
    · rename_i task rest todo
      exact safe.perform ⟨writer, todo⟩ step
    · cases step
  · cases step

namespace Map

variable {parameters : Parameters Key} {m n : Map Key Value}

def Safe (parameters : Parameters Key) (m : Map Key Value) : Prop :=
  ∀ x, ConcurrentHashMap.Safe parameters.policy (m.shards x)

theorem Safe.setShard {x : Nat} (safe : m.Safe parameters) (next : ConcurrentHashMap.Safe parameters.policy t) :
    (m.setShard x t).Safe parameters := by
  intro y
  by_cases same : y = x
  · subst same
    simpa [Map.setShard] using next
  · simpa [Map.setShard, same] using safe y

theorem depart_shards (i x : Nat) (operation : Operation Key Value) (result : Result Value) :
    (m.depart parameters i x operation result).shards = m.shards := by
  unfold depart
  split <;> rfl

variable [DecidableEq Key]

theorem Safe.advance {i : Nat} {choice : Nat → Nat} (safe : m.Safe parameters)
    (step : m.advance parameters i choice = some n) : n.Safe parameters := by
  simp only [Map.advance, bind_eq_bind, bind_eq_some_iff] at step
  obtain ⟨call, found, step⟩ := step
  split at step
  · rename_i x goal _ _
    simp only [bind_eq_some_iff, pure_def, some.injEq] at step
    obtain ⟨entered, enter, rfl⟩ := step
    exact safe.setShard ((safe x).enter enter)
  · rename_i x _ _
    simp only [bind_eq_some_iff, pure_def, some.injEq] at step
    obtain ⟨locked, lock, rfl⟩ := step
    exact safe.setShard ((safe x).lock (Operation.tasks_begin _ _ _) lock)
  · rename_i x goal _ _
    simp only [advanceReader, bind_eq_bind, pure_def] at step
    split at step
    · simp only [bind_eq_some_iff, some.injEq] at step
      obtain ⟨left, leave, rfl⟩ := step
      unfold Safe
      rw [depart_shards]
      exact safe.setShard ((safe x).leave leave)
    · simp only [bind_eq_some_iff, some.injEq] at step
      obtain ⟨moved, read, rfl⟩ := step
      exact safe.setShard ((safe x).read read)
  · rename_i x _ _
    simp only [advanceWriter, bind_eq_bind, bind_eq_some_iff, pure_def] at step
    obtain ⟨w, writer, step⟩ := step
    split at step
    · cases step
    split at step
    · simp only [bind_eq_some_iff, some.injEq] at step
      obtain ⟨unlocked, unlock, rfl⟩ := step
      unfold Safe
      rw [depart_shards]
      exact safe.setShard ((safe x).unlock unlock)
    · simp only [bind_eq_some_iff, some.injEq] at step
      obtain ⟨moved, write, rfl⟩ := step
      exact safe.setShard (x := x) ((safe x).write write)
  · cases step

theorem Safe.act {action : Action Key Value} (safe : m.Safe parameters) (step : m.act parameters action = some n) :
    n.Safe parameters := by
  cases action with
  | invoke operation =>
    cases step
    exact safe
  | advance i choice => exact safe.advance step

theorem Safe.run {actions : List (Action Key Value)} (safe : m.Safe parameters)
    (steps : m.run parameters actions = some n) : n.Safe parameters := by
  induction actions generalizing m with
  | nil =>
    cases steps
    exact safe
  | cons action actions rest =>
    simp only [run, bind_eq_bind, bind_eq_some_iff] at steps
    obtain ⟨next, step, steps⟩ := steps
    exact rest (safe.act step) steps

/-- What a guard answers for is still the object that `Protect` returned, and nothing is destroyed twice. -/
theorem held_not_destroyed {initialCapacity : Nat} {actions : List (Action Key Value)}
    (steps : (initial parameters initialCapacity).run parameters actions = some m) (x : Nat) :
    (∀ i, ∀ held ∈ ((m.shards x).readers i).holds,
      (m.shards x).memory.live held.address = true ∧ (m.shards x).memory.serial held.address = held.serial ∧
        held.serial ∉ (m.shards x).memory.destroyed) ∧
    (m.shards x).memory.destroyed.Nodup := by
  have start : (initial parameters initialCapacity : Map Key Value).Safe parameters := fun _ => .initial _
  have safe := start.run steps x
  constructor
  · intro i held mem
    have living := safe.touches_live ⟨held, mem, rfl⟩
    have serial := (safe.covered i).serials held mem
    refine ⟨living, serial, ?_⟩
    rw [← serial]
    exact safe.sound.undestroyed _ living
  · exact safe.sound.once

theorem held_not_destroyed_replaced : ∃ m : Map Nat Nat,
    (initial ⟨id, .localEpoch, 1, by decide⟩ 1).run ⟨id, .localEpoch, 1, by decide⟩
      (.invoke (.insert 1 10) :: List.replicate 10 (.advance 0 fun i => 10 + i) ++
        .invoke (.contains 1) :: List.replicate 6 (.advance 1 fun _ => 0) ++
        .invoke (.insert 1 20) :: List.replicate 10 (.advance 2 fun i => 20 + i)) = some m ∧
    (((m.shards 0).readers 1).holds.map Held.address, (m.shards 0).retired.length) = ([1, 10], 1) ∧
    ∀ held ∈ ((m.shards 0).readers 1).holds, held.serial ∉ (m.shards 0).memory.destroyed := by
  obtain ⟨m, steps, holds⟩ := map_eq_some_iff.mp (by decide +kernel :
    ((initial ⟨id, .localEpoch, 1, by decide⟩ 1 : Map Nat Nat).run ⟨id, .localEpoch, 1, by decide⟩
      (.invoke (.insert 1 10) :: List.replicate 10 (.advance 0 fun i => 10 + i) ++
        .invoke (.contains 1) :: List.replicate 6 (.advance 1 fun _ => 0) ++
        .invoke (.insert 1 20) :: List.replicate 10 (.advance 2 fun i => 20 + i))).map
      (fun m => (((m.shards 0).readers 1).holds.map Held.address, (m.shards 0).retired.length)) = some ([1, 10], 1))
  exact ⟨m, steps, holds, fun held mem => ((held_not_destroyed steps 0).1 1 held mem).2.2⟩

end Map

end NginBase.Containers.ConcurrentHashMap
