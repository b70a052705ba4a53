import NginBase.Containers.ConcurrentHashMap

namespace NginBase.Containers.ConcurrentHashMap

open Library Heap Reader List

variable {Key Value : Type}

def RetiredRecord.rootFrom (record : RetiredRecord) (index : Nat) : Root :=
  match record.deleter with
  | .chain => .leaf record.object
  | .table => .node record.object index

def RetiredRecord.root (record : RetiredRecord) : Root := record.rootFrom 0

@[simp] theorem RetiredRecord.rootFrom_address (record : RetiredRecord) (index : Nat) :
    (record.rootFrom index).address = record.object := by
  unfold rootFrom
  split <;> rfl

@[simp] theorem RetiredRecord.root_address (record : RetiredRecord) : record.root.address = record.object :=
  record.rootFrom_address 0

def rootsOf (object : Nat) (deleter : Deleter) : List Root :=
  if object = 0 then [] else [RetiredRecord.root ⟨object, deleter, 0⟩]

def Task.records : Task Key Value → List RetiredRecord
  | .reclaimIf _ current survivors => current ++ survivors
  | .isHazard record _ current survivors => record :: current ++ survivors
  | .destroy record _ => [record]
  | _ => []

def Task.roots : Task Key Value → List Root
  | .publishTable replacement _ _ => [.node replacement 0]
  | .storeBucket _ _ newHead _ => leaves newHead
  | .retire object deleter => rootsOf object deleter
  | .reclaimIf _ current survivors => (current ++ survivors).map RetiredRecord.root
  | .isHazard record _ current survivors => (record :: current ++ survivors).map RetiredRecord.root
  | .destroy record index => [record.rootFrom index]
  | _ => []

def Task.Fits (memory : Memory Key Value) (table : Nat) : Task Key Value → Prop
  | .publishTable _ current _ => current = table
  | .storeBucket t index _ oldHead => t = table ∧ (memory.object t).buckets[index]? = some oldHead
  | _ => True

def Task.hasLocals : Task Key Value → Bool
  | .publishTable .. => true
  | .storeBucket .. => true
  | _ => false

def Task.writes : Task Key Value → Bool
  | .ensureShardCapacity _ => true
  | .publishTable .. => true
  | .applyChange _ => true
  | .storeBucket .. => true
  | .renew => true
  | _ => false

/-- Tasks inside `ReclaimIf`, which has the list of the shard emptied. -/
def Task.reclaims : Task Key Value → Bool
  | .reclaimIf .. => true
  | .isHazard .. => true
  | _ => false

def Task.destroys : Task Key Value → Bool
  | .destroy .. => true
  | _ => false

/-- Local variables are read after all that changes what they are read from, and `ReclaimIf` is only interrupted by
    destructors. -/
def Task.Before (first second : Task Key Value) : Prop :=
  (first.writes = true → second.hasLocals = false) ∧ (second.reclaims = true → first.destroys = true)

namespace Shard

variable (s : Shard Key Value)

def pending : List RetiredRecord := s.retired ++ s.todo.flatMap Task.records

def roots : List Root := .node s.table 0 :: s.retired.map RetiredRecord.root ++ s.todo.flatMap Task.roots

end Shard

def Phase.linked : Phase → Bool
  | .outside => false
  | .entering => false
  | .registering => false
  | .finished => false
  | _ => true

def Phase.bare : Phase → Bool
  | .protect .table => true
  | .publish .table _ => true
  | .check .table _ => true
  | .protect _ => false
  | .publish _ _ => false
  | .check _ _ => false
  | .atTable _ => false
  | .visit .. => false
  | .leaving => false
  | _ => true

def Phase.table? : Phase → Option Nat
  | .protect (.bucket table _) => some table
  | .publish (.bucket table _) _ => some table
  | .check (.bucket table _) _ => some table
  | .visit table _ _ => some table
  | _ => none

namespace Reader

variable (policy : ReclamationPolicy) (r : Reader Key Value)

def Touches (a : Nat) : Prop := ∃ held ∈ r.holds, held.address = a

structure Fits : Prop where
  bare : r.phase.bare = true → r.heldTable = none ∧ r.heldChains = []
  arrived : ∀ table, r.phase = .atTable table → table ≠ 0 → ∃ held ∈ r.heldTable, held.address = table
  inside : ∀ table, r.phase.table? = some table → ∃ held ∈ r.heldTable, held.address = table
  tableHazard : policy = .hazardPointers → ∀ held ∈ r.heldTable, held.address = r.tableHazard
  chainHazard : policy = .hazardPointers → ∀ held ∈ r.heldChains, held.address = r.chainHazard
  checksTable : ∀ candidate, r.phase = .check .table candidate → r.tableHazard = candidate
  checksBucket : ∀ table index candidate, r.phase = .check (.bucket table index) candidate →
    r.chainHazard = candidate ∧ r.heldChains = []

/-- What a guard answers for has an owner: it is a root, or a chain in the table of the guard. -/
structure Covered (memory : Memory Key Value) (roots : List Root) : Prop where
  table : ∀ held ∈ r.heldTable, .node held.address 0 ∈ roots
  chains : ∀ held ∈ r.heldChains, .leaf held.address ∈ roots ∨
    ∃ table ∈ r.heldTable, held.address ∈ memory.partsFrom Object.buckets table.address 0
  serials : ∀ held ∈ r.holds, memory.serial held.address = held.serial

end Reader

/-- The reader `i` holds nothing that only the holder of the lock has, or that its tasks destroy. -/
def Task.Spares (policy : ReclamationPolicy) (i : Nat) (r : Reader Key Value) : Task Key Value → Prop
  | .reclaimIf (.below minimum) current _ => ∀ record ∈ current, r.Touches record.object → minimum ≤ record.retireEpoch
  | .reclaimIf .unguarded _ _ => policy = .hazardPointers
  | .reclaimIf .everything current _ => ∀ record ∈ current, ¬ r.Touches record.object
  | .isHazard record slots _ _ =>
    policy = .hazardPointers ∧
    (∀ held ∈ r.heldTable, held.address = record.object → (i, .table) ∈ slots) ∧
    ∀ held ∈ r.heldChains, held.address = record.object → (i, .chain) ∈ slots
  | .minimumActiveEpoch => policy = .localEpoch
  | .destroy record _ => ¬ r.Touches record.object
  | .publishTable replacement _ _ => ¬ r.Touches replacement
  | .storeBucket _ _ newHead _ => newHead ≠ 0 → ¬ r.Touches newHead
  | _ => True

/-- No reader holds what is or will be destroyed, and every object has one owner. -/
structure Safe (policy : ReclamationPolicy) (s : Shard Key Value) : Prop where
  sound : s.memory.Sound
  owns : s.memory.Owns Object.buckets s.roots
  fits : ∀ task ∈ s.todo, task.Fits s.memory s.table
  ordered : s.todo.Pairwise Task.Before
  emptied : ∀ task ∈ s.todo, task.reclaims = true → s.retired = []
  distinct : s.records.Nodup
  linked : ∀ i, (s.readers i).phase.linked = true ↔ i ∈ s.records
  readers : ∀ i, (s.readers i).Fits policy
  covered : ∀ i, (s.readers i).Covered s.memory s.roots
  entered : ∀ i, (s.readers i).epoch ≤ s.epoch
  epochs : policy = .localEpoch → ∀ i, ∀ record ∈ s.pending, (s.readers i).Touches record.object →
    (s.readers i).epoch ≤ record.retireEpoch
  spares : ∀ i, ∀ task ∈ s.todo, task.Spares policy i (s.readers i)

section

variable {r r' : Reader Key Value} {memory memory' : Memory Key Value} {roots roots' : List Root} {a : Nat}

theorem Reader.touches_iff : r.Touches a ↔ (∃ held ∈ r.heldTable, held.address = a) ∨ ∃ held ∈ r.heldChains, held.address = a := by
  simp [Touches, holds, or_and_right, exists_or]

theorem Reader.touches_table {held : Held} (mem : held ∈ r.heldTable) : r.Touches held.address :=
  touches_iff.mpr (.inl ⟨held, mem, rfl⟩)

theorem Reader.touches_chain {held : Held} (mem : held ∈ r.heldChains) : r.Touches held.address :=
  touches_iff.mpr (.inr ⟨held, mem, rfl⟩)

theorem Reader.Fits.not_bare {policy : ReclamationPolicy} (fits : r.Fits policy) (touches : r.Touches a) :
    r.phase.bare = false := by
  cases bare : r.phase.bare with
  | false => rfl
  | true =>
    obtain ⟨noTable, noChains⟩ := fits.bare bare
    simp [touches_iff, noTable, noChains] at touches

theorem Phase.linked_of_not_bare {phase : Phase} (guards : phase.bare = false) : phase.linked = true := by
  cases phase <;> first | rfl | cases guards

theorem Reader.Covered.owned (covered : r.Covered memory roots) (touches : r.Touches a) :
    a ∈ memory.owned Object.buckets roots := by
  rcases touches_iff.mp touches with ⟨held, mem, rfl⟩ | ⟨held, mem, rfl⟩
  · exact address_mem_owned (covered.table held mem)
  · rcases covered.chains held mem with root | ⟨table, holder, part⟩
    · exact address_mem_owned root
    · exact mem_owned.mpr ⟨_, covered.table table holder, mem_cons_of_mem _ part⟩

theorem Reader.Covered.mono (covered : r.Covered memory roots)
    (kept : ∀ root ∈ roots, r.Touches root.address → root ∈ roots')
    (objects : ∀ a, r.Touches a → memory'.object a = memory.object a)
    (serials : ∀ a, r.Touches a → memory'.serial a = memory.serial a) : r.Covered memory' roots' where
  table held mem := kept _ (covered.table held mem) (touches_table mem)
  chains held mem := by
    rcases covered.chains held mem with root | ⟨table, holder, part⟩
    · exact .inl (kept _ root (touches_chain mem))
    right
    use table, holder
    unfold partsFrom
    rwa [objects _ (touches_table holder)]
  serials held mem := by
    rw [serials _ ⟨held, mem, rfl⟩]
    exact covered.serials held mem

end

namespace Shard

variable {policy : ReclamationPolicy} {s : Shard Key Value} {i a : Nat} {r' : Reader Key Value}

theorem root_of_pending {record : RetiredRecord} (mem : record ∈ s.pending) :
    ∃ root ∈ s.retired.map RetiredRecord.root ++ s.todo.flatMap Task.roots, root.address = record.object := by
  rcases mem_append.mp mem with retired | taken
  · exact ⟨_, mem_append_left _ (mem_map_of_mem retired), record.root_address⟩
  obtain ⟨task, inside, held⟩ := mem_flatMap.mp taken
  suffices found : ∃ root ∈ task.roots, root.address = record.object by
    obtain ⟨root, owner, same⟩ := found
    exact ⟨root, mem_append_right _ (mem_flatMap.mpr ⟨task, inside, owner⟩), same⟩
  cases task with
  | reclaimIf criterion current survivors => exact ⟨_, mem_map_of_mem held, record.root_address⟩
  | isHazard first slots current survivors => exact ⟨_, mem_map_of_mem held, record.root_address⟩
  | destroy first index =>
    obtain rfl : record = first := by simpa [Task.records] using held
    exact ⟨_, mem_singleton_self _, record.rootFrom_address index⟩
  | _ => cases held

/-- The address is not that of something retired, nor of something that only the holder of the lock has. -/
def Current (s : Shard Key Value) (a : Nat) : Prop :=
  ∀ root ∈ s.retired.map RetiredRecord.root ++ s.todo.flatMap Task.roots, root.address ≠ a

theorem Current.not_pending {a : Nat} {record : RetiredRecord} (current : s.Current a) (mem : record ∈ s.pending) :
    record.object ≠ a := by
  obtain ⟨root, owner, same⟩ := root_of_pending mem
  rw [← same]
  exact current root owner

theorem Current.not_task {a : Nat} {task : Task Key Value} {root : Root} (current : s.Current a) (mem : task ∈ s.todo)
    (owner : root ∈ task.roots) : root.address ≠ a :=
  current root (mem_append_right _ (mem_flatMap.mpr ⟨task, mem, owner⟩))

end Shard

namespace Safe

open Shard

variable {policy : ReclamationPolicy} {s : Shard Key Value} {i a : Nat}

section

variable (safe : Safe policy s)

include safe

theorem touches_linked (touches : (s.readers i).Touches a) : i ∈ s.records :=
  (safe.linked i).mp (Phase.linked_of_not_bare ((safe.readers i).not_bare touches))

theorem touches_live (touches : (s.readers i).Touches a) : s.memory.live a = true :=
  safe.owns.alive a ((safe.covered i).owned touches)

theorem table_current : s.Current s.table :=
  fun _ owner => safe.owns.apart_of_node owner

theorem part_current {table : Nat} (owner : .node table 0 ∈ s.roots)
    (part : a ∈ s.memory.partsFrom Object.buckets table 0) : s.Current a :=
  fun _ inside => safe.owns.part_ne_root owner part (mem_cons_of_mem _ inside)

end

theorem Reader.spares_of_held {r r' : Reader Key Value} {task : Task Key Value}
    (table : ∀ root ∈ task.roots, ∀ held ∈ r'.heldTable, held.address = root.address → held ∈ r.heldTable)
    (chains : ∀ root ∈ task.roots, ∀ held ∈ r'.heldChains, held.address = root.address → held ∈ r.heldChains)
    (spares : task.Spares policy i r) : task.Spares policy i r' := by
  have touches : ∀ root ∈ task.roots, r'.Touches root.address → r.Touches root.address := by
    intro root mem touched
    rcases touches_iff.mp touched with ⟨held, holder, same⟩ | ⟨held, holder, same⟩
    · exact same ▸ touches_table (table root mem held holder same)
    · exact same ▸ touches_chain (chains root mem held holder same)
  cases task with
  | reclaimIf criterion current survivors =>
    have sooner : ∀ record ∈ current, r'.Touches record.object → r.Touches record.object := by
      intro record mem touched
      rw [← record.root_address] at touched ⊢
      exact touches _ (mem_map_of_mem (mem_append_left _ mem)) touched
    cases criterion with
    | below minimum => exact fun record mem touched => spares record mem (sooner record mem touched)
    | unguarded => exact spares
    | everything => exact fun record mem touched => spares record mem (sooner record mem touched)
  | isHazard record slots current survivors =>
    have first : record.root ∈ (Task.isHazard record slots current survivors : Task Key Value).roots := by
      simp [Task.roots]
    obtain ⟨policy, tables, others⟩ := spares
    have held_table := table _ first
    have held_chains := chains _ first
    rw [record.root_address] at held_table held_chains
    exact ⟨policy, fun held holder same => tables held (held_table held holder same) same,
      fun held holder same => others held (held_chains held holder same) same⟩
  | destroy record index =>
    intro touched
    apply spares
    rw [← record.rootFrom_address index] at touched ⊢
    exact touches _ (mem_singleton_self _) touched
  | minimumActiveEpoch => exact spares
  | publishTable replacement current counted =>
    exact fun touched => spares (touches (.node replacement 0) (mem_singleton_self _) touched)
  | storeBucket place index newHead oldHead =>
    exact fun nonzero touched => spares nonzero (touches (.leaf newHead) (mem_leaves.mpr ⟨nonzero, rfl⟩) touched)
  | _ => trivial

theorem reader_step {r' : Reader Key Value} {records : List Nat} (safe : Safe policy s)
    (linked : r'.phase.linked = true ↔ i ∈ records) (others : ∀ j, j ≠ i → (j ∈ records ↔ j ∈ s.records))
    (distinct : records.Nodup) (fits : r'.Fits policy) (covered : r'.Covered s.memory s.roots)
    (table : ∀ held ∈ r'.heldTable, held ∈ (s.readers i).heldTable ∨ s.Current held.address)
    (chains : ∀ held ∈ r'.heldChains, held ∈ (s.readers i).heldChains ∨ s.Current held.address)
    (entered : r'.epoch ≤ s.epoch) (epoch : r'.epoch = (s.readers i).epoch ∨ r'.phase.bare = true) :
    Safe policy { s.setReader i r' with records := records } := by
  have at_i : (s.setReader i r').readers i = r' := Function.update_self ..
  have at_j : ∀ j, j ≠ i → (s.setReader i r').readers j = s.readers j := fun j other => Function.update_of_ne other ..
  have oldTable : ∀ a, ¬ s.Current a → ∀ held ∈ r'.heldTable, held.address = a → held ∈ (s.readers i).heldTable := by
    intro a retired held holder same
    exact (table held holder).resolve_right fun current => retired (same ▸ current)
  have oldChains : ∀ a, ¬ s.Current a → ∀ held ∈ r'.heldChains, held.address = a →
      held ∈ (s.readers i).heldChains := by
    intro a retired held holder same
    exact (chains held holder).resolve_right fun current => retired (same ▸ current)
  refine ⟨safe.sound, safe.owns, safe.fits, safe.ordered, safe.emptied, distinct, ?_, ?_, ?_, ?_, ?_, ?_⟩
  · intro j
    by_cases same : j = i
    · subst same
      rwa [← at_i] at linked
    · rw [at_j j same, safe.linked j]
      exact (others j same).symm
  · intro j
    by_cases same : j = i
    · subst same
      rwa [← at_i] at fits
    · have old := safe.readers j
      rwa [← at_j j same] at old
  · intro j
    by_cases same : j = i
    · subst same
      rwa [← at_i] at covered
    · have old := safe.covered j
      rwa [← at_j j same] at old
  · intro j
    by_cases same : j = i
    · subst same
      rwa [← at_i] at entered
    · have old := safe.entered j
      rwa [← at_j j same] at old
  · intro epochs j record waits touched
    by_cases same : j = i
    · subst same
      rw [at_i] at touched ⊢
      rcases epoch with kept | bare
      · rw [kept]
        apply safe.epochs epochs j record waits
        have retired : ¬ s.Current record.object := fun current => current.not_pending waits rfl
        rcases touches_iff.mp touched with ⟨held, holder, same⟩ | ⟨held, holder, same⟩
        · exact same ▸ touches_table (oldTable _ retired held holder same)
        · exact same ▸ touches_chain (oldChains _ retired held holder same)
      · rw [fits.not_bare touched] at bare
        cases bare
    · have old := safe.epochs epochs j record waits
      rw [← at_j j same] at old
      exact old touched
  intro j task mem
  by_cases same : j = i
  · subst same
    rw [at_i]
    have retired : ∀ root ∈ task.roots, ¬ s.Current root.address :=
      fun root owner current => current.not_task mem owner rfl
    exact Reader.spares_of_held (fun root owner => oldTable _ (retired root owner))
      (fun root owner => oldChains _ (retired root owner)) (safe.spares j task mem)
  · have old := safe.spares j task mem
    rwa [← at_j j same] at old

end Safe

end NginBase.Containers.ConcurrentHashMap
