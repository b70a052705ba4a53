import NginBase.Containers.ThrowingCalls

namespace NginBase.Containers.ConcurrentHashMap.Throwing

open Library Library.Command List Function

section

variable (Key Value : Type)

/-- `size` is `m_size`, and `made` counts what has not thrown in the current call. -/
structure Map where
  shards : Nat → Shard Key Value
  size : Nat
  memory : Memory
  made : Site → Nat

end

variable {Key Value : Type} (parameters : Parameters Key)

section

def Map.world (m : Map Key Value) (i : Nat) : World Key Value where
  shard := m.shards i
  total := m.size
  memory := m.memory
  made := m.made

def Map.withWorld (m : Map Key Value) (i : Nat) (w : World Key Value) : Map Key Value where
  shards := update m.shards i w.shard
  size := w.total
  memory := w.memory
  made := w.made

def atShard {α : Type} (i : Nat) (x : Update Key Value α) : Command Site (Map Key Value) α := fun m =>
  match x (m.world i) with
  | (.ok a, w) => (.ok a, m.withWorld i w)
  | (.error e, w) => (.error e, m.withWorld i w)

def forShards (x : Update Key Value Unit) : List Nat → Command Site (Map Key Value) Unit
  | [] => pure ()
  | i :: rest => do
    atShard i x
    forShards x rest

def construct (initialCapacity : Nat) : Map Key Value :=
  let bucketCount := bucketCountForElements (perShardCapacity parameters initialCapacity)
  { shards := fun i => {
      table := { block := 2 * i, array := 2 * i + 1, buckets := replicate bucketCount [] }
      bucketCount }
    size := 0
    memory := { next := 2 * parameters.shardCount, live := range (2 * parameters.shardCount) }
    made := fun _ => 0 }

variable [DecidableEq Key] (fault : Fault) (guarded : Retired Key Value → Bool)

def perform : Operation Key Value → Command Site (Map Key Value) Unit
  | .insert key value => do
    let hash := parameters.hash key
    let _ ← atShard (shardIndex parameters hash) (insertOrAssignInternal fault guarded hash key value)
  | .insertOrAssign key value => do
    let hash := parameters.hash key
    let _ ← atShard (shardIndex parameters hash) (insertOrAssignInternal fault guarded hash key value)
  | .upsert key value updater => do
    let hash := parameters.hash key
    let _ ← atShard (shardIndex parameters hash) (upsertInternal fault guarded hash key value updater)
  | .remove key => do
    let hash := parameters.hash key
    let _ ← atShard (shardIndex parameters hash) (remove fault guarded hash key)
  | .reserve desiredCapacity =>
    forShards (reserveShard fault guarded (perShardCapacity parameters desiredCapacity)) (range parameters.shardCount)
  | .clear => forShards (clearShard fault guarded) (range parameters.shardCount)
  | .quiesce => forShards (poll fun _ => false) (range parameters.shardCount)
  | _ => pure ()

def call (op : Operation Key Value) (m : Map Key Value) : Except Site Unit × Map Key Value :=
  perform parameters fault guarded op { m with made := fun _ => 0 }

end

section

def Map.blocks (m : Map Key Value) : List Nat := (range parameters.shardCount).flatMap fun i => (m.shards i).blocks

def Map.entries (m : Map Key Value) : List (Key × Value) :=
  (range parameters.shardCount).flatMap fun i => (m.shards i).data.map Prod.snd

def Map.others (m : Map Key Value) (i : Nat) : List Nat :=
  ((range parameters.shardCount).erase i).flatMap fun j => (m.shards j).blocks

structure Map.Inv (m : Map Key Value) : Prop where
  shards : ∀ i < parameters.shardCount, Sound parameters i (m.shards i)
  counted : m.size = ((range parameters.shardCount).map fun i => (m.shards i).size).sum
  owned : m.memory.live.Perm (m.blocks parameters)
  distinct : m.memory.live.Nodup
  old : ∀ block ∈ m.memory.live, block < m.memory.next

variable {parameters} {m m' : Map Key Value} {i : Nat} {fault : Fault} {w : World Key Value}

theorem range_perm (inside : i < parameters.shardCount) :
    (range parameters.shardCount).Perm (i :: (range parameters.shardCount).erase i) :=
  perm_cons_erase (mem_range.mpr inside)

theorem shards_withWorld {j : Nat} (mem : j ∈ (range parameters.shardCount).erase i) :
    (m.withWorld i w).shards j = m.shards j := by
  have differ : j ≠ i := ((nodup_range.mem_erase_iff).mp mem).1
  exact update_of_ne differ _ _

theorem others_withWorld : (m.withWorld i w).others parameters i = m.others parameters i :=
  flatMap_congr fun _ mem => by rw [shards_withWorld mem]

theorem blocks_split (inside : i < parameters.shardCount) (m : Map Key Value) :
    (m.blocks parameters).Perm ((m.shards i).blocks ++ m.others parameters i) := by
  have split := (range_perm inside).flatMap_right fun i => (m.shards i).blocks
  rwa [flatMap_cons] at split

theorem sizes_split (inside : i < parameters.shardCount) (m : Map Key Value) :
    ((range parameters.shardCount).map fun i => (m.shards i).size).sum =
      (m.shards i).size + (((range parameters.shardCount).erase i).map fun i => (m.shards i).size).sum := by
  rw [((range_perm inside).map _).sum_nat, map_cons, sum_cons]

theorem Map.Inv.owns (inv : m.Inv parameters) (inside : i < parameters.shardCount) : Owns (m.world i) (m.others parameters i) :=
  ⟨inv.owned.trans (blocks_split inside m), inv.distinct, inv.old⟩

theorem Map.Inv.size_le (inv : m.Inv parameters) (inside : i < parameters.shardCount) : (m.shards i).size ≤ m.size := by
  rw [inv.counted, sizes_split inside]
  exact Nat.le_add_right _ _

theorem withWorld_self : (m.withWorld i w).shards i = w.shard := update_self _ _ _

theorem Map.Inv.withWorld (inv : m.Inv parameters) (inside : i < parameters.shardCount)
    (kept : Kept parameters i (m.world i) (m.others parameters i) w) : (m.withWorld i w).Inv parameters := by
  refine ⟨?_, ?_, ?_, kept.owns.distinct, kept.owns.old⟩
  · intro j inside'
    by_cases same : j = i
    · subst same
      rw [withWorld_self]
      exact kept.sound
    · have other : (m.withWorld i w).shards j = m.shards j := update_of_ne same _ _
      rw [other]
      exact inv.shards j inside'
  · have before := inv.counted
    have counted := kept.counted
    rw [sizes_split inside] at before ⊢
    have rest : ((range parameters.shardCount).erase i).map (fun j => ((m.withWorld i w).shards j).size) =
        ((range parameters.shardCount).erase i).map fun j => (m.shards j).size :=
      map_congr_left fun _ mem => by rw [shards_withWorld mem]
    rw [rest, withWorld_self]
    show w.total = _
    have total : (m.world i).total = m.size := rfl
    have size : (m.world i).shard.size = (m.shards i).size := rfl
    omega
  · refine kept.owns.owned.trans ?_
    have split := blocks_split inside (m.withWorld i w)
    rw [withWorld_self, others_withWorld] at split
    exact split.symm

end

section

variable {parameters} {m m' : Map Key Value} {i : Nat} {fault : Fault}

def Map.Leaks (parameters : Parameters Key) (m : Map Key Value) : Prop := ∃ block ∈ m.memory.live, block ∉ m.blocks parameters

def SameData (m m' : Map Key Value) : Prop := ∀ i, (m'.shards i).data.Perm (m.shards i).data

/-- What a throw leaves of the map. `rel` says what else holds when it is not the throw of a record. -/
structure MapFailed (parameters : Parameters Key) (fault : Fault) (rel : Map Key Value → Map Key Value → Prop) (m : Map Key Value)
    (e : Site) (m' : Map Key Value) : Prop where
  is : e = fault.site
  leaks : e = .record → m'.Leaks parameters
  kept : e ≠ .record → m'.Inv parameters ∧ rel m m'

theorem atShard_spec {α : Type} {x : Update Key Value α} (inv : m.Inv parameters) (inside : i < parameters.shardCount)
    (spec : x.Ensures (m.world i) (fun _ w => Kept parameters i (m.world i) (m.others parameters i) w)
      (Failed fault (m.world i) (m.others parameters i))) :
    (atShard i x).Ensures m (fun _ m' => m'.Inv parameters) (MapFailed parameters fault SameData m) := by
  unfold Ensures at spec ⊢
  unfold atShard
  rcases result : x (m.world i) with ⟨answer, w⟩
  rw [result] at spec
  cases answer with
  | ok a => exact inv.withWorld inside spec
  | error e =>
    obtain ⟨is, leaks, unaffected⟩ := spec
    refine ⟨is, ?_, ?_⟩
    · intro record
      obtain ⟨block, alive, lost⟩ := leaks record
      refine ⟨block, alive, ?_⟩
      have split := blocks_split inside (m.withWorld i w)
      rw [withWorld_self, others_withWorld] at split
      exact fun mem => lost (split.mem_iff.mp mem)
    · intro other
      have unaffected := unaffected other
      refine ⟨inv.withWorld inside (unaffected.kept (inv.shards i inside)), ?_⟩
      intro j
      by_cases same : j = i
      · subst same
        rw [withWorld_self]
        exact unaffected.data
      · have other : (m.withWorld i w).shards j = m.shards j := update_of_ne same _ _
        rw [other]

theorem atShard_same {x : Update Key Value Unit} (inv : m.Inv parameters) (inside : i < parameters.shardCount)
    (spec : x.Ensures (m.world i) (fun _ w => Unaffected (m.world i) (m.others parameters i) w)
      (Failed fault (m.world i) (m.others parameters i))) :
    (atShard i x).Ensures m (fun _ m' => m'.Inv parameters ∧ SameData m m') (MapFailed parameters fault SameData m) := by
  have whole := atShard_spec inv inside (spec.mono (fun _ _ unaffected => unaffected.kept (inv.shards i inside)) fun _ _ failed => failed)
  unfold Ensures at spec whole ⊢
  unfold atShard at whole ⊢
  rcases result : x (m.world i) with ⟨answer, w⟩
  rw [result] at spec whole
  cases answer with
  | ok a =>
    refine ⟨whole, ?_⟩
    intro j
    by_cases same : j = i
    · subst same
      rw [withWorld_self]
      exact spec.data
    · have other : (m.withWorld i w).shards j = m.shards j := update_of_ne same _ _
      rw [other]
  | error e => exact whole

theorem forShards_spec {x : Update Key Value Unit} {rel : Map Key Value → Map Key Value → Prop} (refl : ∀ m, rel m m)
    (trans : ∀ m m' m'', rel m m' → rel m' m'' → rel m m'')
    (visit : ∀ (m : Map Key Value) i, m.Inv parameters → i < parameters.shardCount →
      (atShard i x).Ensures m (fun _ m' => m'.Inv parameters ∧ rel m m') (MapFailed parameters fault rel m))
    (shards : List Nat) (inside : ∀ i ∈ shards, i < parameters.shardCount) (inv : m.Inv parameters) :
    (forShards x shards).Ensures m (fun _ m' => m'.Inv parameters ∧ rel m m') (MapFailed parameters fault rel m) := by
  induction shards generalizing m with
  | nil => exact ⟨inv, refl m⟩
  | cons i rest hyp =>
    refine (visit m i inv (inside i mem_cons_self)).bind ?_
    intro _ m' ⟨inv', first⟩
    refine (hyp (fun j mem => inside j (mem_cons_of_mem _ mem)) inv').mono ?_ ?_
    · exact fun _ _ later => ⟨later.1, trans _ _ _ first later.2⟩
    · intro e m'' failed
      exact ⟨failed.is, failed.leaks, fun other => ⟨(failed.kept other).1, trans _ _ _ first (failed.kept other).2⟩⟩

theorem shardIndex_lt (parameters : Parameters Key) (hash : Nat) : shardIndex parameters hash < parameters.shardCount := by
  have pos := parameters.shardCount_pos
  unfold shardIndex
  split
  · have le : hash &&& (parameters.shardCount - 1) ≤ parameters.shardCount - 1 := Nat.and_le_right
    omega
  · exact Nat.mod_lt _ pos

end

section

variable {parameters} {m m' : Map Key Value} {fault : Fault} [DecidableEq Key]

/-- `Insert`, `InsertOrAssign`, `Upsert`, `Remove` and `Reserve`. -/
def updates : Operation Key Value → Bool
  | .insert .. => true
  | .insertOrAssign .. => true
  | .upsert .. => true
  | .remove _ => true
  | .reserve _ => true
  | _ => false

theorem perform_spec (guarded : Retired Key Value → Bool) (op : Operation Key Value) (inv : m.Inv parameters) :
    (perform parameters fault guarded op).Ensures m (fun _ m' => m'.Inv parameters)
      (MapFailed parameters fault (fun m m' => updates op = true → SameData m m') m) := by
  have weaken : ∀ e m', MapFailed parameters fault SameData m e m' →
      MapFailed parameters fault (fun m m' => updates op = true → SameData m m') m e m' :=
    fun e m' failed => ⟨failed.is, failed.leaks, fun other => ⟨(failed.kept other).1, fun _ => (failed.kept other).2⟩⟩
  have refl : ∀ m : Map Key Value, SameData m m := fun m i => .refl _
  have trans : ∀ m m' m'' : Map Key Value, SameData m m' → SameData m' m'' → SameData m m'' :=
    fun m m' m'' first later i => (later i).trans (first i)
  have single : ∀ {x : Update Key Value Bool} (hash : Nat),
      x.Ensures (m.world (shardIndex parameters hash))
        (fun _ w => Kept parameters (shardIndex parameters hash) (m.world (shardIndex parameters hash))
          (m.others parameters (shardIndex parameters hash)) w)
        (Failed fault (m.world (shardIndex parameters hash)) (m.others parameters (shardIndex parameters hash))) →
      Ensures (do let _ ← atShard (shardIndex parameters hash) x : Command Site (Map Key Value) Unit) m
        (fun _ m' => m'.Inv parameters) (MapFailed parameters fault (fun m m' => updates op = true → SameData m m') m) := by
    intro x hash spec
    have visited := (atShard_spec inv (shardIndex_lt parameters hash) spec).mono (fun _ _ done => done) weaken
    exact visited.bind fun _ _ inv => inv
  have sound : ∀ i < parameters.shardCount, Sound parameters i (m.world i).shard := inv.shards
  have inside : ∀ i ∈ range parameters.shardCount, i < parameters.shardCount := fun i mem => mem_range.mp mem
  cases op with
  | insert key value =>
    exact single _ (insertOrAssignInternal_spec guarded key rfl value (sound _ (shardIndex_lt _ _)) (inv.owns (shardIndex_lt _ _)))
  | insertOrAssign key value =>
    exact single _ (insertOrAssignInternal_spec guarded key rfl value (sound _ (shardIndex_lt _ _)) (inv.owns (shardIndex_lt _ _)))
  | upsert key value updater =>
    exact single _ (upsertInternal_spec guarded key rfl value updater (sound _ (shardIndex_lt _ _)) (inv.owns (shardIndex_lt _ _)))
  | remove key =>
    exact single _ (remove_spec guarded key (sound _ (shardIndex_lt _ _)) (inv.owns (shardIndex_lt _ _)) (inv.size_le (shardIndex_lt _ _)))
  | reserve desiredCapacity =>
    refine (forShards_spec refl trans ?_ _ inside inv).mono (fun _ _ done => done.1) weaken
    intro m i inv inside
    exact atShard_same inv inside (reserveShard_spec guarded _ (inv.owns inside) (inv.shards i inside).layout)
  | clear =>
    have looped : (forShards (clearShard fault guarded) (range parameters.shardCount)).Ensures m
        (fun _ m' => m'.Inv parameters ∧ True) (MapFailed parameters fault (fun _ _ => True) m) := by
      refine forShards_spec (fun _ => trivial) (fun _ _ _ _ _ => trivial) ?_ _ inside inv
      intro m i inv inside
      exact (atShard_spec inv inside
        (clearShard_spec guarded (inv.shards i inside) (inv.owns inside) (inv.size_le inside))).mono (fun _ _ inv => ⟨inv, trivial⟩) fun _ _ failed =>
        ⟨failed.is, failed.leaks, fun other => ⟨(failed.kept other).1, trivial⟩⟩
    refine looped.mono (fun _ _ done => done.1) ?_
    intro e m' failed
    exact ⟨failed.is, failed.leaks, fun other => ⟨(failed.kept other).1, fun none_ => by cases none_⟩⟩
  | quiesce =>
    refine (forShards_spec refl trans ?_ _ inside inv).mono (fun _ _ done => done.1) weaken
    intro m i inv inside
    apply atShard_same inv inside
    refine (poll_spec _ (inv.owns inside)).mono ?_ fun _ _ failed => failed
    intro _ w ⟨owns, same⟩
    exact (Unaffected.refl (inv.owns inside) (inv.shards i inside).layout).same owns same
  | contains key => exact inv
  | tryGet key => exact inv
  | getOptional key => exact inv
  | forEach => exact inv

/-- The states of a map of which no call has thrown where a record was to be made. -/
inductive Reachable (parameters : Parameters Key) : Map Key Value → Prop
  | construct (initialCapacity : Nat) : Reachable parameters (construct parameters initialCapacity)
  | returned {m m' : Map Key Value} (before : Reachable parameters m) (fault : Fault) (guarded : Retired Key Value → Bool)
      (op : Operation Key Value) (returns : call parameters fault guarded op m = (.ok (), m')) : Reachable parameters m'
  | threw {m m' : Map Key Value} {e : Site} (before : Reachable parameters m) (fault : Fault) (guarded : Retired Key Value → Bool)
      (op : Operation Key Value) (throws : call parameters fault guarded op m = (.error e, m')) (other : fault.site ≠ .record) :
      Reachable parameters m'

omit [DecidableEq Key] in
theorem construct_inv (parameters : Parameters Key) (initialCapacity : Nat) :
    (construct parameters initialCapacity : Map Key Value).Inv parameters := by
  have empty : ∀ i, ((construct parameters initialCapacity : Map Key Value).shards i).table.cells = [] := by
    intro i
    show (replicate _ []).flatten = []
    simp
  have blocks : ∀ n, ((range n).flatMap fun i => [2 * i, 2 * i + 1]) = range (2 * n) := by
    intro n
    induction n with
    | zero => rfl
    | succ n hyp =>
      rw [range_succ, flatMap_append, hyp]
      show _ = range (2 * n + 1 + 1)
      rw [range_succ, range_succ, append_assoc]
      rfl
  refine ⟨?_, ?_, ?_, nodup_range, fun block mem => mem_range.mp mem⟩
  · intro i _
    have nothing : Shard.data ((construct parameters initialCapacity : Map Key Value).shards i) = [] := by
      unfold Shard.data
      rw [empty]
      rfl
    refine ⟨⟨?_, ?_, ?_⟩, ?_, ?_⟩
    · exact length_replicate.symm
    · exact Nat.lt_of_lt_of_eq (bucketCountForElements_pos _) length_replicate.symm
    · intro j cells found cell mem
      rw [eq_of_mem_replicate (mem_of_getElem? found)] at mem
      cases mem
    · rw [nothing]
      exact ⟨forall_mem_nil _, forall_mem_nil _, nodup_nil⟩
    · rw [nothing]
      rfl
  · show 0 = ((range parameters.shardCount).map fun _ => 0).sum
    simp
  · show (range (2 * parameters.shardCount)).Perm _
    rw [← blocks]
    unfold Map.blocks Shard.blocks Table.blocks
    apply List.Perm.of_eq
    apply flatMap_congr
    intro i _
    rw [empty]
    rfl

theorem call_spec (fault : Fault) (guarded : Retired Key Value → Bool) (op : Operation Key Value) (inv : m.Inv parameters) :
    Ensures (call parameters fault guarded op) m (fun _ m' => m'.Inv parameters)
      (MapFailed parameters fault (fun m m' => updates op = true → SameData m m') m) := by
  have begun : Map.Inv parameters { m with made := fun _ => 0 } := ⟨inv.shards, inv.counted, inv.owned, inv.distinct, inv.old⟩
  exact (perform_spec guarded op begun).mono (fun _ _ inv => inv) fun _ _ failed => ⟨failed.is, failed.leaks, failed.kept⟩

theorem Reachable.inv (reachable : Reachable parameters m) : m.Inv parameters := by
  induction reachable with
  | construct initialCapacity => exact construct_inv parameters initialCapacity
  | returned _ fault guarded op returns hyp =>
    exact (call_spec fault guarded op hyp).ok returns
  | threw _ fault guarded op throws other hyp =>
    have failed := (call_spec fault guarded op hyp).error throws
    exact (failed.kept fun record => other (failed.is.symm.trans record)).1

/-- A call has had no effect: the entries are those of before, they are as many as `Size` says and no two have the same key,
    and what is alive is owned, by one owner. -/
structure NoEffect (parameters : Parameters Key) (m m' : Map Key Value) : Prop where
  entries : (m'.entries parameters).Perm (m.entries parameters)
  counted : m'.size = (m'.entries parameters).length
  keys : ((m'.entries parameters).map Prod.fst).Nodup
  owned : m'.memory.live.Perm (m'.blocks parameters)
  apart : (m'.blocks parameters).Nodup

omit [DecidableEq Key] in
theorem Map.Inv.keys (inv : m.Inv parameters) : ((m.entries parameters).map Prod.fst).Nodup := by
  unfold Map.entries
  rw [map_flatMap, nodup_flatMap]
  refine ⟨?_, ?_⟩
  · intro i mem
    have distinct := (inv.shards i (mem_range.mp mem)).keyed.distinct
    rwa [map_map]
  · have own : ∀ i ∈ range parameters.shardCount, ∀ key ∈ ((m.shards i).data.map Prod.snd).map Prod.fst,
        shardIndex parameters (parameters.hash key) = i := by
      intro i mem key there
      rw [map_map] at there
      obtain ⟨entry, inside, rfl⟩ := mem_map.mp there
      have keyed := (inv.shards i (mem_range.mp mem)).keyed
      have at_ := keyed.own entry inside
      rwa [keyed.hashed entry inside] at at_
    apply nodup_range.imp_of_mem
    intro i j mem mem' differ key there there'
    exact differ ((own i mem key there).symm.trans (own j mem' key there'))

omit [DecidableEq Key] in
theorem Map.Inv.noEffect (inv : m'.Inv parameters) (same : SameData m m') : NoEffect parameters m m' := by
  have entries : (m'.entries parameters).Perm (m.entries parameters) :=
    List.Perm.flatMap_left _ fun i _ => (same i).map _
  refine ⟨entries, ?_, inv.keys, inv.owned, (inv.owned.nodup_iff).mp inv.distinct⟩
  · rw [inv.counted, Map.entries, length_flatMap]
    congr 1
    apply map_congr_left
    intro i mem
    rw [(inv.shards i (mem_range.mp mem)).size, length_map]

/-- A throwing update has no effect if and only if it is not the memory of a record that is refused. -/
theorem noEffect_iff (reachable : Reachable parameters m) (op : Operation Key Value) (isUpdate : updates op = true) (fault : Fault)
    (guarded : Retired Key Value → Bool) {e : Site} (throws : call parameters fault guarded op m = (.error e, m')) :
    NoEffect parameters m m' ↔ fault.site ≠ .record := by
  have spec := (call_spec fault guarded op reachable.inv).error throws
  rw [← spec.is]
  constructor
  · intro noEffect record
    obtain ⟨block, alive, lost⟩ := spec.leaks record
    exact lost (noEffect.owned.mem_iff.mp alive)
  · intro other
    obtain ⟨inv', same⟩ := spec.kept other
    exact inv'.noEffect (same isUpdate)

def oneShard : Parameters Nat := { hash := id, policy := .localEpoch, shardCount := 1, shardCount_pos := Nat.one_pos }

theorem noEffect_iff_node : let m : Map Nat Nat := construct oneShard 1
    NoEffect oneShard m (call oneShard ⟨.node, 0⟩ (fun _ => false) (.insert 3 4) m).2 :=
  (noEffect_iff (e := .node) (.construct 1) (.insert 3 4) rfl ⟨.node, 0⟩ (fun _ => false) (Prod.ext (by decide +kernel) rfl)).mpr (by decide)

theorem removed_without_record : ¬∀ (m m' : Map Nat Nat) (op : Operation Nat Nat) (fault : Fault) (guarded : Retired Nat Nat → Bool)
    (e : Site), Reachable oneShard m → updates op = true → call oneShard fault guarded op m = (.error e, m') →
      NoEffect oneShard m m' := by
  intro all
  let filled : Map Nat Nat := (call oneShard ⟨.record, 9⟩ (fun _ => false) (.insert 3 4) (construct oneShard 1)).2
  have reachable : Reachable oneShard filled :=
    .returned (.construct 1) ⟨.record, 9⟩ (fun _ => false) (.insert 3 4) (Prod.ext (by decide +kernel) rfl)
  let after : Map Nat Nat := (call oneShard ⟨.record, 0⟩ (fun _ => false) (.remove 3) filled).2
  have throws : call oneShard ⟨.record, 0⟩ (fun _ => false) (.remove 3) filled = (.error .record, after) :=
    Prod.ext (by decide +kernel) rfl
  have counted := (all filled after _ _ _ _ reachable rfl throws).counted
  exact absurd counted (by decide +kernel)

end

end NginBase.Containers.ConcurrentHashMap.Throwing
