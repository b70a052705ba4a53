import NginBase.Containers.ThrowingLaws

namespace NginBase.Containers.ConcurrentHashMap.Throwing

open Library Library.Command List Cell

variable {Key Value : Type}

section

variable {fault : Fault} {start w w' : World Key Value} {held : List Nat}

structure Layout (shard : Shard Key Value) : Prop where
  counted : shard.bucketCount = shard.table.buckets.length
  some_ : 0 < shard.table.buckets.length
  placed : Placed shard.table.buckets

def Shard.data (shard : Shard Key Value) : List (Nat × Key × Value) := dataOf shard.table.cells

/-- The shard has the entries that it had, though perhaps in another table. -/
structure Unaffected (start : World Key Value) (held : List Nat) (w : World Key Value) : Prop where
  owns : Owns w held
  layout : Layout w.shard
  data : w.shard.data.Perm start.shard.data
  size : w.shard.size = start.shard.size
  total : w.total = start.total

/-- What a throw leaves: nothing of the call, unless it is the throw of a record. -/
structure Failed (fault : Fault) (start : World Key Value) (held : List Nat) (e : Site) (w : World Key Value) : Prop where
  is : e = fault.site
  leaks : e = .record → Leaks w held
  unaffected : e ≠ .record → Unaffected start held w

theorem Unaffected.refl (owns : Owns w held) (layout : Layout w.shard) : Unaffected w held w :=
  ⟨owns, layout, .refl _, rfl, rfl⟩

theorem Unaffected.trans {middle : World Key Value} (first : Unaffected start held middle) (second : Unaffected middle held w) :
    Unaffected start held w :=
  ⟨second.owns, second.layout, second.data.trans first.data, second.size.trans first.size, second.total.trans first.total⟩

theorem Unaffected.holding (holding : Holding start held w) (layout : Layout start.shard) : Unaffected start held w :=
  ⟨holding.owns, holding.shard ▸ layout, by rw [holding.shard], by rw [holding.shard], holding.total⟩

theorem Same.layout (same : Same w w') (layout : Layout w.shard) : Layout w'.shard := by
  obtain ⟨counted, some_, placed⟩ := layout
  rw [← same.table] at counted some_ placed
  exact ⟨same.bucketCount.trans counted, some_, placed⟩

theorem Same.data (same : Same w w') : w'.shard.data = w.shard.data := by
  rw [Shard.data, same.table, ← Shard.data]

theorem Unaffected.same {before : List Nat} (unaffected : Unaffected start before w) (owns : Owns w' held) (same : Same w w') :
    Unaffected start held w' :=
  ⟨owns, same.layout unaffected.layout, same.data ▸ unaffected.data, same.size.trans unaffected.size,
    same.total.trans unaffected.total⟩

theorem Unaffected.failed {middle : World Key Value} {e : Site} (first : Unaffected start held middle)
    (undone : Undone fault middle held e w) : Failed fault start held e w :=
  ⟨undone.1, fun record => absurd record undone.2.1, fun _ => first.trans (.holding undone.2.2 first.layout)⟩

theorem Failed.leaked {e : Site} (lost : e = fault.site ∧ e = .record ∧ Leaks w held) : Failed fault start held e w :=
  ⟨lost.1, fun _ => lost.2.2, fun other => absurd lost.2.1 other⟩

theorem resizeTable_spec (desiredElements : Nat) (holding : Holding start held w) :
    (resizeTable fault start.shard.table desiredElements).Ensures w
      (fun resized w' => match resized with
        | none => Holding start held w'
        | some resized => 0 < resized.buckets.length ∧ Placed resized.buckets ∧
            (dataOf resized.cells).Perm start.shard.data ∧ Holding start (resized.blocks ++ held) w')
      (Undone fault start held) := by
  unfold resizeTable
  dsimp only
  split
  · exact holding
  refine (allocateEmptyTable_spec _ holding).bind ?_
  intro replacement w' ⟨empty, holding⟩
  have length : replacement.buckets.length = bucketCountForElements desiredElements := by rw [empty, length_replicate]
  have some_ : 0 < replacement.buckets.length := by
    rw [length]
    exact bucketCountForElements_pos _
  have placed : Placed replacement.buckets := by
    intro i cells found cell mem
    rw [empty] at found
    rw [eq_of_mem_replicate (mem_of_getElem? found)] at mem
    cases mem
  have nothing : replacement.cells = [] := by
    unfold Table.cells
    rw [empty]
    simp
  refine (resizeLoop_spec start.shard.table.cells replacement some_ placed holding).bind ?_
  intro resized w'' ⟨length', placed', data, holding⟩
  refine ⟨length' ▸ some_, placed', ?_, holding⟩
  rw [nothing] at data
  simpa [dataOf, Shard.data] using data

/-- A table that is too small is replaced by another one with the same entries, and lost if no record can be made for it. -/
theorem ensureShardCapacity_spec (desiredElements : Nat) (owns : Owns start held) (layout : Layout start.shard) :
    (ensureShardCapacity fault desiredElements).Ensures start (fun _ w => Unaffected start held w) (Failed fault start held) := by
  have refl := Unaffected.refl owns layout
  unfold ensureShardCapacity
  rw [ensures_bind, ensures_get]
  refine ((resizeTable_spec desiredElements (.refl owns)).mono (fun _ _ done => done)
    fun _ _ undone => refl.failed undone).bind ?_
  intro resized w done
  cases resized with
  | none => exact .holding done layout
  | some resized =>
    obtain ⟨some_, placed, data, holding⟩ := done
    let stored : World Key Value := { w with shard.table := resized, shard.bucketCount := resized.buckets.length }
    have apart : Owns stored (start.shard.table.blocks ++ held) := by
      refine ⟨holding.owns.owned.trans ?_, holding.owns.distinct, holding.owns.old⟩
      rw [perm_iff_count]
      intro block
      simp only [stored, Shard.blocks, holding.shard, count_append]
      omega
    have unaffected : Unaffected start (start.shard.table.blocks ++ held) stored :=
      ⟨apart, ⟨rfl, some_, placed⟩, data, congrArg (·.size) holding.shard, holding.total⟩
    exact (retireTable_spec start.shard.table apart).mono (fun _ w' done => unaffected.same done.1 done.2)
      fun _ _ lost => .leaked lost

end

section

variable {fault : Fault} {start w w' : World Key Value} {held : List Nat} (parameters : Parameters Key) {index : Nat}

/-- The entries of a shard: each has its hash, belongs there, and is the only one with its key. -/
structure Keyed (index : Nat) (data : List (Nat × Key × Value)) : Prop where
  hashed : ∀ entry ∈ data, entry.1 = parameters.hash entry.2.1
  own : ∀ entry ∈ data, shardIndex parameters entry.1 = index
  distinct : (data.map fun entry => entry.2.1).Nodup

variable {parameters}

theorem Keyed.perm {data data' : List (Nat × Key × Value)} (keyed : Keyed parameters index data) (same : data'.Perm data) :
    Keyed parameters index data' :=
  ⟨fun entry mem => keyed.hashed entry (same.mem_iff.mp mem), fun entry mem => keyed.own entry (same.mem_iff.mp mem),
    (same.map _).nodup_iff.mpr keyed.distinct⟩

theorem Keyed.sublist {data data' : List (Nat × Key × Value)} (keyed : Keyed parameters index data) (less : data'.Sublist data) :
    Keyed parameters index data' :=
  ⟨fun entry mem => keyed.hashed entry (less.subset mem), fun entry mem => keyed.own entry (less.subset mem),
    keyed.distinct.sublist (less.map _)⟩

variable (parameters) in
structure Sound (index : Nat) (shard : Shard Key Value) : Prop where
  layout : Layout shard
  keyed : Keyed parameters index shard.data
  size : shard.size = shard.data.length

variable (parameters) in
/-- A call has left a sound shard, and has counted alike for it and for the map. -/
structure Kept (index : Nat) (start : World Key Value) (held : List Nat) (w : World Key Value) : Prop where
  sound : Sound parameters index w.shard
  owns : Owns w held
  counted : w.total + start.shard.size = start.total + w.shard.size

theorem Unaffected.kept (unaffected : Unaffected start held w) (sound : Sound parameters index start.shard) :
    Kept parameters index start held w := by
  refine ⟨⟨unaffected.layout, sound.keyed.perm unaffected.data, ?_⟩, unaffected.owns, ?_⟩
  · rw [unaffected.size, sound.size, unaffected.data.length_eq]
  · rw [unaffected.total, unaffected.size]

/-- A chain has taken the place of another one, which is held until it is retired. -/
structure Stored (middle : World Key Value) (held : List Nat) (oldHead newHead others : List (Cell Key Value))
    (w : World Key Value) : Prop where
  owns : Owns w (blocksOf oldHead ++ held)
  layout : Layout w.shard
  data : w.shard.data.Perm (dataOf newHead ++ dataOf others)
  size : w.shard.size = middle.shard.size
  total : w.total = middle.total

theorem storeBucket_spec {middle : World Key Value} (layout : Layout middle.shard) {bucket : Nat}
    {oldHead newHead others : List (Cell Key Value)} (split : middle.shard.table.cells.Perm (oldHead ++ others))
    (set : ∀ cells, (middle.shard.table.buckets.set bucket cells).flatten.Perm (cells ++ others))
    (here : ∀ cell ∈ newHead, bucketIndex cell.hash middle.shard.table.buckets.length = bucket)
    (holding : Holding middle (blocksOf newHead ++ held) w) {failed : Site → World Key Value → Prop} :
    (storeBucket bucket newHead).Ensures w (fun _ w' => Stored middle held oldHead newHead others w') failed := by
  obtain ⟨shard, total, owned, distinct, old⟩ := holding
  let table : Table Key Value := { middle.shard.table with buckets := middle.shard.table.buckets.set bucket newHead }
  have after : { w.shard with table.buckets := w.shard.table.buckets.set bucket newHead } = { middle.shard with table } := by rw [shard]
  have made : table.cells.Perm (newHead ++ others) := set newHead
  unfold storeBucket
  rw [ensures_modify, after]
  refine ⟨⟨owned.trans ?_, distinct, old⟩, ⟨?_, ?_, layout.placed.set here⟩, ?_, rfl, total⟩
  · rw [shard]
    have before := blocks_perm split (middle.shard.retired.flatMap Retired.blocks ++ (blocksOf newHead ++ held))
    have behind := blocks_perm made (middle.shard.retired.flatMap Retired.blocks ++ (blocksOf oldHead ++ held))
    rw [perm_iff_count] at before behind ⊢
    intro block
    have before := before block
    have behind := behind block
    simp only [Shard.blocks, count_append] at before behind ⊢
    have block_ : table.block = middle.shard.table.block := rfl
    have array : table.array = middle.shard.table.array := rfl
    rw [block_, array] at behind
    omega
  · exact layout.counted.trans length_set.symm
  · exact Nat.lt_of_lt_of_eq layout.some_ length_set.symm
  · have mapped := made.map data
    rwa [map_append] at mapped

theorem Stored.retired {middle : World Key Value} {oldHead newHead others : List (Cell Key Value)}
    (stored : Stored middle held oldHead newHead others w) :
    (retireChain fault oldHead).Ensures w (fun _ w' => Stored middle held [] newHead others w') (Failed fault start held) := by
  refine (retireChain_spec oldHead stored.owns).mono ?_ fun _ _ lost => .leaked lost
  intro _ w' ⟨owns, same⟩
  exact ⟨owns, same.layout stored.layout, same.data ▸ stored.data, same.size.trans stored.size, same.total.trans stored.total⟩

theorem Kept.of_same {data : List (Nat × Key × Value)} (owns : Owns w' held) (same : Same w w') (layout : Layout w.shard)
    (entries : w.shard.data.Perm data) (keyed : Keyed parameters index data) (size : w.shard.size = data.length)
    (counted : w.total + start.shard.size = start.total + w.shard.size) : Kept parameters index start held w' := by
  have entries' : w'.shard.data.Perm data := same.data ▸ entries
  refine ⟨⟨same.layout layout, keyed.perm entries', ?_⟩, owns, ?_⟩
  · rw [same.size, size, entries'.length_eq]
  · rw [same.total, same.size]
    exact counted

end

section

variable [DecidableEq Key] {parameters : Parameters Key} {index hash : Nat} {key : Key}

theorem isAt_iff {cell : Cell Key Value} : cell.isAt key hash = true ↔ cell.hash = hash ∧ cell.key = key := by
  simp [isAt]

theorem absent_of_bucket {table : Table Key Value} (placed : Placed table.buckets)
    (keyed : Keyed parameters index (dataOf table.cells))
    (none_ : ((table.buckets.getD (bucketIndex (parameters.hash key) table.buckets.length) []).find?
      (isAt key (parameters.hash key))).isNone = true) :
    ∀ entry ∈ dataOf table.cells, entry.2.1 ≠ key := by
  intro entry mem same
  have hashed := keyed.hashed entry mem
  obtain ⟨cell, inside, rfl⟩ := mem_map.mp mem
  obtain ⟨bucket, isBucket, inBucket⟩ := mem_flatten.mp inside
  obtain ⟨i, found⟩ := mem_iff_getElem?.mp isBucket
  have at_ := placed i bucket found cell inBucket
  have hash_ : cell.hash = parameters.hash key := by
    rw [← same]
    exact hashed
  rw [Option.isNone_iff_eq_none, find?_eq_none] at none_
  apply none_ cell ?_ (isAt_iff.mpr ⟨hash_, same⟩)
  rw [← hash_, at_, getD_eq_getElem?_getD, found]
  exact inBucket

theorem length_filter_isAt {cells : List (Cell Key Value)} (distinct : (cells.map Cell.key).Nodup)
    (found : (cells.find? (isAt key hash)).isSome = true) :
    (cells.filter fun cell => !cell.isAt key hash).length + 1 = cells.length := by
  induction cells with
  | nil => simp at found
  | cons cell rest hyp =>
    rw [map_cons, nodup_cons] at distinct
    by_cases here : cell.isAt key hash = true
    · have others : rest.filter (fun cell => !cell.isAt key hash) = rest := by
        rw [filter_eq_self]
        intro other mem
        have differ : other.key ≠ cell.key := fun same => distinct.1 (same ▸ mem_map_of_mem mem)
        rw [isAt_iff] at here
        simp only [Bool.not_eq_true', Bool.eq_false_iff, ne_eq, isAt_iff, not_and]
        intro _ same
        exact differ (same.trans here.2.symm)
      rw [filter_cons_of_neg (by simp [here]), others, length_cons]
    · rw [find?_cons_of_neg here] at found
      rw [filter_cons_of_pos (by simpa using here), length_cons, hyp distinct.2 found, length_cons]

omit [DecidableEq Key] in
theorem keyed_insert {data : List (Nat × Key × Value)} (keyed : Keyed parameters index data)
    (own : shardIndex parameters (parameters.hash key) = index) (absent : ∀ entry ∈ data, entry.2.1 ≠ key) (value : Value) :
    Keyed parameters index ((parameters.hash key, key, value) :: data) := by
  refine ⟨?_, ?_, ?_⟩
  · intro entry mem
    rcases mem_cons.mp mem with rfl | mem
    · rfl
    · exact keyed.hashed entry mem
  · intro entry mem
    rcases mem_cons.mp mem with rfl | mem
    · exact own
    · exact keyed.own entry mem
  · rw [map_cons, nodup_cons]
    refine ⟨?_, keyed.distinct⟩
    intro mem
    obtain ⟨entry, inside, same⟩ := mem_map.mp mem
    exact absent entry inside same

omit [DecidableEq Key] in
theorem keyed_of_keys {data data' : List (Nat × Key × Value)} (keyed : Keyed parameters index data)
    (same : data'.map (fun entry => (entry.1, entry.2.1)) = data.map fun entry => (entry.1, entry.2.1)) :
    Keyed parameters index data' := by
  have known : ∀ entry ∈ data', ∃ entry' ∈ data, entry.1 = entry'.1 ∧ entry.2.1 = entry'.2.1 := by
    intro entry mem
    have mem := mem_map_of_mem (f := fun entry : Nat × Key × Value => (entry.1, entry.2.1)) mem
    rw [same] at mem
    obtain ⟨entry', inside, is⟩ := mem_map.mp mem
    exact ⟨entry', inside, (congrArg Prod.fst is).symm, (congrArg Prod.snd is).symm⟩
  refine ⟨?_, ?_, ?_⟩
  · intro entry mem
    obtain ⟨entry', inside, hash_, key_⟩ := known entry mem
    rw [hash_, key_]
    exact keyed.hashed entry' inside
  · intro entry mem
    obtain ⟨entry', inside, hash_, _⟩ := known entry mem
    rw [hash_]
    exact keyed.own entry' inside
  · have keys := congrArg (map Prod.snd) same
    rw [map_map, map_map] at keys
    have distinct := keyed.distinct
    show (data'.map (Prod.snd ∘ fun entry => (entry.1, entry.2.1))).Nodup
    rw [keys]
    exact distinct

end

section

variable {parameters : Parameters Key} {index : Nat} {fault : Fault} {start middle w : World Key Value} {held : List Nat}
  {oldHead newHead others : List (Cell Key Value)}

theorem length_of_data {data : List (Nat × Key × Value)} (is : dataOf newHead = data) : newHead.length = data.length := by
  rw [← is, dataOf, length_map]

theorem Stored.inserted (stored : Stored middle held [] newHead others w) :
    Ensures countInserted w (fun _ w' => Stored middle.inserted held [] newHead others w') (Failed fault start held) := by
  refine ⟨⟨stored.owns.owned, stored.owns.distinct, stored.owns.old⟩, ⟨stored.layout.counted, stored.layout.some_, stored.layout.placed⟩,
    stored.data, ?_, ?_⟩
  · exact congrArg (· + 1) stored.size
  · exact congrArg (· + 1) stored.total

theorem Stored.removed (stored : Stored middle held [] newHead others w) :
    Ensures countRemoved w (fun _ w' => Stored middle.removed held [] newHead others w') (Failed fault start held) := by
  refine ⟨⟨stored.owns.owned, stored.owns.distinct, stored.owns.old⟩, ⟨stored.layout.counted, stored.layout.some_, stored.layout.placed⟩,
    stored.data, ?_, ?_⟩
  · exact congrArg (· - 1) stored.size
  · exact congrArg (· - 1) stored.total

theorem Holding.inserted (holding : Holding middle held w) {failed : Site → World Key Value → Prop} :
    Ensures countInserted w (fun _ w' => Holding middle.inserted held w') failed := by
  obtain ⟨shard, total, owned, distinct, old⟩ := holding
  refine ⟨?_, congrArg (· + 1) total, owned, distinct, old⟩
  show { w.shard with size := w.shard.size + 1 } = { middle.shard with size := middle.shard.size + 1 }
  rw [shard]

theorem Stored.finish (guarded : Retired Key Value → Bool) (answer : Bool) (stored : Stored middle held [] newHead others w)
    (keyed : Keyed parameters index (dataOf newHead ++ dataOf others)) (size : middle.shard.size = newHead.length + others.length)
    (counted : middle.total + start.shard.size = start.total + middle.shard.size) :
    Ensures (do
        poll guarded
        pure answer : Update Key Value Bool) w (fun _ w' => Kept parameters index start held w') (Failed fault start held) := by
  refine (poll_spec guarded stored.owns).bind ?_
  intro _ w' ⟨owns, same⟩
  refine Kept.of_same owns same stored.layout stored.data keyed ?_ ?_
  · rw [stored.size, size]
    simp [dataOf]
  · rw [stored.size, stored.total]
    exact counted

variable [DecidableEq Key]

/-- A world of which the call has opened the bucket of its key: there is one chain, and there are all other nodes. -/
structure Opened (parameters : Parameters Key) (index : Nat) (key : Key) (start : World Key Value) (held : List Nat)
    (middle : World Key Value) (bucket : Nat) (oldHead others : List (Cell Key Value)) : Prop where
  first : Unaffected start held middle
  size : middle.shard.size = oldHead.length + others.length
  counted : middle.total + start.shard.size = start.total + middle.shard.size
  here : ∀ cell ∈ oldHead, bucketIndex cell.hash middle.shard.table.buckets.length = bucket
  split : middle.shard.table.cells.Perm (oldHead ++ others)
  set : ∀ cells, (middle.shard.table.buckets.set bucket cells).flatten.Perm (cells ++ others)
  keyed : Keyed parameters index (dataOf oldHead ++ dataOf others)
  absent : (oldHead.find? (isAt key (parameters.hash key))).isNone = true →
    ∀ entry ∈ dataOf oldHead ++ dataOf others, entry.2.1 ≠ key

theorem exists_opened (first : Unaffected start held middle) (sound : Sound parameters index start.shard) (key : Key) :
    ∃ others, Opened parameters index key start held middle (bucketIndex (parameters.hash key) middle.shard.table.buckets.length)
      (middle.shard.table.buckets.getD (bucketIndex (parameters.hash key) middle.shard.table.buckets.length) []) others := by
  obtain ⟨others, split, set⟩ := exists_others (bucketIndex_lt first.layout.some_ (parameters.hash key))
  have keyed := sound.keyed.perm first.data
  have data := split.map data
  rw [map_append] at data
  refine ⟨others, first, ?_, ?_, first.layout.placed.getD _, split, set, keyed.perm data.symm, ?_⟩
  · have length := data.length_eq
    rw [first.size, sound.size, ← first.data.length_eq]
    simpa [Shard.data, Table.cells, dataOf] using length
  · rw [first.size, first.total]
  · intro none_ entry mem
    exact absent_of_bucket first.layout.placed keyed none_ entry (data.mem_iff.mpr mem)

theorem Opened.here_of_hashes {key : Key} {bucket : Nat} (opened : Opened parameters index key start held middle bucket oldHead others)
    {hash : Nat} (at_ : bucketIndex hash middle.shard.table.buckets.length = bucket)
    (known : ∀ h ∈ (dataOf newHead).map Prod.fst, h = hash ∨ h ∈ (dataOf oldHead).map Prod.fst) :
    ∀ cell ∈ newHead, bucketIndex cell.hash middle.shard.table.buckets.length = bucket := by
  intro cell mem
  rcases known cell.hash (mem_map_of_mem (mem_map_of_mem mem)) with same | old
  · rw [same]
    exact at_
  obtain ⟨entry, known, same⟩ := mem_map.mp old
  obtain ⟨other, there, rfl⟩ := mem_map.mp known
  rw [← same]
  exact opened.here other there

theorem Opened.counted_inserted {key : Key} {bucket : Nat}
    (opened : Opened parameters index key start held middle bucket oldHead others) :
    middle.inserted.total + start.shard.size = start.total + middle.inserted.shard.size := by
  show middle.total + 1 + start.shard.size = start.total + (middle.shard.size + 1)
  rw [Nat.add_right_comm, opened.counted, Nat.add_assoc]

theorem replaced_keys (hash : Nat) (key : Key) (cells : List (Cell Key Value)) (change : Value → Value) :
    (cells.map fun cell => if cell.isAt key hash then (cell.hash, cell.key, change cell.value) else cell.data).map
      (fun entry => (entry.1, entry.2.1)) = (dataOf cells).map fun entry => (entry.1, entry.2.1) := by
  unfold dataOf
  rw [map_map, map_map]
  apply map_congr_left
  intro cell _
  show (fun entry : Nat × Key × Value => (entry.1, entry.2.1)) (if cell.isAt key hash then _ else _) = _
  split <;> rfl

structure Replaces (oldHead newHead : List (Cell Key Value)) : Prop where
  keys : (dataOf newHead).map (fun entry => (entry.1, entry.2.1)) = (dataOf oldHead).map fun entry => (entry.1, entry.2.1)

omit [DecidableEq Key] in
theorem Replaces.length (replaces : Replaces oldHead newHead) : newHead.length = oldHead.length := by
  simpa [dataOf] using congrArg List.length replaces.keys

omit [DecidableEq Key] in
theorem Replaces.hashes (replaces : Replaces oldHead newHead) (hash : Nat) :
    ∀ h ∈ (dataOf newHead).map Prod.fst, h = hash ∨ h ∈ (dataOf oldHead).map Prod.fst := by
  have same := congrArg (map Prod.fst) replaces.keys
  rw [map_map, map_map] at same
  intro h mem
  exact .inr (same ▸ mem)

omit [DecidableEq Key] in
theorem Replaces.keyed (replaces : Replaces oldHead newHead) (keyed : Keyed parameters index (dataOf oldHead ++ dataOf others)) :
    Keyed parameters index (dataOf newHead ++ dataOf others) :=
  keyed_of_keys keyed (by rw [map_append, map_append, replaces.keys])

variable (guarded : Retired Key Value → Bool) (key : Key)

section

variable (own : shardIndex parameters (parameters.hash key) = index) (value : Value)

include own value

theorem insertOrAssignInternal_spec (sound : Sound parameters index start.shard) (owns : Owns start held) :
    (insertOrAssignInternal fault guarded (parameters.hash key) key value).Ensures start
      (fun _ w => Kept parameters index start held w) (Failed fault start held) := by
  unfold insertOrAssignInternal
  rw [ensures_bind, ensures_get]
  refine (ensureShardCapacity_spec _ owns sound.layout).bind ?_
  intro _ middle first
  rw [ensures_bind, ensures_get]
  dsimp only
  obtain ⟨others, opened⟩ := exists_opened first sound key
  generalize middle.shard.table.buckets.getD _ [] = oldHead at opened
  have failed : ∀ e w, Undone fault middle held e w → Failed fault start held e w := fun _ _ undone => first.failed undone
  cases absent : (oldHead.find? (isAt key (parameters.hash key))).isNone with
  | true =>
    refine ((cloneChainWithPrepended_spec key _ oldHead value (.refl first.owns)).mono (fun _ _ done => done) failed).bind ?_
    rintro newHead w ⟨made, holding⟩
    have here := opened.here_of_hashes rfl (by rw [made]; simp)
    refine (storeBucket_spec first.layout opened.split opened.set here holding).bind ?_
    intro _ w stored
    refine stored.retired.bind ?_
    intro _ w stored
    refine stored.inserted.bind ?_
    intro _ w stored
    refine stored.finish guarded true ?_ ?_ ?_
    · rw [made]
      exact keyed_insert opened.keyed own (opened.absent absent) value
    · rw [length_of_data made, length_cons, dataOf, length_map, Nat.add_right_comm]
      exact congrArg (· + 1) opened.size
    · exact opened.counted_inserted
  | false =>
    have makes : ∀ (current : Value) start held w, Holding start held w → Ensures (do
        mayThrow fault .value
        pure value : Update Key Value Value) w (fun next w' => next = value ∧ Holding start held w') (Undone fault start held) :=
      fun _ _ _ _ holding => (mayThrow_spec (by decide) holding).bind fun _ _ holding => ⟨rfl, holding⟩
    refine ((cloneChainReplacingValue_spec key _ (fun _ => value) makes oldHead (.refl first.owns)).mono
      (fun _ _ done => done) failed).bind ?_
    rintro newHead w ⟨made, holding⟩
    have replaces : Replaces oldHead newHead := ⟨by rw [made]; exact replaced_keys _ _ oldHead fun _ => value⟩
    have here := opened.here_of_hashes rfl (replaces.hashes _)
    refine (storeBucket_spec first.layout opened.split opened.set here holding).bind ?_
    intro _ w stored
    refine stored.retired.bind ?_
    intro _ w stored
    exact stored.finish guarded false (replaces.keyed opened.keyed) (by rw [replaces.length]; exact opened.size) opened.counted

theorem upsertInternal_spec (updater : Value → Value → Value) (sound : Sound parameters index start.shard)
    (owns : Owns start held) :
    (upsertInternal fault guarded (parameters.hash key) key value updater).Ensures start
      (fun _ w => Kept parameters index start held w) (Failed fault start held) := by
  unfold upsertInternal
  rw [ensures_bind, ensures_get]
  refine (ensureShardCapacity_spec _ owns sound.layout).bind ?_
  intro _ middle first
  rw [ensures_bind, ensures_get]
  dsimp only
  obtain ⟨others, opened⟩ := exists_opened first sound key
  generalize middle.shard.table.buckets.getD _ [] = oldHead at opened
  have failed : ∀ e w, Undone fault middle held e w → Failed fault start held e w := fun _ _ undone => first.failed undone
  cases absent : (oldHead.find? (isAt key (parameters.hash key))).isNone with
  | true =>
    refine ((cloneChainWithPrepended_spec key _ oldHead value (.refl first.owns)).mono (fun _ _ done => done) failed).bind ?_
    rintro newHead w ⟨made, holding⟩
    -- the counting comes before the chain is stored
    refine holding.inserted.bind ?_
    intro _ w holding
    rw [ensures_bind, ensures_pure]
    have here := opened.here_of_hashes rfl (by rw [made]; simp)
    have layout : Layout middle.inserted.shard := ⟨first.layout.counted, first.layout.some_, first.layout.placed⟩
    refine (storeBucket_spec layout opened.split opened.set here holding).bind ?_
    intro _ w stored
    refine stored.retired.bind ?_
    intro _ w stored
    refine stored.finish guarded true ?_ ?_ ?_
    · rw [made]
      exact keyed_insert opened.keyed own (opened.absent absent) value
    · rw [length_of_data made, length_cons, dataOf, length_map, Nat.add_right_comm]
      exact congrArg (· + 1) opened.size
    · exact opened.counted_inserted
  | false =>
    have makes : ∀ (current : Value) start held w, Holding start held w → Ensures (do
        mayThrow fault .value
        mayThrow fault .value
        pure (updater current value) : Update Key Value Value) w (fun next w' => next = updater current value ∧ Holding start held w')
        (Undone fault start held) :=
      fun _ _ _ _ holding => (mayThrow_spec (by decide) holding).bind fun _ _ holding =>
        (mayThrow_spec (by decide) holding).bind fun _ _ holding => ⟨rfl, holding⟩
    refine ((cloneChainReplacingValue_spec key _ (fun current => updater current value) makes oldHead (.refl first.owns)).mono
      (fun _ _ done => done) failed).bind ?_
    rintro newHead w ⟨made, holding⟩
    have replaces : Replaces oldHead newHead := ⟨by rw [made]; exact replaced_keys _ _ oldHead fun current => updater current value⟩
    have here := opened.here_of_hashes rfl (replaces.hashes _)
    refine (storeBucket_spec first.layout opened.split opened.set here holding).bind ?_
    intro _ w stored
    refine stored.retired.bind ?_
    intro _ w stored
    exact stored.finish guarded false (replaces.keyed opened.keyed) (by rw [replaces.length]; exact opened.size) opened.counted

end

theorem remove_spec (sound : Sound parameters index start.shard) (owns : Owns start held) (counted : start.shard.size ≤ start.total) :
    (remove fault guarded (parameters.hash key) key).Ensures start
      (fun _ w => Kept parameters index start held w) (Failed fault start held) := by
  have first := Unaffected.refl owns sound.layout
  unfold remove
  rw [ensures_bind, ensures_get]
  dsimp only
  obtain ⟨others, opened⟩ := exists_opened first sound key
  generalize start.shard.table.buckets.getD _ [] = oldHead at opened
  cases absent : (oldHead.find? (isAt key (parameters.hash key))).isNone with
  | true =>
    exact first.kept sound
  | false =>
    refine ((cloneChainWithoutKey_spec key _ oldHead (.refl owns)).mono (fun _ _ done => done)
      fun _ _ undone => first.failed undone).bind ?_
    intro newHead w ⟨made, holding⟩
    have sublist : (dataOf newHead).Sublist (dataOf oldHead) := by
      rw [made]
      exact filter_sublist.map _
    have here := opened.here_of_hashes rfl fun h mem => .inr ((sublist.map Prod.fst).subset mem)
    refine (storeBucket_spec first.layout opened.split opened.set here holding).bind ?_
    intro _ w stored
    refine stored.retired.bind ?_
    intro _ w stored
    refine stored.removed.bind ?_
    intro _ w stored
    have shorter : newHead.length + 1 = oldHead.length := by
      have distinct : (oldHead.map Cell.key).Nodup := by
        have distinct := opened.keyed.distinct
        rw [map_append, nodup_append] at distinct
        simpa [dataOf, data, Function.comp_def] using distinct.1
      rw [length_of_data made, dataOf, length_map]
      apply length_filter_isAt distinct
      simpa [← Option.isSome_eq_false_iff] using absent
    have size := opened.size
    have same : start.removed.shard.size = start.shard.size - 1 := rfl
    have total : start.removed.total = start.total - 1 := rfl
    refine stored.finish guarded true (opened.keyed.sublist (sublist.append_right _)) ?_ ?_ <;> omega

omit [DecidableEq Key] in
theorem reserveShard_spec (perShardCapacity : Nat) (owns : Owns start held) (layout : Layout start.shard) :
    (reserveShard fault guarded perShardCapacity).Ensures start (fun _ w => Unaffected start held w) (Failed fault start held) := by
  refine (ensureShardCapacity_spec perShardCapacity owns layout).bind ?_
  intro _ w unaffected
  refine (poll_spec guarded unaffected.owns).mono ?_ fun _ _ failed => failed
  intro _ w' ⟨owns, same⟩
  exact unaffected.same owns same

omit [DecidableEq Key] in
theorem clearShard_spec (sound : Sound parameters index start.shard) (owns : Owns start held) (counted : start.shard.size ≤ start.total) :
    (clearShard fault guarded).Ensures start (fun _ w => Kept parameters index start held w) (Failed fault start held) := by
  have first := Unaffected.refl owns sound.layout
  unfold clearShard
  refine ((allocateEmptyTable_spec _ (.refl owns)).mono (fun _ _ done => done) fun _ _ undone => first.failed undone).bind ?_
  rintro replacement w ⟨empty, holding⟩
  let stored : World Key Value := { w with
    shard.table := replacement
    shard.bucketCount := replacement.buckets.length
    total := w.total - w.shard.size
    shard.size := 0 }
  have apart : Owns stored (start.shard.table.blocks ++ held) := by
    refine ⟨holding.owns.owned.trans ?_, holding.owns.distinct, holding.owns.old⟩
    rw [perm_iff_count]
    intro block
    simp only [stored, Shard.blocks, holding.shard, count_append]
    omega
  have layout : Layout stored.shard := by
    refine ⟨rfl, ?_, ?_⟩
    · show 0 < replacement.buckets.length
      rw [empty, length_replicate]
      exact sound.layout.some_
    · intro i cells found cell mem
      rw [empty] at found
      rw [eq_of_mem_replicate (mem_of_getElem? found)] at mem
      cases mem
  have nothing : stored.shard.data = [] := by
    show dataOf replacement.buckets.flatten = []
    rw [empty]
    simp [dataOf]
  have none_ : Keyed parameters index ([] : List (Nat × Key × Value)) := ⟨forall_mem_nil _, forall_mem_nil _, nodup_nil⟩
  have balance : stored.total + start.shard.size = start.total + stored.shard.size := by
    show w.total - w.shard.size + start.shard.size = start.total
    rw [holding.total, holding.shard]
    omega
  refine ((retireTable_spec _ apart).mono (fun _ _ done => done) fun _ _ lost => .leaked lost).bind ?_
  rintro _ w' ⟨owns, same⟩
  refine (poll_spec guarded owns).mono ?_ fun _ _ failed => failed
  rintro _ w'' ⟨owns, same'⟩
  have same : Same stored w'' := ⟨same'.table.trans same.table, same'.bucketCount.trans same.bucketCount, same'.size.trans same.size,
    same'.total.trans same.total⟩
  exact Kept.of_same owns same layout (by rw [nothing]) none_ rfl balance

end

end NginBase.Containers.ConcurrentHashMap.Throwing
