import NginBase.Containers.ThrowingUpdates

namespace NginBase.Containers.ConcurrentHashMap.Throwing

open Library Library.Command List

variable {Key Value : Type}

section

variable {w w' : World Key Value} {start : World Key Value} {held held' : List Nat} {block : Nat}

/-- Every block that is alive belongs to the shard or is held elsewhere, and to one of them only. -/
structure Owns (w : World Key Value) (held : List Nat) : Prop where
  owned : w.memory.live.Perm (w.shard.blocks ++ held)
  distinct : w.memory.live.Nodup
  old : ∀ block ∈ w.memory.live, block < w.memory.next

theorem Owns.perm (owns : Owns w held) (same : held.Perm held') : Owns w held' :=
  ⟨owns.owned.trans (same.append_left _), owns.distinct, owns.old⟩

theorem Owns.deallocate (owns : Owns w (block :: held)) : Owns (deallocate block w) held := by
  have owned := (owns.owned.trans perm_middle).erase block
  rw [erase_cons_head] at owned
  exact ⟨owned, owns.distinct.erase block, fun other mem => owns.old other (mem_of_mem_erase mem)⟩

/-- From `start` on only the memory has changed, and `held` is what the call and all others hold of it. -/
structure Holding (start : World Key Value) (held : List Nat) (w : World Key Value) : Prop where
  shard : w.shard = start.shard
  total : w.total = start.total
  owns : Owns w held

theorem Holding.perm (holding : Holding start held w) (same : held.Perm held') : Holding start held' w :=
  ⟨holding.shard, holding.total, holding.owns.perm same⟩

theorem Holding.deallocate (holding : Holding start (block :: held) w) : Holding start held (deallocate block w) :=
  ⟨holding.shard, holding.total, holding.owns.deallocate⟩

theorem Holding.destroyChain {cells : List (Cell Key Value)} (holding : Holding start (blocksOf cells ++ held) w) :
    Holding start held (destroyChain cells w) := by
  induction cells generalizing w with
  | nil => exact holding
  | cons cell rest hyp => exact hyp holding.deallocate

theorem Holding.destroyTable {table : Table Key Value} (holding : Holding start (table.blocks ++ held) w) :
    Holding start held (destroyTable table w) := by
  have emptied : ∀ (buckets : List (List (Cell Key Value))) (w : World Key Value) (held : List Nat),
      Holding start (blocksOf buckets.flatten ++ held) w →
        Holding start held (buckets.foldl (fun w cells => Throwing.destroyChain cells w) w) := by
    intro buckets
    induction buckets with
    | nil => exact fun w held holding => holding
    | cons cells rest hyp =>
      intro w held holding
      rw [flatten_cons, blocksOf, map_append, append_assoc] at holding
      exact hyp _ _ holding.destroyChain
  have last := emptied table.buckets w (table.array :: table.block :: held) (holding.perm (by
    exact ((perm_append_comm_assoc [table.block, table.array] _ held).trans
      ((List.Perm.swap _ _ held).append_left _))))
  exact last.deallocate.deallocate

theorem Holding.refl (owns : Owns w held) : Holding w held w := ⟨rfl, rfl, owns⟩

def Undone (fault : Fault) (start : World Key Value) (held : List Nat) (e : Site) (w : World Key Value) : Prop :=
  e = fault.site ∧ e ≠ .record ∧ Holding start held w

end

section

variable {fault : Fault} {start w : World Key Value} {held : List Nat}

theorem mayThrow_spec {site : Site} (other : site ≠ .record) (holding : Holding start held w) :
    (mayThrow fault site).Ensures w (fun _ w' => Holding start held w') (Undone fault start held) := by
  unfold Ensures mayThrow
  split
  · rename_i result here
    split at here
    · cases here
    cases here
    exact ⟨holding.shard, holding.total, holding.owns.owned, holding.owns.distinct, holding.owns.old⟩
  · rename_i e w' here
    split at here
    · rename_i throws
      cases here
      exact ⟨throws.1.symm, other, holding⟩
    · cases here

theorem takeBlock_holding (holding : Holding start held w) :
    Ensures takeBlock w (fun block w' => Holding start (block :: held) w') (Undone fault start held) := by
  obtain ⟨shard, total, owned, distinct, old⟩ := holding
  have fresh : w.memory.next ∉ w.memory.live := fun mem => Nat.lt_irrefl _ (old _ mem)
  refine ⟨shard, total, (owned.cons _).trans perm_middle.symm, nodup_cons.mpr ⟨fresh, distinct⟩, ?_⟩
  intro block mem
  rcases mem_cons.mp mem with rfl | mem
  · exact Nat.lt_succ_self _
  · exact Nat.lt_succ_of_lt (old block mem)

theorem allocateBytes_spec {site : Site} (other : site ≠ .record) (holding : Holding start held w) :
    (allocateBytes fault site).Ensures w (fun block w' => Holding start (block :: held) w') (Undone fault start held) :=
  (mayThrow_spec other holding).bind fun _ _ holding => takeBlock_holding holding

theorem onFailure_spec {α : Type} {x : Update Key Value α} {post : α → World Key Value → Prop} {more : List Nat}
    {repair : World Key Value → World Key Value} (spec : x.Ensures w post (Undone fault start more))
    (repairs : ∀ w', Holding start more w' → Holding start held (repair w')) :
    (x.onFailure repair).Ensures w post (Undone fault start held) := by
  rw [ensures_onFailure]
  refine spec.mono (fun _ _ done => done) ?_
  intro e w' undone
  exact ⟨undone.1, undone.2.1, repairs w' undone.2.2⟩

theorem allocateNode_spec (hash : Nat) (next : List (Cell Key Value)) (key : Key) (value : Value)
    (holding : Holding start (blocksOf next ++ held) w) :
    (allocateNode fault hash next key value).Ensures w
      (fun chain w' => (∃ block, chain = { block, hash, key, value } :: next) ∧ Holding start (blocksOf chain ++ held) w')
      (Undone fault start (blocksOf next ++ held)) := by
  refine (allocateBytes_spec (by decide) holding).bind ?_
  intro block w' holding
  have constructed : Ensures (do
      mayThrow fault .key
      mayThrow fault .value : Update Key Value Unit) w' (fun _ w' => Holding start (block :: (blocksOf next ++ held)) w')
      (Undone fault start (block :: (blocksOf next ++ held))) :=
    (mayThrow_spec (by decide) holding).bind fun _ _ holding => mayThrow_spec (by decide) holding
  refine (onFailure_spec constructed fun _ holding => holding.deallocate).bind ?_
  intro _ w'' holding
  exact ⟨⟨block, rfl⟩, holding⟩

theorem allocateEmptyTable_spec (bucketCount : Nat) (holding : Holding start held w) :
    (allocateEmptyTable fault bucketCount).Ensures w
      (fun table w' => table.buckets = replicate bucketCount [] ∧ Holding start (table.blocks ++ held) w')
      (Undone fault start held) := by
  refine (allocateBytes_spec (by decide) holding).bind ?_
  intro block w' holding
  have array : (allocateBytes fault .buckets).Ensures w' (fun array w' => Holding start (array :: block :: held) w')
      (Undone fault start (block :: held)) := allocateBytes_spec (by decide) holding
  refine (onFailure_spec array fun _ holding => holding.deallocate).bind ?_
  intro array w'' holding
  have empty : (replicate bucketCount ([] : List (Cell Key Value))).flatten = [] := by simp
  refine ⟨rfl, holding.perm ?_⟩
  simp only [Table.blocks, Table.cells, empty]
  exact List.Perm.swap _ _ _

end

section

variable {fault : Fault} {start w : World Key Value} {held : List Nat}

def Cell.data (cell : Cell Key Value) : Nat × Key × Value := (cell.hash, cell.key, cell.value)

def dataOf (cells : List (Cell Key Value)) : List (Nat × Key × Value) := cells.map Cell.data

theorem collectNodes_spec (cells : List (Cell Key Value)) (holding : Holding start held w) :
    (collectNodes fault cells).Ensures w (fun _ w' => Holding start held w') (Undone fault start held) := by
  induction cells generalizing w with
  | nil => exact holding
  | cons _ rest hyp => exact (mayThrow_spec (by decide) holding).bind fun _ _ holding => hyp holding

def Clones (fault : Fault) (step : Cell Key Value → List (Cell Key Value) → Update Key Value (List (Cell Key Value)))
    (image : Cell Key Value → List (Nat × Key × Value)) : Prop :=
  ∀ source newHead start held w, Holding start (blocksOf newHead ++ held) w → (step source newHead).Ensures w
    (fun chain w' => dataOf chain = image source ++ dataOf newHead ∧ Holding start (blocksOf chain ++ held) w')
    (Undone fault start (blocksOf newHead ++ held))

variable {step : Cell Key Value → List (Cell Key Value) → Update Key Value (List (Cell Key Value))}
  {image : Cell Key Value → List (Nat × Key × Value)}

theorem cloneLoop_spec (clones : Clones fault step image) (sources newHead : List (Cell Key Value))
    (holding : Holding start (blocksOf newHead ++ held) w) :
    (cloneLoop step sources newHead).Ensures w
      (fun chain w' => dataOf chain = sources.reverse.flatMap image ++ dataOf newHead ∧
        Holding start (blocksOf chain ++ held) w')
      (Undone fault start held) := by
  induction sources generalizing newHead w with
  | nil => exact ⟨rfl, holding⟩
  | cons source rest hyp =>
    have step := clones source newHead start held w holding
    refine (onFailure_spec step fun _ holding => holding.destroyChain).bind ?_
    intro chain w' ⟨made, holding⟩
    refine (hyp chain holding).mono ?_ fun _ _ undone => undone
    intro whole w'' ⟨made', holding⟩
    refine ⟨?_, holding⟩
    rw [made', made, reverse_cons, flatMap_append, flatMap_singleton, append_assoc]

theorem cloneWith_spec (clones : Clones fault step image) (head : List (Cell Key Value)) (holding : Holding start held w) :
    (cloneWith fault step head).Ensures w
      (fun chain w' => dataOf chain = head.flatMap image ∧ Holding start (blocksOf chain ++ held) w')
      (Undone fault start held) := by
  refine (collectNodes_spec head holding).bind ?_
  intro _ w' holding
  refine (cloneLoop_spec clones head.reverse [] holding).mono ?_ fun _ _ undone => undone
  intro chain w'' ⟨made, holding⟩
  exact ⟨by rw [made, reverse_reverse]; exact append_nil _, holding⟩

theorem copyNode_clones : Clones fault (copyNode fault) fun source : Cell Key Value => [source.data] := by
  intro source newHead start held w holding
  refine (allocateNode_spec source.hash newHead source.key source.value holding).mono ?_ fun _ _ undone => undone
  rintro _ w' ⟨⟨block, rfl⟩, holding⟩
  exact ⟨rfl, holding⟩

theorem cloneChain_spec (head : List (Cell Key Value)) (holding : Holding start held w) :
    (cloneChain fault head).Ensures w
      (fun chain w' => dataOf chain = dataOf head ∧ Holding start (blocksOf chain ++ held) w')
      (Undone fault start held) := by
  refine (cloneWith_spec copyNode_clones head holding).mono ?_ fun _ _ undone => undone
  intro chain w' ⟨made, holding⟩
  exact ⟨made.trans map_eq_flatMap.symm, holding⟩

theorem cloneChainWithPrepended_spec (key : Key) (hash : Nat) (head : List (Cell Key Value)) (value : Value)
    (holding : Holding start held w) :
    (cloneChainWithPrepended fault key hash head value).Ensures w
      (fun chain w' => dataOf chain = (hash, key, value) :: dataOf head ∧ Holding start (blocksOf chain ++ held) w')
      (Undone fault start held) := by
  refine (cloneChain_spec head holding).bind ?_
  intro cloned w' ⟨made, holding⟩
  refine (onFailure_spec (allocateNode_spec hash cloned key value holding) fun _ holding => holding.destroyChain).mono ?_
    fun _ _ undone => undone
  rintro _ w'' ⟨⟨block, rfl⟩, holding⟩
  exact ⟨congrArg _ made, holding⟩

variable [DecidableEq Key] (key : Key) (hash : Nat)

theorem cloneChainReplacingValue_spec {factory : Value → Update Key Value Value} (change : Value → Value)
    (makes : ∀ value start held w, Holding start held w → (factory value).Ensures w
      (fun next w' => next = change value ∧ Holding start held w') (Undone fault start held))
    (head : List (Cell Key Value)) (holding : Holding start held w) :
    (cloneChainReplacingValue fault key hash head factory).Ensures w
      (fun chain w' => dataOf chain = head.map (fun cell =>
          if cell.isAt key hash then (cell.hash, cell.key, change cell.value) else cell.data) ∧
        Holding start (blocksOf chain ++ held) w')
      (Undone fault start held) := by
  have clones : Clones fault (fun (source : Cell Key Value) newHead =>
      if source.isAt key hash then do
        let value ← factory source.value
        allocateNode fault source.hash newHead source.key value
      else copyNode fault source newHead)
      fun cell => [if cell.isAt key hash then (cell.hash, cell.key, change cell.value) else cell.data] := by
    intro source newHead start held w holding
    by_cases here : source.isAt key hash = true
    · simp only [here]
      refine (makes source.value _ _ w holding).bind ?_
      rintro _ w' ⟨rfl, holding⟩
      refine (allocateNode_spec source.hash newHead source.key _ holding).mono ?_ fun _ _ undone => undone
      rintro _ w'' ⟨⟨block, rfl⟩, holding⟩
      exact ⟨rfl, holding⟩
    · simp only [here]
      exact copyNode_clones source newHead start held w holding
  refine (cloneWith_spec clones head holding).mono ?_ fun _ _ undone => undone
  intro chain w' ⟨made, holding⟩
  exact ⟨made.trans map_eq_flatMap.symm, holding⟩

theorem cloneChainWithoutKey_spec (head : List (Cell Key Value)) (holding : Holding start held w) :
    (cloneChainWithoutKey fault key hash head).Ensures w
      (fun chain w' => dataOf chain = dataOf (head.filter fun cell => !cell.isAt key hash) ∧
        Holding start (blocksOf chain ++ held) w')
      (Undone fault start held) := by
  have clones : Clones fault (fun (source : Cell Key Value) newHead =>
      if source.isAt key hash then pure newHead else copyNode fault source newHead)
      fun cell => if cell.isAt key hash then [] else [cell.data] := by
    intro source newHead start held w holding
    by_cases here : source.isAt key hash = true
    · simp only [here]
      exact ⟨rfl, holding⟩
    · simp only [here]
      exact copyNode_clones source newHead start held w holding
  refine (cloneWith_spec clones head holding).mono ?_ fun _ _ undone => undone
  intro chain w' ⟨made, holding⟩
  refine ⟨made.trans ?_, holding⟩
  clear made
  induction head with
  | nil => rfl
  | cons cell rest hyp =>
    rw [flatMap_cons, hyp]
    by_cases here : cell.isAt key hash = true <;> simp [here, dataOf]

end

section

variable {fault : Fault} {start w : World Key Value} {held : List Nat}

def Placed (buckets : List (List (Cell Key Value))) : Prop :=
  ∀ (i : Nat) cells, buckets[i]? = some cells → ∀ cell ∈ cells, bucketIndex cell.hash buckets.length = i

theorem bucketIndex_lt {bucketCount : Nat} (some_ : 0 < bucketCount) (hash : Nat) : bucketIndex hash bucketCount < bucketCount := by
  have le : bucketIndex hash bucketCount ≤ bucketCount - 1 := Nat.and_le_right
  omega

theorem bucketCountForElements_pos (desiredElements : Nat) : 0 < bucketCountForElements desiredElements := Nat.two_pow_pos _

variable {buckets : List (List (Cell Key Value))}

theorem Placed.set {index : Nat} {cells : List (Cell Key Value)} (placed : Placed buckets)
    (here : ∀ cell ∈ cells, bucketIndex cell.hash buckets.length = index) : Placed (buckets.set index cells) := by
  intro i other found cell mem
  rw [length_set]
  by_cases same : index = i
  · subst same
    rw [getElem?_set, if_pos rfl] at found
    split at found
    · cases found
      exact here cell mem
    · cases found
  · rw [getElem?_set_ne same] at found
    exact placed i other found cell mem

theorem Placed.getD (placed : Placed buckets) (index : Nat) :
    ∀ cell ∈ buckets.getD index [], bucketIndex cell.hash buckets.length = index := by
  intro cell mem
  cases found : buckets[index]? with
  | none => simp [found] at mem
  | some cells =>
    have is : buckets.getD index [] = cells := by simp [found]
    exact placed index cells found cell (is ▸ mem)

theorem exists_others {index : Nat} (inside : index < buckets.length) :
    ∃ others, buckets.flatten.Perm (buckets.getD index [] ++ others) ∧
      ∀ cells, (buckets.set index cells).flatten.Perm (cells ++ others) := by
  have found : buckets[index]? = some (buckets.getD index []) := by
    rw [getD_eq_getElem?_getD, getElem?_eq_getElem inside, Option.getD_some]
  have whole : ∀ cells, (buckets.getD index [] ++ (buckets.set index cells).flatten).Perm (cells ++ buckets.flatten) := by
    intro cells
    have whole := Library.flatMap_set_perm found cells fun cells => cells
    rwa [flatMap_id', flatMap_id'] at whole
  have split := (whole []).symm
  refine ⟨(buckets.set index []).flatten, split, ?_⟩
  intro cells
  have moved := (whole cells).trans (split.append_left cells)
  exact (perm_append_left_iff (buckets.getD index [])).mp (moved.trans (perm_append_comm_assoc _ _ _))

theorem blocks_perm {table : Table Key Value} {cells others : List (Cell Key Value)} (split : table.cells.Perm (cells ++ others))
    (held : List Nat) :
    (table.blocks ++ held).Perm (blocksOf cells ++ (table.block :: table.array :: blocksOf others ++ held)) := by
  have mapped : (blocksOf table.cells).Perm (blocksOf cells ++ blocksOf others) := by
    have mapped := split.map Cell.block
    rwa [map_append] at mapped
  have front := perm_append_comm_assoc [table.block, table.array] (blocksOf cells) (blocksOf others)
  have whole := (((mapped.append_left [table.block, table.array]).trans front).append_right held)
  rwa [append_assoc (blocksOf cells)] at whole

theorem resizeLoop_spec (nodes : List (Cell Key Value)) (replacement : Table Key Value) (some_ : 0 < replacement.buckets.length)
    (placed : Placed replacement.buckets) (holding : Holding start (replacement.blocks ++ held) w) :
    (resizeLoop fault replacement nodes).Ensures w
      (fun resized w' => resized.buckets.length = replacement.buckets.length ∧ Placed resized.buckets ∧
        (dataOf resized.cells).Perm (dataOf nodes ++ dataOf replacement.cells) ∧ Holding start (resized.blocks ++ held) w')
      (Undone fault start held) := by
  induction nodes generalizing replacement w with
  | nil => exact ⟨rfl, placed, .refl _, holding⟩
  | cons node rest hyp =>
    have inside := bucketIndex_lt some_ node.hash
    obtain ⟨others, split, set⟩ := exists_others inside
    have apart := holding.perm (blocks_perm split held)
    refine (onFailure_spec (allocateNode_spec node.hash _ node.key node.value apart) fun _ holding => (holding.perm (blocks_perm split held).symm).destroyTable).bind ?_
    rintro _ w' ⟨⟨block, rfl⟩, holding⟩
    let cells := { block, hash := node.hash, key := node.key, value := node.value } ::
      replacement.buckets.getD (bucketIndex node.hash replacement.buckets.length) []
    let next : Table Key Value := { replacement with
      buckets := replacement.buckets.set (bucketIndex node.hash replacement.buckets.length) cells }
    have here : ∀ cell ∈ cells, bucketIndex cell.hash replacement.buckets.length = bucketIndex node.hash replacement.buckets.length := by
      intro cell mem
      rcases mem_cons.mp mem with rfl | mem
      · rfl
      · exact placed.getD _ cell mem
    have length : next.buckets.length = replacement.buckets.length := length_set
    have made : next.cells.Perm (cells ++ others) := set cells
    have later := hyp next (by rw [length]; exact some_) (placed.set here) (holding.perm (blocks_perm made held).symm)
    refine later.mono ?_ fun _ _ undone => undone
    intro resized w'' ⟨length', placed', data, holding⟩
    refine ⟨length'.trans length, placed', data.trans ?_, holding⟩
    have replaced : (dataOf next.cells).Perm (node.data :: dataOf replacement.cells) := by
      have front := ((set cells).trans (split.symm.cons _)).map Cell.data
      exact front
    exact (replaced.append_left _).trans perm_middle

end

section

variable {fault : Fault} {start w w' : World Key Value} {held : List Nat}

structure Same (w w' : World Key Value) : Prop where
  table : w'.shard.table = w.shard.table
  bucketCount : w'.shard.bucketCount = w.shard.bucketCount
  size : w'.shard.size = w.shard.size
  total : w'.total = w.total

def Leaks (w : World Key Value) (held : List Nat) : Prop := ∃ block ∈ w.memory.live, block ∉ w.shard.blocks ++ held

theorem mayThrow_record_spec (holding : Holding start held w) :
    (mayThrow fault .record).Ensures w (fun _ w' => Holding start held w')
      (fun e w' => e = fault.site ∧ e = .record ∧ Holding start held w') := by
  unfold Ensures mayThrow
  split
  · rename_i result here
    split at here
    · cases here
    cases here
    exact ⟨holding.shard, holding.total, holding.owns.owned, holding.owns.distinct, holding.owns.old⟩
  · rename_i e w' here
    split at here
    · rename_i throws
      cases here
      exact ⟨throws.1.symm, rfl, holding⟩
    · cases here

theorem retire_spec (record : Retired Key Value) (some_ : record.blocks ≠ []) (owns : Owns w (record.blocks ++ held)) :
    Ensures (do
        mayThrow fault .record
        Command.modify fun w => { w with shard.retired := record :: w.shard.retired } : Update Key Value Unit) w
      (fun _ w' => Owns w' held ∧ Same w w') (fun e w' => e = fault.site ∧ e = .record ∧ Leaks w' held) := by
  have thrown : (mayThrow fault .record).Ensures w _ _ := mayThrow_record_spec (Holding.refl owns)
  rw [ensures_bind]
  refine thrown.mono ?_ ?_
  · intro _ w' ⟨shard, total, owned, distinct, old⟩
    refine ⟨⟨owned.trans ?_, distinct, old⟩, by dsimp only; rw [shard], by dsimp only; rw [shard], by dsimp only; rw [shard], total⟩
    rw [perm_iff_count]
    intro block
    simp only [Shard.blocks, flatMap_cons, count_append]
    omega
  · intro e w' ⟨is, site, shard, total, owned, distinct, old⟩
    refine ⟨is, site, ?_⟩
    obtain ⟨block, rest, first⟩ := exists_cons_of_ne_nil some_
    rw [first] at owned
    have apart : block ∉ w'.shard.blocks ++ (rest ++ held) ∧ (w'.shard.blocks ++ (rest ++ held)).Nodup :=
      nodup_cons.mp ((owned.trans perm_middle).nodup distinct)
    refine ⟨block, owned.mem_iff.mpr (by simp), ?_⟩
    intro mem
    apply apart.1
    rcases mem_append.mp mem with mem | mem
    · exact mem_append_left _ mem
    · exact mem_append_right _ (mem_append_right _ mem)

theorem retireChain_spec (cells : List (Cell Key Value)) (owns : Owns w (blocksOf cells ++ held)) :
    (retireChain fault cells).Ensures w (fun _ w' => Owns w' held ∧ Same w w')
      (fun e w' => e = fault.site ∧ e = .record ∧ Leaks w' held) := by
  unfold retireChain
  split
  · rename_i none_
    subst none_
    exact ⟨owns, rfl, rfl, rfl, rfl⟩
  · rename_i some_
    exact retire_spec (.chain cells) (by simpa [Retired.blocks, blocksOf] using some_) owns

theorem retireTable_spec (table : Table Key Value) (owns : Owns w (table.blocks ++ held)) :
    (retireTable fault table).Ensures w (fun _ w' => Owns w' held ∧ Same w w')
      (fun e w' => e = fault.site ∧ e = .record ∧ Leaks w' held) :=
  retire_spec (.table table) (by simp [Retired.blocks, Table.blocks]) owns

theorem destroyRetired_holding (record : Retired Key Value) (holding : Holding start (record.blocks ++ held) w) :
    Holding start held (destroyRetired record w) := by
  cases record with
  | chain cells => exact holding.destroyChain
  | table table => exact holding.destroyTable

theorem reclaimIf_spec (guarded : Retired Key Value → Bool) (records survivors : List (Retired Key Value))
    (taken : w.shard.retired = []) (owns : Owns w ((records ++ survivors).flatMap Retired.blocks ++ held)) :
    Owns (reclaimIf guarded records survivors w) held ∧ Same w (reclaimIf guarded records survivors w) := by
  induction records generalizing survivors w with
  | nil =>
    refine ⟨⟨owns.owned.trans ?_, owns.distinct, owns.old⟩, rfl, rfl, rfl, rfl⟩
    simp [reclaimIf, Shard.blocks, taken]
  | cons record rest hyp =>
    unfold reclaimIf
    split
    · apply hyp (record :: survivors) taken (owns.perm _)
      rw [perm_iff_count]
      intro block
      simp only [flatMap_cons, flatMap_append, count_append]
      omega
    · have apart := Holding.refl (owns.perm (by rw [cons_append, flatMap_cons, append_assoc]))
      have destroyed := destroyRetired_holding record apart
      obtain ⟨owns', same⟩ := hyp survivors (destroyed.shard ▸ taken) destroyed.owns
      refine ⟨owns', ?_, ?_, ?_, same.total.trans destroyed.total⟩
      · rw [same.table, destroyed.shard]
      · rw [same.bucketCount, destroyed.shard]
      · rw [same.size, destroyed.shard]

theorem poll_spec (guarded : Retired Key Value → Bool) (owns : Owns w held) {failed : Site → World Key Value → Prop} :
    (poll guarded).Ensures w (fun _ w' => Owns w' held ∧ Same w w') failed := by
  let emptied : World Key Value := { w with shard.retired := [] }
  have taken : Owns emptied ((w.shard.retired ++ []).flatMap Retired.blocks ++ held) :=
    ⟨owns.owned.trans (by simp [emptied, Shard.blocks]), owns.distinct, owns.old⟩
  obtain ⟨owns', same⟩ := reclaimIf_spec guarded w.shard.retired [] rfl taken
  exact ⟨owns', same.table, same.bucketCount, same.size, same.total⟩

end

end NginBase.Containers.ConcurrentHashMap.Throwing
