import NginBase.Containers.ConcurrentReclamation

namespace NginBase.Containers.ConcurrentHashMap

open Library Heap List Option Reader

variable {Key Value : Type} {policy : ReclamationPolicy} {s t : Shard Key Value} {i : Nat}

section

variable {r : Reader Key Value} {memory : Memory Key Value} {roots : List Root}

theorem Reader.Fits.of_bare (bare : r.phase.bare = true) (noTable : r.heldTable = none) (noChains : r.heldChains = [])
    (checks : ∀ candidate, r.phase = .check .table candidate → r.tableHazard = candidate) : r.Fits policy where
  bare _ := ⟨noTable, noChains⟩
  arrived table at_table := by
    rw [at_table] at bare
    cases bare
  inside table at_table := by
    cases phase : r.phase with
    | protect location => cases location <;> simp [phase, Phase.bare, Phase.table?] at bare at_table
    | publish location candidate => cases location <;> simp [phase, Phase.bare, Phase.table?] at bare at_table
    | check location candidate => cases location <;> simp [phase, Phase.bare, Phase.table?] at bare at_table
    | _ => simp [phase, Phase.bare, Phase.table?] at bare at_table
  tableHazard _ := by simp [noTable]
  chainHazard _ := by simp [noChains]
  checksTable := checks
  checksBucket table index candidate checking := by
    rw [checking] at bare
    cases bare

theorem Reader.Covered.of_empty (noTable : r.heldTable = none) (noChains : r.heldChains = []) : r.Covered memory roots where
  table := by simp [noTable]
  chains := by simp [noChains]
  serials := by simp [holds, noTable, noChains]

theorem Reader.Covered.of_same {r' : Reader Key Value} (covered : r.Covered memory roots)
    (table : r'.heldTable = r.heldTable) (chains : r'.heldChains = r.heldChains) : r'.Covered memory roots where
  table := by
    rw [table]
    exact covered.table
  chains := by
    rw [table, chains]
    exact covered.chains
  serials := by
    unfold holds
    rw [table, chains]
    exact covered.serials

end

namespace Safe

theorem of_setReader {r' : Reader Key Value} (safe : Safe policy { s.setReader i r' with records := s.records }) :
    Safe policy (s.setReader i r') := safe

section

variable (safe : Safe policy s)

include safe

theorem reader_moves {phase : Phase} {seen : List (Node Key Value)} (linked : (s.readers i).phase.linked = true)
    (linked' : phase.linked = true) (bare : phase.bare = true → (s.readers i).phase.bare = true)
    (inside : ∀ table, phase.table? = some table → ∃ held ∈ (s.readers i).heldTable, held.address = table)
    (arrives : ∀ table, phase ≠ .atTable table) (checks : ∀ location candidate, phase ≠ .check location candidate) :
    Safe policy (s.setReader i { s.readers i with phase := phase, seen := seen }) := by
  have old := safe.readers i
  have fits : ({ s.readers i with phase := phase, seen := seen } : Reader Key Value).Fits policy := by
    constructor
    · exact fun guards => old.bare (bare guards)
    · exact fun table at_table => absurd at_table (arrives table)
    · exact inside
    · exact old.tableHazard
    · exact old.chainHazard
    · exact fun candidate checking => absurd checking (checks _ _)
    · exact fun table index candidate checking => absurd checking (checks _ _)
  apply of_setReader
  exact safe.reader_step (by rw [linked', ← safe.linked i, linked]) (fun _ _ => Iff.rfl) safe.distinct fits
    ((safe.covered i).of_same rfl rfl) (fun _ mem => .inl mem) (fun _ mem => .inl mem) (safe.entered i)
    (.inl rfl)

theorem reader_bare {r' : Reader Key Value} {records : List Nat} (linked : r'.phase.linked = true ↔ i ∈ records)
    (others : ∀ j, j ≠ i → (j ∈ records ↔ j ∈ s.records)) (distinct : records.Nodup) (bare : r'.phase.bare = true)
    (noTable : r'.heldTable = none) (noChains : r'.heldChains = [])
    (checks : ∀ candidate, r'.phase = .check .table candidate → r'.tableHazard = candidate)
    (entered : r'.epoch ≤ s.epoch) : Safe policy { s.setReader i r' with records := records } := by
  apply safe.reader_step linked others distinct (.of_bare bare noTable noChains checks) (.of_empty noTable noChains)
  · simp [noTable]
  · simp [noChains]
  · exact entered
  · exact .inr bare

theorem enter {goal : Goal Key} (step : s.enter i goal = some t) : Safe policy t := by
  unfold Shard.enter at step
  cases phase : (s.readers i).phase <;> rw [phase] at step <;> cases step
  have out : i ∉ s.records := by
    rw [← safe.linked i, phase]
    decide
  apply of_setReader
  exact safe.reader_bare (by simp [Phase.linked, out]) (fun _ _ => Iff.rfl) safe.distinct rfl rfl rfl (by simp)
    (Nat.zero_le _)

theorem leave (step : s.leave i = some t) : Safe policy t := by
  unfold Shard.leave at step
  cases phase : (s.readers i).phase <;> rw [phase] at step <;> cases step
  have out : i ∉ s.records := by
    rw [← safe.linked i, phase]
    decide
  apply of_setReader
  exact safe.reader_bare (by simp [Phase.linked, out]) (fun _ _ => Iff.rfl) safe.distinct rfl rfl rfl (by simp)
    (Nat.zero_le _)

theorem register (phase : (s.readers i).phase.linked = false) (bare : (s.readers i).phase.bare = true)
    (step : s.register i = some t) : Safe policy t := by
  unfold Shard.register at step
  split at step
  · cases step
  cases step
  obtain ⟨noTable, noChains⟩ := (safe.readers i).bare bare
  have out : i ∉ s.records := by
    rw [← safe.linked i, phase]
    decide
  apply safe.reader_bare
  · simp [Phase.linked]
  · exact fun j other => by simp [other]
  · exact nodup_cons.mpr ⟨out, safe.distinct⟩
  · rfl
  · exact noTable
  · exact noChains
  · simp
  · exact safe.entered i

theorem unregister (step : s.unregister i = some t) : Safe policy t := by
  unfold Shard.unregister at step
  split at step
  · cases step
  cases step
  apply safe.reader_bare
  · simp [Phase.linked, letGo, safe.distinct.mem_erase_iff]
  · exact fun j other => mem_erase_of_ne other
  · exact safe.distinct.erase i
  · rfl
  · rfl
  · rfl
  · simp [letGo]
  · exact safe.entered i

theorem publishes {location : Location} {candidate : Nat} (phase : (s.readers i).phase = .publish location candidate) :
    Safe policy (s.setReader i ((s.readers i).publish location candidate)) := by
  have old := safe.readers i
  have mem : i ∈ s.records := by
    rw [← safe.linked i, phase]
    rfl
  apply of_setReader
  cases location with
  | table =>
    obtain ⟨noTable, noChains⟩ := old.bare (by rw [phase]; rfl)
    apply safe.reader_bare
    · simp [publish, Phase.linked, mem]
    · exact fun _ _ => Iff.rfl
    · exact safe.distinct
    · rfl
    · exact noTable
    · exact noChains
    · simp [publish]
    · exact safe.entered i
  | bucket table index =>
    apply safe.reader_step (by simp [publish, Phase.linked, mem]) (fun _ _ => Iff.rfl) safe.distinct
    · constructor
      · simp [publish, Phase.bare]
      · simp [publish]
      · simpa [publish, Phase.table?] using old.inside table (by rw [phase]; rfl)
      · simpa [publish] using old.tableHazard
      · simp [publish]
      · simp [publish]
      · simp [publish]
    · constructor
      · exact (safe.covered i).table
      · simp [publish]
      · intro held holder
        apply (safe.covered i).serials held
        simp only [publish, holds, append_nil] at holder
        exact mem_append_left _ holder
    · exact fun held holder => .inl holder
    · simp [publish]
    · exact safe.entered i
    · exact .inl rfl

end

theorem load_mem {table index : Nat} (nonzero : s.load (.bucket table index) ≠ 0) :
    s.load (.bucket table index) ∈ ((s.memory.object table).buckets).drop 0 := by
  simp only [Shard.load] at nonzero ⊢
  by_cases inside : index < (s.memory.object table).buckets.length
  · simp [inside]
  · simp [inside] at nonzero

section

variable (safe : Safe policy s)

include safe

theorem obtains {location : Location}
    (place : (s.readers i).phase = .protect location ∨ ∃ candidate, (s.readers i).phase = .check location candidate)
    (published : policy = .hazardPointers → ∃ candidate, (s.readers i).phase = .check location candidate ∧
      candidate = s.load location) :
    Safe policy (s.setReader i ((s.readers i).obtain s.memory location (s.load location))) := by
  have old := safe.readers i
  have mem : i ∈ s.records := by
    rw [← safe.linked i]
    rcases place with at_protect | ⟨candidate, at_check⟩
    · rw [at_protect]; rfl
    · rw [at_check]; rfl
  apply of_setReader
  cases location with
  | table =>
    obtain ⟨noTable, noChains⟩ := old.bare (by
      rcases place with at_protect | ⟨candidate, at_check⟩
      · rw [at_protect]; rfl
      · rw [at_check]; rfl)
    have living : s.memory.live s.table = true := safe.owns.root_alive (mem_cons_self ..)
    have nonzero : s.table ≠ 0 := by
      intro null
      rw [null, safe.sound.null] at living
      cases living
    apply safe.reader_step (by simp [obtain, Phase.linked, mem]) (fun _ _ => Iff.rfl) safe.distinct
    · constructor
      · simp [obtain, Phase.bare]
      · simp [obtain]
      · simp [obtain, Phase.table?]
      · intro hazards
        obtain ⟨candidate, checking, same⟩ := published hazards
        simp [obtain, old.checksTable candidate checking, same]
      · simp [obtain, noChains]
      · simp [obtain]
      · simp [obtain]
    · constructor
      · simp [obtain, Shard.load, nonzero, Shard.roots]
      · simp [obtain, noChains]
      · simp [obtain, holds, noChains]
    · intro held holder
      right
      obtain rfl : held = ⟨s.table, s.memory.serial s.table⟩ := by
        simpa [obtain, Shard.load, nonzero, eq_comm] using holder
      exact safe.table_current
    · exact fun held holder => .inl holder
    · exact safe.entered i
    · exact .inl rfl
  | bucket table index =>
    obtain ⟨owner, holder, rfl⟩ := old.inside table (by
      rcases place with at_protect | ⟨candidate, at_check⟩
      · rw [at_protect]; rfl
      · rw [at_check]; rfl)
    have newly : ∀ held ∈ ((s.readers i).obtain s.memory (.bucket owner.address index)
        (s.load (.bucket owner.address index))).heldChains, held ∈ (s.readers i).heldChains ∨
        held.address ∈ s.memory.partsFrom Object.buckets owner.address 0 ∧
          s.memory.serial held.address = held.serial := by
      intro held mem
      rcases mem_append.mp mem with new | earlier
      · right
        by_cases null : s.load (.bucket owner.address index) = 0
        · simp [null] at new
        · obtain rfl : held = ⟨_, s.memory.serial _⟩ := by simpa [null] using new
          exact ⟨mem_partsFrom.mpr ⟨load_mem null, null⟩, rfl⟩
      · exact .inl earlier
    apply safe.reader_step (by simp [obtain, Phase.linked, mem]) (fun _ _ => Iff.rfl) safe.distinct
    · constructor
      · simp [obtain, Phase.bare]
      · simp [obtain]
      · intro table inside
        obtain rfl : owner.address = table := by simpa [obtain, Phase.table?] using inside
        exact ⟨owner, holder, rfl⟩
      · simpa [obtain] using old.tableHazard
      · intro hazards held inside
        obtain ⟨candidate, checking, same⟩ := published hazards
        obtain ⟨slot, noChains⟩ := old.checksBucket _ _ candidate checking
        rcases mem_append.mp inside with new | earlier
        · by_cases null : s.load (.bucket owner.address index) = 0
          · simp [null] at new
          · obtain rfl : held = ⟨_, s.memory.serial _⟩ := by simpa [null] using new
            exact same.symm.trans slot.symm
        · rw [noChains] at earlier
          cases earlier
      · simp [obtain]
      · simp [obtain]
    · constructor
      · exact (safe.covered i).table
      · intro held inside
        rcases newly held inside with earlier | ⟨part, _⟩
        · exact (safe.covered i).chains held earlier
        · exact .inr ⟨owner, holder, part⟩
      · intro held inside
        rcases mem_append.mp inside with table | chain
        · exact (safe.covered i).serials held (mem_append_left _ table)
        · rcases newly held chain with earlier | ⟨_, serial⟩
          · exact (safe.covered i).serials held (mem_append_right _ earlier)
          · exact serial
    · exact fun held holder => .inl holder
    · intro held inside
      rcases newly held inside with earlier | ⟨part, _⟩
      · exact .inl earlier
      · exact .inr (safe.part_current ((safe.covered i).table owner holder) part)
    · exact safe.entered i
    · exact .inl rfl

theorem enters_table {table : Nat} (phase : (s.readers i).phase = .atTable table) :
    Safe policy (s.setReader i ((s.readers i).enterTable table (tableBuckets s.memory table))) := by
  have linked : (s.readers i).phase.linked = true := by
    rw [phase]
    rfl
  unfold enterTable
  split
  · exact safe.reader_moves linked rfl nofun nofun nofun nofun
  rename_i some_bucket
  have nonzero : table ≠ 0 := by
    intro null
    simp [tableBuckets, null] at some_bucket
  have holder := (safe.readers i).arrived table phase nonzero
  have moves : ∀ index, Safe policy (s.setReader i { s.readers i with phase := .protect (.bucket table index) }) :=
    fun index => safe.reader_moves linked rfl nofun (by simpa [Phase.table?] using holder) nofun nofun
  split
  · exact moves _
  · exact moves _

theorem visits [DecidableEq Key] {table index head : Nat} {nodes : List (Node Key Value)}
    (phase : (s.readers i).phase = .visit table index head) :
    Safe policy (s.setReader i ((s.readers i).visitChain table index (tableBuckets s.memory table) nodes)) := by
  have linked : (s.readers i).phase.linked = true := by
    rw [phase]
    rfl
  have holder := (safe.readers i).inside table (by rw [phase]; rfl)
  unfold visitChain
  split
  · exact safe.reader_moves linked rfl nofun nofun nofun nofun
  · split
    · exact safe.reader_moves linked rfl nofun (by simpa [Phase.table?] using holder) nofun nofun
    · exact safe.reader_moves linked rfl nofun nofun nofun nofun

theorem read [DecidableEq Key] (step : s.read policy i = some t) : Safe policy t := by
  have old := safe.readers i
  have linked := safe.linked i
  unfold Shard.read at step
  cases phase : (s.readers i).phase with
  | outside => simp [phase] at step
  | entering =>
    cases policy with
    | localEpoch =>
      simp only [phase, some.injEq] at step
      subst step
      obtain ⟨noTable, noChains⟩ := old.bare (by rw [phase]; rfl)
      rw [phase] at linked
      apply of_setReader
      exact safe.reader_bare linked (fun _ _ => Iff.rfl) safe.distinct rfl noTable noChains (by simp) (Nat.le_refl _)
    | hazardPointers =>
      simp only [phase] at step
      exact safe.register (by rw [phase]; rfl) (by rw [phase]; rfl) step
  | registering =>
    simp only [phase] at step
    exact safe.register (by rw [phase]; rfl) (by rw [phase]; rfl) step
  | protect location =>
    cases policy with
    | localEpoch =>
      simp only [phase, some.injEq] at step
      subst step
      exact safe.obtains (.inl phase) nofun
    | hazardPointers =>
      simp only [phase, some.injEq] at step
      subst step
      apply safe.reader_moves (by rw [phase]; rfl) rfl _ _ (by simp) (by simp)
      · intro bare
        cases location with
        | table => rw [phase]; rfl
        | bucket table index => cases bare
      · intro table inside
        apply (safe.readers i).inside
        rw [phase]
        cases location with
        | table => cases inside
        | bucket table index => exact inside
  | publish location candidate =>
    simp only [phase, some.injEq] at step
    subst step
    exact safe.publishes phase
  | check location candidate =>
    simp only [phase] at step
    split at step
    · rename_i same
      cases step
      rw [same]
      exact safe.obtains (.inr ⟨candidate, phase⟩) fun _ => ⟨candidate, phase, same⟩
    cases step
    apply safe.reader_moves (by rw [phase]; rfl) rfl _ _ (by simp) (by simp)
    · intro bare
      cases location with
      | table => rw [phase]; rfl
      | bucket table index => cases bare
    · intro table inside
      apply (safe.readers i).inside
      rw [phase]
      cases location with
      | table => cases inside
      | bucket table index => exact inside
  | atTable table =>
    simp only [phase, some.injEq] at step
    subst step
    exact safe.enters_table phase
  | visit table index head =>
    simp only [phase, some.injEq] at step
    subst step
    exact safe.visits phase
  | leaving =>
    cases policy with
    | localEpoch =>
      simp only [phase] at step
      exact safe.unregister step
    | hazardPointers =>
      simp only [phase, some.injEq] at step
      subst step
      rw [phase] at linked
      apply of_setReader
      exact safe.reader_bare linked (fun _ _ => Iff.rfl) safe.distinct rfl rfl rfl (by simp [letGo])
        (safe.entered i)
  | clearing =>
    simp only [phase, some.injEq] at step
    subst step
    obtain ⟨noTable, noChains⟩ := old.bare (by rw [phase]; rfl)
    rw [phase] at linked
    apply of_setReader
    exact safe.reader_bare linked (fun _ _ => Iff.rfl) safe.distinct rfl noTable noChains (by simp) (safe.entered i)
  | unlinking =>
    simp only [phase] at step
    exact safe.unregister step
  | finished => simp [phase] at step

end

end Safe

end NginBase.Containers.ConcurrentHashMap
