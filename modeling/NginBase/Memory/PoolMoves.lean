import NginBase.Memory.PoolLaws

namespace NginBase.Memory

open Library List SegregatedPoolAllocator Pool

namespace Pool

variable {P : Pool}

/-- The states of an allocator, with the blocks that its callers hold. Anything may be written to the memory. -/
inductive World.Reached (P : Pool) : World P → Prop
  | construct (base : Nat) (memory : ByteMemory) : Reached P (World.start P base memory)
  | allocate {w : World P} (reached : Reached P w) (bytes alignment : Nat) : Reached P (w.allocate bytes alignment)
  | deallocate {w : World P} (reached : Reached P w) (pointer : Nat) : Reached P (w.deallocate pointer)
  | write {w : World P} (reached : Reached P w) (memory : ByteMemory) : Reached P { w with memory }
  | target {w : World P} (reached : Reached P w) : Reached P { w with pool := (P.moveConstruct w.pool).1 }
  | source {w : World P} (reached : Reached P w) : Reached P { w with pool := (P.moveConstruct w.pool).2, live := [] }

/-- The two allocators after a move, each with the addresses that are live in it. -/
structure Moved (P : Pool) where
  target : P.State
  source : P.State
  memory : ByteMemory
  liveInTarget : List Nat
  liveInSource : List Nat := []

namespace Moved

def ofPools (w : World P) (pools : P.State × P.State) : Moved P :=
  { target := pools.1, source := pools.2, memory := w.memory, liveInTarget := w.live.map (·.address) }

/-- A move construction, or an assignment to an allocator in any state. -/
inductive Start (w : World P) : Moved P → Prop
  | construct : Start w (ofPools w (P.moveConstruct w.pool))
  | assign (this : P.State) : Start w (ofPools w (P.moveAssign this w.pool).2)

def handOut (address : Nat) (live : List Nat) : List Nat := if address = 0 then live else address :: live

def allocateTarget (m : Moved P) (bytes alignment : Nat) : Moved P :=
  let result := P.allocate bytes alignment m.target m.memory
  { m with target := result.2, liveInTarget := handOut result.1 m.liveInTarget }

def allocateSource (m : Moved P) (bytes alignment : Nat) : Moved P :=
  let result := P.allocate bytes alignment m.source m.memory
  { m with source := result.2, liveInSource := handOut result.1 m.liveInSource }

def deallocateTarget (m : Moved P) (pointer : Nat) : Moved P :=
  let result := P.deallocate pointer m.target m.memory
  { m with target := result.1, memory := result.2, liveInTarget := m.liveInTarget.filter (· ≠ pointer) }

def deallocateSource (m : Moved P) (pointer : Nat) : Moved P :=
  let result := P.deallocate pointer m.source m.memory
  { m with source := result.1, memory := result.2, liveInSource := m.liveInSource.filter (· ≠ pointer) }

inductive Step : Moved P → Moved P → Prop
  | allocateTarget (m : Moved P) (bytes alignment : Nat) : Step m (m.allocateTarget bytes alignment)
  | allocateSource (m : Moved P) (bytes alignment : Nat) : Step m (m.allocateSource bytes alignment)
  | deallocateTarget (m : Moved P) (pointer : Nat) : Step m (m.deallocateTarget pointer)
  | deallocateSource (m : Moved P) (pointer : Nat) : Step m (m.deallocateSource pointer)
  | write (m : Moved P) (memory : ByteMemory) : Step m { m with memory }

structure Separate (m : Moved P) : Prop where
  targetApart : ∀ bytes alignment, (P.allocate bytes alignment m.target m.memory).1 ∉ m.liveInSource
  sourceApart : ∀ bytes alignment, (P.allocate bytes alignment m.source m.memory).1 ≠ 0 →
    (P.allocate bytes alignment m.source m.memory).1 ∉ m.liveInTarget
  sourceEmpty : ∀ bytes alignment, (P.allocate bytes alignment m.source m.memory).1 = 0
  sourceRejects : ∀ pointer, P.deallocate pointer m.source m.memory =
    (if pointer = 0 then m.source else P.countInvalid m.source, m.memory)
  sourceKeeps : (P.release m.source).1 = none

end Moved

def Transfers (P : Pool) (w : World P) : Prop :=
  ∀ m m' : Moved P, Moved.Start w m → Relation.ReflTransGen Moved.Step m m' → m'.Separate

structure Inert (P : Pool) (pool : P.State) : Prop where
  allocates : ∀ bytes alignment memory, P.allocate bytes alignment pool memory = (0, pool)
  deallocates : ∀ pointer memory, P.deallocate pointer pool memory =
    (if pointer = 0 then pool else P.countInvalid pool, memory)
  releases : (P.release pool).1 = none

theorem transfers_of_dead {w : World P} (dead : P.State → Prop) (start : dead (P.moveConstruct w.pool).2)
    (assigned : ∀ this other, (P.moveAssign this other).2 = P.moveConstruct other)
    (inert : ∀ pool, dead pool → Inert P pool) (counted : ∀ pool, dead pool → dead (P.countInvalid pool)) :
    Transfers P w := by
  intro m m' isStart run
  have invariant : dead m'.source ∧ m'.liveInSource = [] := by
    induction run with
    | refl =>
      cases isStart with
      | construct => exact ⟨start, rfl⟩
      | assign this =>
        rw [assigned]
        exact ⟨start, rfl⟩
    | tail _ step ih =>
      obtain ⟨isDead, empty⟩ := ih
      cases step with
      | allocateTarget bytes alignment => exact ⟨isDead, empty⟩
      | allocateSource bytes alignment =>
        unfold Moved.allocateSource
        rw [(inert _ isDead).allocates]
        exact ⟨isDead, empty⟩
      | deallocateTarget pointer => exact ⟨isDead, empty⟩
      | deallocateSource pointer =>
        unfold Moved.deallocateSource
        rw [(inert _ isDead).deallocates, empty]
        refine ⟨?_, rfl⟩
        split
        · exact isDead
        · exact counted _ isDead
      | write memory => exact ⟨isDead, empty⟩
  obtain ⟨isDead, empty⟩ := invariant
  have inert := inert _ isDead
  refine ⟨?_, ?_, ?_, ?_, inert.releases⟩
  · intro bytes alignment
    rw [empty]
    exact not_mem_nil
  · intro bytes alignment some_
    rw [inert.allocates] at some_
    exact absurd rfl some_
  · intro bytes alignment
    rw [inert.allocates]
  · intro pointer
    exact inert.deallocates pointer m'.memory

end Pool

namespace FixedBlockAllocator

variable {config : FixedBlockConfig}

theorem inert {pool : FixedBlockAllocator} (dead : pool.base = 0 ∧ pool.free = 0) : (fixedBlockPool config).Inert pool := by
  obtain ⟨slab, free⟩ := dead
  refine ⟨?_, ?_, ?_⟩
  · intro bytes alignment memory
    show allocate config bytes alignment pool memory = (0, pool)
    simp [allocate, free]
  · intro pointer memory
    show deallocate config pointer pool memory = (if pointer = 0 then pool else pool.countInvalid, memory)
    unfold deallocate isBlockStart owns
    split
    · rfl
    · simp [slab]
  · show pool.release.1 = none
    simp [release, slab]

theorem transfers (w : World (fixedBlockPool config)) : (fixedBlockPool config).Transfers w :=
  transfers_of_dead (fun pool : FixedBlockAllocator => pool.base = 0 ∧ pool.free = 0) ⟨rfl, rfl⟩ (fun _ _ => rfl)
    (fun _ => inert) fun _ dead => dead

end FixedBlockAllocator

namespace SegregatedPoolAllocator

variable {blocksPerClass : Nat} {memory : ByteMemory}

def Exhausted (pool : SegregatedPoolAllocator) : Prop := ∀ state ∈ pool.classes, state.free = 0

theorem locate_exists {wanted : ClassState → Bool} {classes : List ClassState} {state : ClassState}
    (mem : state ∈ classes) (isWanted : wanted state = true) :
    ∃ before found after, locate wanted classes = some (before, found, after) ∧ found ∈ classes ∧ wanted found = true := by
  induction classes with
  | nil => cases mem
  | cons first rest ih =>
    unfold locate
    by_cases here : wanted first = true
    · exact ⟨[], first, rest, if_pos here, mem_cons_self, here⟩
    have later : state ∈ rest := by
      rcases mem_cons.mp mem with rfl | mem
      · exact absurd isWanted here
      · exact mem
    obtain ⟨before, found, after, located, isMember, isFound⟩ := ih later
    rw [if_neg here, located]
    exact ⟨first :: before, found, after, rfl, mem_cons_of_mem _ isMember, isFound⟩

theorem locate_unwanted {wanted : ClassState → Bool} {classes : List ClassState}
    (unwanted : ∀ state ∈ classes, wanted state = false) : locate wanted classes = none := by
  induction classes with
  | nil => rfl
  | cons first rest ih =>
    unfold locate
    rw [if_neg (by simp [unwanted first mem_cons_self]), ih fun state mem => unwanted state (mem_cons_of_mem _ mem)]
    rfl

variable {pool : SegregatedPoolAllocator}

theorem inert (dead : pool.base = 0 ∧ pool.Exhausted) : (segregatedPool blocksPerClass).Inert pool := by
  obtain ⟨slab, exhausted⟩ := dead
  refine ⟨?_, ?_, ?_⟩
  · intro bytes alignment memory
    show allocate bytes alignment pool memory = (0, pool)
    have missing : locate (fun state => ¬bytes > state.blockSize ∧ state.free ≠ 0) pool.classes = none := by
      apply locate_unwanted
      intro state mem
      simp [exhausted state mem]
    unfold allocate
    rw [missing]
    split
    · rfl
    · rfl
  · intro pointer memory
    show deallocate blocksPerClass pointer pool memory = (if pointer = 0 then pool else pool.countInvalid, memory)
    unfold deallocate classForPointer
    split
    · rfl
    · rw [if_pos (.inl slab)]
  · show pool.release.1 = none
    simp [release, slab]

def Sized (pool : SegregatedPoolAllocator) : Prop := ∀ state ∈ pool.classes, state.free ≠ 0 → 0 < state.blockSize

theorem initializeClasses_sized (base : Nat) (sizes : List Nat) (offset : Nat) (memory : ByteMemory)
    (positive : ∀ size ∈ sizes, 0 < size) :
    ∀ state ∈ (initializeClasses blocksPerClass base sizes offset memory).1, 0 < state.blockSize := by
  induction sizes generalizing offset memory with
  | nil => simp [initializeClasses]
  | cons size rest ih =>
    intro state mem
    rcases mem_cons.mp mem with rfl | mem
    · exact positive size mem_cons_self
    · exact ih _ _ (fun size mem => positive size (mem_cons_of_mem _ mem)) state mem

theorem construct_sized (base : Nat) (memory : ByteMemory) : (construct blocksPerClass base memory).1.Sized := by
  unfold construct
  split
  · intro state mem _
    exact initializeClasses_sized base sizes 0 memory (by decide) state mem
  · intro state mem some_
    obtain rfl := eq_of_mem_replicate mem
    exact absurd rfl some_

theorem Sized.changed {before after : List ClassState} {state : ClassState} (sized : pool.Sized)
    (is : pool.classes = before ++ state :: after) (state' : ClassState) (size : 0 < state'.blockSize) :
    { pool with classes := before ++ state' :: after }.Sized := by
  intro other mem some_
  rcases mem_append.mp mem with mem | mem
  · exact sized other (by simp [is, mem]) some_
  · rcases mem_cons.mp mem with rfl | mem
    · exact size
    · exact sized other (by simp [is, mem]) some_

theorem allocate_sized (sized : pool.Sized) (bytes alignment : Nat) (memory : ByteMemory) :
    (allocate bytes alignment pool memory).2.Sized := by
  unfold allocate
  split
  · exact sized
  split
  · exact sized
  rename_i before state after found
  obtain ⟨is, wanted⟩ := locate_some found
  simp only [decide_eq_true_eq] at wanted
  exact sized.changed is _ (by show 0 < state.blockSize; omega)

theorem deallocate_sized (sized : pool.Sized) (pointer : Nat) (memory : ByteMemory) :
    (deallocate blocksPerClass pointer pool memory).1.Sized := by
  unfold deallocate
  split
  · exact sized
  split
  · exact sized
  rename_i before state after found
  dsimp only
  split
  · exact sized
  unfold classForPointer at found
  split at found
  · cases found
  obtain ⟨is, starts⟩ := locate_some found
  apply sized.changed is
  simp only [startsIn, Bool.and_eq_true, decide_eq_true_eq] at starts
  apply Nat.pos_of_ne_zero
  intro empty
  rw [empty] at starts
  omega

theorem reached_sized {w : World (segregatedPool blocksPerClass)}
    (reached : World.Reached (segregatedPool blocksPerClass) w) : Sized w.pool := by
  induction reached with
  | construct base memory => exact construct_sized base memory
  | allocate _ bytes alignment sized => exact allocate_sized sized bytes alignment _
  | deallocate _ pointer sized => exact deallocate_sized sized pointer _
  | write _ memory sized => exact sized
  | target _ sized => exact sized
  | source _ sized => exact sized

theorem source_hands_out (sized : pool.Sized) {state : ClassState} (mem : state ∈ pool.classes)
    (some_ : state.free ≠ 0) (memory : ByteMemory) : (allocate 1 1 pool.moveConstruct.2 memory).1 ≠ 0 := by
  let wanted : ClassState → Bool := fun state => ¬1 > state.blockSize ∧ state.free ≠ 0
  have isWanted : wanted state = true := by
    have size := sized state mem some_
    simp only [wanted, decide_eq_true_eq]
    exact ⟨by omega, some_⟩
  obtain ⟨before, found, after, located, -, isFound⟩ := locate_exists mem isWanted
  have located : locate (fun state => ¬1 > state.blockSize ∧ state.free ≠ 0) pool.moveConstruct.2.classes =
      some (before, found, after) := located
  unfold allocate
  rw [located]
  simp only [wanted, decide_eq_true_eq] at isFound
  exact isFound.2

theorem transfers_iff {w : World (segregatedPool blocksPerClass)}
    (reached : World.Reached (segregatedPool blocksPerClass) w) :
    (segregatedPool blocksPerClass).Transfers w ↔ Exhausted w.pool := by
  constructor
  · intro transfers state mem
    by_contra some_
    have separate := transfers _ _ .construct .refl
    exact source_hands_out (reached_sized reached) mem some_ w.memory (separate.sourceEmpty 1 1)
  · intro exhausted
    exact transfers_of_dead (fun pool : SegregatedPoolAllocator => pool.base = 0 ∧ pool.Exhausted) ⟨rfl, exhausted⟩
      (fun _ _ => rfl) (fun _ => inert) fun _ dead => dead

end SegregatedPoolAllocator

/-- What the source must be like. A segregated pool leaves its free lists there. -/
def PoolKind.Transferable : (kind : PoolKind) → World kind.pool → Prop
  | .fixedBlock _, _ => True
  | .segregated _ _, w => Exhausted w.pool

theorem pools_transfer (kind : PoolKind) (w : World kind.pool) (reached : World.Reached kind.pool w) :
    kind.pool.Transfers w ↔ kind.Transferable w := by
  cases kind with
  | fixedBlock config => exact iff_of_true (FixedBlockAllocator.transfers w) True.intro
  | segregated blocksPerClass positive => exact transfers_iff reached

theorem pools_transfer_small :
    (fixedBlockPool smallConfig).Transfers (World.start (fixedBlockPool smallConfig) 4096 fun _ => 0) :=
  (pools_transfer (.fixedBlock smallConfig) _ (.construct 4096 _)).mpr True.intro

theorem segregatedPool_duplicates : ¬∀ (kind : PoolKind) (w : World kind.pool),
    World.Reached kind.pool w → kind.pool.Transfers w := by
  intro all
  let w : World (segregatedPool 1) := World.start _ 4096 fun _ => 0
  let m := Moved.ofPools w ((segregatedPool 1).moveConstruct w.pool)
  have separate : (m.allocateTarget 16 16).Separate :=
    all (.segregated 1 (by decide)) w (.construct 4096 _) m _ .construct (.single (.allocateTarget m 16 16))
  have handedOut : ((segregatedPool 1).allocate 16 16 (m.allocateTarget 16 16).source (m.allocateTarget 16 16).memory).1 =
      4096 := rfl
  have live : (m.allocateTarget 16 16).liveInTarget = [4096] := rfl
  have apart := separate.sourceApart 16 16 (by rw [handedOut]; decide)
  exact apart (mem_singleton_self _)

end NginBase.Memory
