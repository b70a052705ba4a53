import NginBase.Memory.PoolClasses

namespace NginBase.Memory

open Library ByteMemory List SegregatedPoolAllocator FixedBlockAllocator Region

structure Pool where
  State : Type
  slabSize : Nat
  alignment : Nat
  construct : Nat → ByteMemory → State × ByteMemory
  allocate : Nat → Nat → State → ByteMemory → Nat × State
  deallocate : Nat → State → ByteMemory → State × ByteMemory
  countInvalid : State → State
  release : State → Option Nat × State
  moveConstruct : State → State × State
  moveAssign : State → State → Option Nat × State × State
  base : State → Nat
  sizeClasses : State → List SizeClass

def fixedBlockPool (config : FixedBlockConfig) : Pool where
  State := FixedBlockAllocator
  slabSize := config.slabSize
  alignment := config.alignment
  construct := construct config
  allocate := allocate config
  deallocate := deallocate config
  countInvalid := countInvalid
  release := release
  moveConstruct := moveConstruct
  moveAssign := moveAssign
  base := base
  sizeClasses pool := [{
    first := pool.base
    stride := config.stride
    count := if pool.base = 0 then 0 else config.blockCount
    free := pool.free
    available := pool.available
    allocated := pool.allocated }]

def segregatedPool (blocksPerClass : Nat) : Pool where
  State := SegregatedPoolAllocator
  slabSize := computeSlabSize blocksPerClass
  alignment := alignment
  construct := construct blocksPerClass
  allocate := allocate
  deallocate := deallocate blocksPerClass
  countInvalid := countInvalid
  release := release
  moveConstruct := moveConstruct
  moveAssign := moveAssign
  base := base
  sizeClasses pool := pool.classes.map fun state => {
    first := (pool.base + state.offset) % 2 ^ 64
    stride := state.blockSize
    count := if pool.base = 0 then 0 else blocksPerClass
    free := state.free
    available := state.available
    allocated := state.allocated }

inductive PoolKind
  | fixedBlock (config : FixedBlockConfig)
  | segregated (blocksPerClass : Nat) (positive : 0 < blocksPerClass)

def PoolKind.pool : PoolKind → Pool
  | fixedBlock config => fixedBlockPool config
  | segregated blocksPerClass _ => segregatedPool blocksPerClass

namespace Pool

variable {P : Pool}

structure Block where
  address : Nat
  bytes : Nat
  alignment : Nat

def Block.Apart (b b' : Block) : Prop := b.address + b.bytes ≤ b'.address ∨ b'.address + b'.bytes ≤ b.address

structure World (P : Pool) where
  pool : P.State
  memory : ByteMemory
  live : List Block := []

def Upstream (P : Pool) (base : Nat) : Prop := base = 0 ∨ P.alignment ∣ base ∧ base + P.slabSize < 2 ^ 64

def World.start (P : Pool) (base : Nat) (memory : ByteMemory) : World P :=
  { pool := (P.construct base memory).1, memory := (P.construct base memory).2 }

def World.allocate (w : World P) (bytes alignment : Nat) : World P :=
  let result := P.allocate bytes alignment w.pool w.memory
  { pool := result.2
    memory := w.memory
    live := if result.1 = 0 then w.live else ⟨result.1, bytes, alignment⟩ :: w.live }

def World.deallocate (w : World P) (pointer : Nat) : World P :=
  let result := P.deallocate pointer w.pool w.memory
  { pool := result.1, memory := result.2, live := w.live.filter (·.address ≠ pointer) }

/-- Any call with any arguments. In between, callers write to their blocks, and anybody to what is not the slab. -/
inductive World.Step (P : Pool) : World P → World P → Prop
  | allocate (w : World P) (bytes alignment : Nat) : Step P w (w.allocate bytes alignment)
  | deallocate (w : World P) (pointer : Nat) : Step P w (w.deallocate pointer)
  | write (w : World P) (memory : ByteMemory)
      (same : ∀ a, P.base w.pool ≤ a → a < P.base w.pool + P.slabSize →
        (∀ b ∈ w.live, ¬(b.address ≤ a ∧ a < b.address + b.bytes)) → memory a = w.memory a) :
      Step P w { w with memory }

def World.Reachable (P : Pool) (w : World P) : Prop :=
  ∃ base memory, Upstream P base ∧ Relation.ReflTransGen (World.Step P) (World.start P base memory) w

structure NeverTwice (P : Pool) (w : World P) : Prop where
  freeLists : ∀ c ∈ P.sizeClasses w.pool, ∃ nodes, Chain w.memory c.free nodes ∧ nodes.Nodup ∧
    (∀ a, a ∈ nodes ↔ (∃ i, i < c.count ∧ a = c.block i) ∧ ∀ b ∈ w.live, b.address ≠ a) ∧ c.available = nodes.length
  large : ∀ b ∈ w.live, P.base w.pool ≤ b.address ∧ b.address + b.bytes ≤ P.base w.pool + P.slabSize
  aligned : ∀ b ∈ w.live, b.alignment ∣ b.address
  disjoint : w.live.Pairwise Block.Apart
  rejected : ∀ pointer, (∀ b ∈ w.live, b.address ≠ pointer) →
    P.deallocate pointer w.pool w.memory = (if pointer = 0 then w.pool else P.countInvalid w.pool, w.memory)

section

def regions (P : Pool) (pool : P.State) : List Region := (P.sizeClasses pool).map SizeClass.toRegion

structure Fits (alignment low high : Nat) (region : Region) : Prop extends region.Usable where
  low_le : low ≤ region.first
  le_high : region.last ≤ high
  aligned_first : alignment ∣ region.first
  aligned_stride : alignment ∣ region.stride

structure Layout (alignment low high : Nat) (regions : List Region) : Prop where
  fits : ∀ r ∈ regions, 0 < r.count → Fits alignment low high r
  apart : regions.Pairwise fun r r' => 0 < r.count → 0 < r'.count → r.last ≤ r'.first

def LaidOut (P : Pool) (pool : P.State) : Prop :=
  Layout P.alignment (P.base pool) (P.base pool + P.slabSize) (P.regions pool)

def Popped (P : Pool) (pool : P.State) (memory : ByteMemory) (bytes alignment : Nat) (result : Nat × P.State) : Prop :=
  P.base result.2 = P.base pool ∧ alignment ∣ P.alignment ∧ ∃ before c after i,
    P.sizeClasses pool = before ++ c :: after ∧ P.sizeClasses result.2 = before ++ c.popped memory i :: after ∧
    i < c.count ∧ c.free ≠ 0 ∧ c.free = c.block i ∧ bytes ≤ c.stride ∧ result.1 = c.free

def Pushed (P : Pool) (pool : P.State) (memory : ByteMemory) (pointer : Nat) (result : P.State × ByteMemory) : Prop :=
  P.base result.1 = P.base pool ∧ ∃ before c after i,
    P.sizeClasses pool = before ++ c :: after ∧ P.sizeClasses result.1 = before ++ c.pushed i :: after ∧
    i < c.count ∧ pointer = c.block i ∧ c.allocated i = true ∧ result.2 = memory.store pointer c.free

structure Lawful (P : Pool) : Prop where
  constructed : ∀ base memory, Upstream P base → P.LaidOut (P.construct base memory).1 ∧
    ∀ c ∈ P.sizeClasses (P.construct base memory).1,
      c.Threaded (P.construct base memory).2 ∧ ∀ i, c.allocated i = false
  allocates : ∀ pool memory bytes alignment, P.LaidOut pool → (∀ c ∈ P.sizeClasses pool, c.Threaded memory) →
    P.allocate bytes alignment pool memory = (0, pool) ∨
      P.Popped pool memory bytes alignment (P.allocate bytes alignment pool memory)
  deallocates : ∀ pool memory pointer, P.LaidOut pool →
    (P.deallocate pointer pool memory = (if pointer = 0 then pool else P.countInvalid pool, memory) ∧
      ∀ c ∈ P.sizeClasses pool, ∀ i, i < c.count → c.allocated i = true → c.block i ≠ pointer) ∨
    P.Pushed pool memory pointer (P.deallocate pointer pool memory)
  counted : ∀ pool, P.base (P.countInvalid pool) = P.base pool ∧ P.sizeClasses (P.countInvalid pool) = P.sizeClasses pool

variable {alignment low high : Nat} {regions : List Region} {r r' : Region} {i j : Nat}

theorem Layout.blocks_apart (layout : Layout alignment low high regions) (mem : r ∈ regions) (mem' : r' ∈ regions)
    (inside : i < r.count) (inside' : j < r'.count) (distinct : r.block i ≠ r'.block j) :
    r.block i + r.stride ≤ r'.block j ∨ r'.block j + r'.stride ≤ r.block i := by
  by_cases same : r = r'
  · subst same
    apply r.blocks_apart
    rintro rfl
    exact distinct rfl
  · have symmetric : regions.Pairwise Apart := layout.apart.imp fun before some_ some' => .inl (before some_ some')
    have apart := symmetric.forall mem mem' same (by omega) (by omega)
    have high := block_le inside
    have high' := block_le inside'
    have low : r.first ≤ r.block i := first_le_block
    have low' : r'.first ≤ r'.block j := first_le_block
    omega

theorem Layout.foreign {before after : List Region} (layout : Layout alignment low high (before ++ r :: after))
    (mem : r' ∈ before ++ after) (inside : i < r.count) (inside' : j < r'.count) : r.block i ≠ r'.block j := by
  have here : r ∈ before ++ r :: after := by simp
  have there : r' ∈ before ++ r :: after := by
    rcases mem_append.mp mem with mem | mem
    · exact mem_append_left _ mem
    · exact mem_append_right _ (mem_cons_of_mem _ mem)
  have apart : r.last ≤ r'.first ∨ r'.last ≤ r.first := by
    obtain ⟨-, inner, across⟩ := pairwise_append.mp layout.apart
    rcases mem_append.mp mem with mem | mem
    · exact .inr (across r' mem r mem_cons_self (by omega) (by omega))
    · exact .inl ((pairwise_cons.mp inner).1 r' mem (by omega) (by omega))
  have wide := (layout.fits r here (by omega)).wide
  have wide' := (layout.fits r' there (by omega)).wide
  have high := block_le inside
  have high' := block_le inside'
  have low : r.first ≤ r.block i := first_le_block
  have low' : r'.first ≤ r'.block j := first_le_block
  omega

end

section

structure Kept (P : Pool) (w : World P) : Prop where
  laidOut : P.LaidOut w.pool
  threaded : ∀ c ∈ P.sizeClasses w.pool, c.Threaded w.memory
  flags : ∀ c ∈ P.sizeClasses w.pool, ∀ i, i < c.count →
    (c.allocated i = true ↔ ∃ b ∈ w.live, b.address = c.block i)
  placed : ∀ b ∈ w.live, b.alignment ∣ P.alignment ∧
    ∃ c ∈ P.sizeClasses w.pool, ∃ i, i < c.count ∧ b.address = c.block i ∧ b.bytes ≤ c.stride
  distinct : (w.live.map (·.address)).Nodup

variable {w : World P}

theorem mem_regions {pool : P.State} {c : SizeClass} (mem : c ∈ P.sizeClasses pool) : c.toRegion ∈ P.regions pool :=
  mem_map_of_mem mem

theorem start_kept (lawful : Lawful P) {base : Nat} (memory : ByteMemory) (upstream : Upstream P base) :
    Kept P (World.start P base memory) := by
  obtain ⟨laidOut, classes⟩ := lawful.constructed base memory upstream
  refine ⟨laidOut, fun c mem => (classes c mem).1, ?_, ?_, nodup_nil⟩
  · intro c mem i _
    rw [(classes c mem).2 i]
    simp [World.start]
  · intro b impossible
    cases impossible

theorem Kept.free_ne (kept : Kept P w) {c : SizeClass} (mem : c ∈ P.sizeClasses w.pool) {i : Nat} (inside : i < c.count)
    (unused : c.allocated i = false) : ∀ b ∈ w.live, b.address ≠ c.block i := by
  intro b live same
  rw [(kept.flags c mem i inside).mpr ⟨b, live, same⟩] at unused
  cases unused

theorem write_kept (kept : Kept P w) {memory : ByteMemory} (same : ∀ a, P.base w.pool ≤ a → a < P.base w.pool + P.slabSize →
      (∀ b ∈ w.live, ¬(b.address ≤ a ∧ a < b.address + b.bytes)) → memory a = w.memory a) : Kept P { w with memory } := by
  refine ⟨kept.laidOut, ?_, kept.flags, kept.placed, kept.distinct⟩
  intro c mem
  apply (kept.threaded c mem).frame
  intro i inside unused
  apply load_congr
  intro k small
  have fits := kept.laidOut.fits _ (mem_regions mem) (by omega)
  have wide := fits.wide
  have low := fits.low_le
  have high := fits.le_high
  have := block_le inside
  have : c.first ≤ c.block i := first_le_block
  apply same _ (by omega) (by omega)
  intro b live ⟨starts, ends⟩
  obtain ⟨-, d, mem', j, inside', is, fit⟩ := kept.placed b live
  have distinct : d.block j ≠ c.block i := by
    rw [← is]
    exact kept.free_ne mem inside unused b live
  have apart := kept.laidOut.blocks_apart (mem_regions mem') (mem_regions mem) inside' inside distinct
  omega

section

variable {pool pool' : P.State} {before after : List SizeClass} {c c' : SizeClass}

theorem LaidOut.changed (laidOut : P.LaidOut pool) (base : P.base pool' = P.base pool)
    (is : P.sizeClasses pool = before ++ c :: after) (is' : P.sizeClasses pool' = before ++ c' :: after)
    (stays : c'.toRegion = c.toRegion) : P.LaidOut pool' := by
  have same : P.regions pool' = P.regions pool := by
    unfold Pool.regions
    rw [is, is']
    simp [stays]
  unfold LaidOut
  rw [same, base]
  exact laidOut

theorem LaidOut.foreign (laidOut : P.LaidOut pool) (is : P.sizeClasses pool = before ++ c :: after) {d : SizeClass}
    (mem : d ∈ before ++ after) {i j : Nat} (inside : i < c.count) (inside' : j < d.count) : c.block i ≠ d.block j := by
  unfold LaidOut Pool.regions at laidOut
  rw [is, map_append] at laidOut
  apply laidOut.foreign _ inside inside'
  rw [← map_append]
  exact mem_map_of_mem mem

theorem mem_split {d : SizeClass} (mem : d ∈ before ++ c :: after) : d = c ∨ d ∈ before ++ after := by
  simp only [mem_append, mem_cons] at mem ⊢
  tauto

theorem mem_others {d : SizeClass} (mem : d ∈ before ++ after) : d ∈ before ++ c :: after := by
  simp only [mem_append] at mem ⊢
  tauto

end

theorem allocate_kept (lawful : Lawful P) (kept : Kept P w) (bytes alignment : Nat) :
    Kept P (w.allocate bytes alignment) := by
  rcases lawful.allocates w.pool w.memory bytes alignment kept.laidOut kept.threaded with refused | popped
  · have same : w.allocate bytes alignment = w := by
      unfold World.allocate
      rw [refused]
      simp
    rw [same]
    exact kept
  · obtain ⟨base, aligned, before, c, after, i, is, is', inside, some_, first, fit, result⟩ := popped
    have mem : c ∈ P.sizeClasses w.pool := by simp [is]
    have others : ∀ d ∈ before ++ after, d ∈ P.sizeClasses w.pool := by
      intro d mem
      rw [is]
      exact mem_others mem
    have live : (w.allocate bytes alignment).live = ⟨c.block i, bytes, alignment⟩ :: w.live := by
      unfold World.allocate
      dsimp only
      rw [result, if_neg some_, first]
    have usable := (kept.laidOut.fits _ (mem_regions mem) (by omega)).toUsable
    obtain ⟨k, -, first', unused⟩ := (kept.threaded c mem).first some_
    obtain rfl : k = i := block_injective usable.wide (first'.symm.trans first)
    refine ⟨kept.laidOut.changed base is is' rfl, ?_, ?_, ?_, ?_⟩
    · intro d mem'
      rcases mem_split (is' ▸ mem') with rfl | mem'
      · exact (kept.threaded c mem).popped usable some_ first
      · exact kept.threaded d (others d mem')
    · intro d mem' j inside'
      rw [live]
      rcases mem_split (is' ▸ mem') with rfl | mem'
      · show Function.update c.allocated k true j = true ↔ _
        by_cases here : j = k
        · subst here
          simp [SizeClass.popped]
        · have elsewhere : c.block k ≠ c.block j := fun same => here (block_injective usable.wide same).symm
          rw [Function.update_of_ne here, kept.flags c mem j inside']
          simp [SizeClass.popped, elsewhere]
      · have elsewhere := kept.laidOut.foreign is mem' inside inside'
        rw [kept.flags d (others d mem') j inside']
        simp [elsewhere]
    · have isAfter : P.sizeClasses (w.allocate bytes alignment).pool = before ++ c.popped w.memory k :: after := is'
      have here : c.popped w.memory k ∈ before ++ c.popped w.memory k :: after := by simp
      intro b isLive
      rw [live] at isLive
      rw [isAfter]
      rcases mem_cons.mp isLive with rfl | isLive
      · exact ⟨aligned, c.popped w.memory k, here, k, inside, rfl, fit⟩
      obtain ⟨aligned', d, mem', j, inside', is_, fit'⟩ := kept.placed b isLive
      refine ⟨aligned', ?_⟩
      rcases mem_split (is ▸ mem') with rfl | mem'
      · exact ⟨d.popped w.memory k, here, j, inside', is_, fit'⟩
      · exact ⟨d, mem_others mem', j, inside', is_, fit'⟩
    · rw [live, map_cons, nodup_cons]
      refine ⟨?_, kept.distinct⟩
      intro taken
      obtain ⟨b, isLive, same⟩ := mem_map.mp taken
      exact kept.free_ne mem inside unused b isLive same

theorem deallocate_kept (lawful : Lawful P) (kept : Kept P w) (pointer : Nat) : Kept P (w.deallocate pointer) := by
  rcases lawful.deallocates w.pool w.memory pointer kept.laidOut with ⟨rejected, unknown⟩ | pushed
  · have live : w.live.filter (·.address ≠ pointer) = w.live := by
      apply filter_eq_self.mpr
      intro b isLive
      obtain ⟨-, c, mem, i, inside, is, -⟩ := kept.placed b isLive
      have used := (kept.flags c mem i inside).mpr ⟨b, isLive, is⟩
      have := unknown c mem i inside used
      rw [is]
      simpa using this
    have base : P.base (if pointer = 0 then w.pool else P.countInvalid w.pool) = P.base w.pool := by
      split
      · rfl
      · exact (lawful.counted w.pool).1
    have classes : P.sizeClasses (if pointer = 0 then w.pool else P.countInvalid w.pool) = P.sizeClasses w.pool := by
      split
      · rfl
      · exact (lawful.counted w.pool).2
    unfold World.deallocate
    rw [rejected, live]
    refine ⟨?_, ?_, ?_, ?_, kept.distinct⟩
    · unfold LaidOut Pool.regions
      rw [base, classes]
      exact kept.laidOut
    · rw [classes]
      exact kept.threaded
    · rw [classes]
      exact kept.flags
    · rw [classes]
      exact kept.placed
  · obtain ⟨base, before, c, after, i, is, is', inside, rfl, used, stored⟩ := pushed
    have mem : c ∈ P.sizeClasses w.pool := by simp [is]
    have others : ∀ d ∈ before ++ after, d ∈ P.sizeClasses w.pool := by
      intro d mem
      rw [is]
      exact mem_others mem
    have usable := (kept.laidOut.fits _ (mem_regions mem) (by omega)).toUsable
    have live : ∀ b, b ∈ (w.deallocate (c.block i)).live ↔ b ∈ w.live ∧ b.address ≠ c.block i := by
      intro b
      simp [World.deallocate]
    refine ⟨kept.laidOut.changed base is is' rfl, ?_, ?_, ?_, ?_⟩
    · intro d mem'
      show d.Threaded (P.deallocate (c.block i) w.pool w.memory).2
      rw [stored]
      rcases mem_split (is' ▸ mem') with rfl | mem'
      · exact (kept.threaded c mem).pushed usable inside used
      apply (kept.threaded d (others d mem')).frame
      intro j inside' _
      have wide := usable.wide
      have wide' := (kept.laidOut.fits _ (mem_regions (others d mem')) (by omega)).wide
      have apart := kept.laidOut.blocks_apart (mem_regions mem) (mem_regions (others d mem')) inside inside'
        (kept.laidOut.foreign is mem' inside inside')
      exact load_store_apart (by omega)
    · intro d mem' j inside'
      simp only [live]
      rcases mem_split (is' ▸ mem') with rfl | mem'
      · show Function.update c.allocated i false j = true ↔ ∃ b, (b ∈ w.live ∧ b.address ≠ c.block i) ∧ b.address = c.block j
        by_cases here : j = i
        · subst here
          simp
        have elsewhere : c.block j ≠ c.block i := fun same => here (block_injective usable.wide same)
        rw [Function.update_of_ne here, kept.flags c mem j inside']
        constructor
        · intro ⟨b, isLive, is_⟩
          exact ⟨b, ⟨isLive, by rw [is_]; exact elsewhere⟩, is_⟩
        · intro ⟨b, ⟨isLive, _⟩, is_⟩
          exact ⟨b, isLive, is_⟩
      · have elsewhere := kept.laidOut.foreign is mem' inside inside'
        rw [kept.flags d (others d mem') j inside']
        constructor
        · intro ⟨b, isLive, is_⟩
          exact ⟨b, ⟨isLive, by rw [is_]; exact elsewhere.symm⟩, is_⟩
        · intro ⟨b, ⟨isLive, _⟩, is_⟩
          exact ⟨b, isLive, is_⟩
    · have isAfter : P.sizeClasses (w.deallocate (c.block i)).pool = before ++ c.pushed i :: after := is'
      intro b isLive
      rw [isAfter]
      obtain ⟨aligned, d, mem', j, inside', is_, fit⟩ := kept.placed b ((live b).mp isLive).1
      refine ⟨aligned, ?_⟩
      rcases mem_split (is ▸ mem') with rfl | mem'
      · exact ⟨d.pushed i, by simp, j, inside', is_, fit⟩
      · exact ⟨d, mem_others mem', j, inside', is_, fit⟩
    · exact kept.distinct.sublist (filter_sublist.map _)

theorem reachable_kept (lawful : Lawful P) (reachable : World.Reachable P w) : Kept P w := by
  obtain ⟨base, memory, upstream, run⟩ := reachable
  induction run with
  | refl => exact start_kept lawful memory upstream
  | tail _ step kept =>
    cases step with
    | allocate bytes alignment => exact allocate_kept lawful kept bytes alignment
    | deallocate pointer => exact deallocate_kept lawful kept pointer
    | write memory same => exact write_kept kept same

theorem Kept.neverTwice (lawful : Lawful P) (kept : Kept P w) : NeverTwice P w := by
  refine ⟨?_, ?_, ?_, ?_, ?_⟩
  · intro c mem
    obtain ⟨indices, chain, distinct, members, length⟩ := kept.threaded c mem
    refine ⟨indices.map c.block, chain, ?_, ?_, by rw [length, length_map]⟩
    · apply distinct.map_on
      intro i isFree j isFree' same
      have inside := ((members i).mp isFree).1
      exact block_injective (kept.laidOut.fits _ (mem_regions mem) (by omega)).wide same
    · intro a
      constructor
      · intro isNode
        obtain ⟨i, isFree, rfl⟩ := mem_map.mp isNode
        obtain ⟨inside, unused⟩ := (members i).mp isFree
        exact ⟨⟨i, inside, rfl⟩, kept.free_ne mem inside unused⟩
      · intro ⟨⟨i, inside, is⟩, notLive⟩
        rw [is]
        apply mem_map_of_mem
        apply (members i).mpr
        refine ⟨inside, ?_⟩
        by_contra used
        obtain ⟨b, isLive, same⟩ := (kept.flags c mem i inside).mp (by simpa using used)
        exact notLive b isLive (same.trans is.symm)
  · intro b isLive
    obtain ⟨-, c, mem, i, inside, is, fit⟩ := kept.placed b isLive
    have fits := kept.laidOut.fits _ (mem_regions mem) (by omega)
    have low := fits.low_le
    have high := fits.le_high
    have := block_le inside
    have : c.first ≤ c.block i := first_le_block
    omega
  · intro b isLive
    obtain ⟨aligned, c, mem, i, inside, is, -⟩ := kept.placed b isLive
    have fits := kept.laidOut.fits _ (mem_regions mem) (by omega)
    rw [is]
    exact aligned.trans (Nat.dvd_add fits.aligned_first (fits.aligned_stride.mul_left _))
  · have distinct : w.live.Pairwise fun b b' => b.address ≠ b'.address := pairwise_map.mp kept.distinct
    apply distinct.imp_of_mem
    intro b b' isLive isLive' different
    obtain ⟨-, c, mem, i, inside, is, fit⟩ := kept.placed b isLive
    obtain ⟨-, d, mem', j, inside', is', fit'⟩ := kept.placed b' isLive'
    rw [is, is'] at different
    have apart := kept.laidOut.blocks_apart (mem_regions mem) (mem_regions mem') inside inside' different
    unfold Block.Apart
    omega
  · intro pointer notLive
    rcases lawful.deallocates w.pool w.memory pointer kept.laidOut with ⟨rejected, -⟩ | pushed
    · exact rejected
    · obtain ⟨-, before, c, after, i, is, -, inside, here, used, -⟩ := pushed
      obtain ⟨b, isLive, same⟩ := (kept.flags c (by simp [is]) i inside).mp used
      exact absurd (same.trans here.symm) (notLive b isLive)

end

end Pool

end NginBase.Memory
