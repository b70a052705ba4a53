import NginBase.Memory.PoolRuns

namespace NginBase.Memory

open Library ByteMemory List Nat Region FixedBlockConfig Pool

theorem alignment_pow {n : Nat} (some_ : n ≠ 0) (power : n &&& (n - 1) = 0) : ∃ k, n = 2 ^ k :=
  (and_sub_one_eq_zero_iff_isPowerOfTwo some_).mp power

theorem alignment_dvd {n m : Nat} (some_ : n ≠ 0) (power : n &&& (n - 1) = 0) (some' : m ≠ 0)
    (power' : m &&& (m - 1) = 0) (le : n ≤ m) : n ∣ m := by
  obtain ⟨k, rfl⟩ := alignment_pow some_ power
  obtain ⟨l, rfl⟩ := alignment_pow some' power'
  exact Nat.pow_dvd_pow 2 ((Nat.pow_le_pow_iff_right (by decide)).mp le)

theorem and_mask {k x : Nat} (bound : k ≤ 64) (small : x < 2 ^ 64) :
    x &&& (2 ^ 64 - 1 - (2 ^ k - 1)) = x / 2 ^ k * 2 ^ k := by
  apply eq_of_testBit_eq
  intro i
  have power : 2 ^ k ≤ 2 ^ 64 := Nat.pow_le_pow_right (by decide) bound
  have complement : 2 ^ 64 - 1 - (2 ^ k - 1) = 2 ^ 64 - ((2 ^ k - 1) + 1) := by omega
  rw [complement, testBit_and, testBit_two_pow_sub_succ (by omega), testBit_two_pow_sub_one,
    testBit_mul_two_pow, testBit_div_two_pow]
  by_cases low : k ≤ i
  · rw [Nat.sub_add_cancel low]
    by_cases high : i < 64
    · simp [low, high]
    have zero : x.testBit i = false := by
      apply testBit_lt_two_pow
      exact Nat.lt_of_lt_of_le small (Nat.pow_le_pow_right (by decide) (by omega))
    simp [zero]
  · simp [low]
    omega

namespace FixedBlockConfig

variable {config : FixedBlockConfig}

def roundedSize (config : FixedBlockConfig) : Nat :=
  (config.payloadSize + config.alignment - 1) / config.alignment * config.alignment

def Addressable (config : FixedBlockConfig) : Prop := config.roundedSize * config.blockCount < 2 ^ 64

instance (config : FixedBlockConfig) : Decidable config.Addressable := inferInstanceAs (Decidable (_ < _))

theorem payloadSize_le (config : FixedBlockConfig) : config.payloadSize ≤ config.roundedSize := by
  have positive : 0 < config.alignment := lt_of_lt_of_le (by decide) config.alignment_node
  have split := div_add_mod (config.payloadSize + config.alignment - 1) config.alignment
  have remainder := mod_lt (config.payloadSize + config.alignment - 1) positive
  unfold roundedSize
  rw [mul_comm]
  omega

theorem alignment_dvd_word (config : FixedBlockConfig) : config.alignment ∣ 2 ^ 64 := by
  have node := config.alignment_node
  obtain ⟨k, is⟩ := alignment_pow (by omega) config.alignment_power
  have small := config.alignment_lt
  rw [is] at small ⊢
  exact Nat.pow_dvd_pow 2 (Nat.le_of_lt ((Nat.pow_lt_pow_iff_right (by decide)).mp small))

section

variable (addressable : config.Addressable)

include addressable

theorem roundedSize_lt : config.roundedSize < 2 ^ 64 :=
  Nat.lt_of_le_of_lt (Nat.le_mul_of_pos_right _ config.blockCount_pos) addressable

theorem stride_eq : config.stride = config.roundedSize := by
  have node := config.alignment_node
  have rounded := roundedSize_lt addressable
  have payload := config.payloadSize_le
  obtain ⟨m, size⟩ : config.alignment ∣ config.roundedSize := Dvd.intro_left _ rfl
  obtain ⟨n, word⟩ := config.alignment_dvd_word
  have room : config.roundedSize + config.alignment ≤ 2 ^ 64 := by
    rw [size, word] at rounded
    have lt := Nat.lt_of_mul_lt_mul_left rounded
    rw [size, word]
    exact Nat.mul_le_mul_left _ lt
  have small : config.payloadSize + config.alignment - 1 < 2 ^ 64 := by omega
  obtain ⟨k, is⟩ := alignment_pow (by omega) config.alignment_power
  have bound : k ≤ 64 := by
    have lt := config.alignment_lt
    rw [is] at lt
    exact Nat.le_of_lt ((Nat.pow_lt_pow_iff_right (by decide)).mp lt)
  unfold stride roundedSize
  rw [Nat.mod_eq_of_lt small, is, and_mask bound (by rw [← is]; exact small)]

theorem slabSize_eq : config.slabSize = config.stride * config.blockCount := by
  unfold slabSize
  rw [stride_eq addressable]
  exact mod_eq_of_lt addressable

theorem alignment_dvd_stride : config.alignment ∣ config.stride := by
  rw [stride_eq addressable]
  exact Dvd.intro_left _ rfl

theorem blockSize_le_stride : config.blockSize ≤ config.stride := by
  rw [stride_eq addressable]
  exact le_trans (le_max_left _ _) config.payloadSize_le

theorem node_le_stride : 8 ≤ config.stride := by
  rw [stride_eq addressable]
  exact le_trans (le_max_right _ _) config.payloadSize_le

end

end FixedBlockConfig

namespace FixedBlockAllocator

open Pool

variable {config : FixedBlockConfig} {pool : FixedBlockAllocator} {memory : ByteMemory}

def region (config : FixedBlockConfig) (pool : FixedBlockAllocator) : Region where
  first := pool.base
  stride := config.stride
  count := if pool.base = 0 then 0 else config.blockCount

def sizeClass (config : FixedBlockConfig) (pool : FixedBlockAllocator) : SizeClass :=
  { pool.region config with free := pool.free, available := pool.available, allocated := pool.allocated }

theorem sizeClasses_eq (config : FixedBlockConfig) (pool : FixedBlockAllocator) :
    (fixedBlockPool config).sizeClasses pool = [pool.sizeClass config] := rfl

theorem laidOut_iff : (fixedBlockPool config).LaidOut pool ↔
    (0 < (pool.region config).count →
      Fits config.alignment pool.base (pool.base + config.slabSize) (pool.region config)) := by
  constructor
  · intro laidOut
    exact laidOut.fits _ mem_cons_self
  · intro fits
    refine ⟨?_, pairwise_singleton _ _⟩
    intro r mem
    obtain rfl := mem_singleton.mp mem
    exact fits

section

variable (addressable : config.Addressable)

include addressable

theorem constructed (base : Nat) (memory : ByteMemory) (upstream : Upstream (fixedBlockPool config) base) :
    (fixedBlockPool config).LaidOut (construct config base memory).1 ∧
      ∀ c ∈ (fixedBlockPool config).sizeClasses (construct config base memory).1,
        c.Threaded (construct config base memory).2 ∧ ∀ i, c.allocated i = false := by
  rw [laidOut_iff]
  by_cases null : base = 0
  · subst null
    refine ⟨fun some_ => absurd some_ (lt_irrefl 0), ?_⟩
    intro c mem
    obtain rfl := mem_singleton.mp mem
    exact ⟨⟨[], rfl, nodup_nil, by simp [construct], rfl⟩, fun _ => rfl⟩
  · obtain ⟨aligned, small⟩ := upstream.resolve_left null
    have small : base + config.slabSize < 2 ^ 64 := small
    rw [slabSize_eq addressable] at small
    let region : Region := ⟨base, config.stride, config.blockCount⟩
    have usable : region.Usable := ⟨pos_of_ne_zero null, node_le_stride addressable, small⟩
    have is : construct config base memory =
        ({ base, free := (threadBlocks base config.stride config.blockCount (0, memory)).1, available := config.blockCount },
          (threadBlocks base config.stride config.blockCount (0, memory)).2) := by
      unfold construct
      rw [if_pos null]
    have place : FixedBlockAllocator.region config (construct config base memory).1 = region := by
      rw [is]
      simp [FixedBlockAllocator.region, null, region]
    refine ⟨?_, ?_⟩
    · intro _
      rw [place, is, slabSize_eq addressable]
      exact ⟨usable, le_refl _, le_refl _, aligned, alignment_dvd_stride addressable⟩
    · intro c mem
      rw [sizeClasses_eq, mem_singleton] at mem
      subst mem
      have threaded : SizeClass.Threaded (threadBlocks base config.stride config.blockCount (0, memory)).2
          { region with .. } := threadBlocks_threaded usable
      unfold sizeClass
      rw [place, is]
      exact ⟨threaded, fun _ => rfl⟩

theorem allocates (bytes alignment : Nat) (laidOut : (fixedBlockPool config).LaidOut pool)
    (threaded : (pool.sizeClass config).Threaded memory) : allocate config bytes alignment pool memory = (0, pool) ∨
      (fixedBlockPool config).Popped pool memory bytes alignment (allocate config bytes alignment pool memory) := by
  unfold allocate
  split
  · exact .inl rfl
  rename_i fits
  simp only [not_or, Decidable.not_not] at fits
  obtain ⟨some_, small, positive, le, power, free⟩ := fits
  right
  obtain ⟨i, inside, first, -⟩ := threaded.first free
  have usable := (laidOut_iff.mp laidOut (zero_lt_of_lt inside)).toUsable
  have index : (pool.free + 2 ^ 64 - pool.base) % 2 ^ 64 / config.stride = i := by
    have free_eq : pool.free = (pool.region config).block i := first
    rw [free_eq]
    exact index_pointer usable inside
  have aligned : alignment ∣ config.alignment :=
    alignment_dvd positive power (by omega) config.alignment_power (by omega)
  refine ⟨rfl, aligned, [], pool.sizeClass config, [], i, rfl, ?_, inside, free, first, ?_, rfl⟩
  · dsimp only
    rw [index]
    rfl
  · exact Nat.le_trans (Nat.le_of_not_lt small) (blockSize_le_stride addressable)

theorem isBlockStart_iff (laidOut : (fixedBlockPool config).LaidOut pool) {pointer : Nat} (some_ : pointer ≠ 0) :
    pool.isBlockStart config pointer = true ↔
      ∃ i, i < (pool.region config).count ∧ pointer = (pool.region config).block i := by
  have wide : 8 ≤ (pool.region config).stride := node_le_stride addressable
  by_cases null : pool.base = 0
  · simp [isBlockStart, owns, region, null]
  have count : (pool.region config).count = config.blockCount := if_neg null
  have last : (pool.region config).last = pool.base + config.slabSize := by
    unfold last
    rw [count, slabSize_eq addressable]
    rfl
  have small : pool.base + config.slabSize < 2 ^ 64 := by
    rw [← last]
    exact (laidOut_iff.mp laidOut (by rw [count]; exact config.blockCount_pos)).small
  rw [← starts_iff wide, last]
  simp only [isBlockStart, owns, mod_eq_of_lt small, Bool.and_eq_true, decide_eq_true_eq]
  tauto

theorem deallocates (pointer : Nat) (laidOut : (fixedBlockPool config).LaidOut pool) :
    (deallocate config pointer pool memory = (if pointer = 0 then pool else pool.countInvalid, memory) ∧
      ∀ c ∈ (fixedBlockPool config).sizeClasses pool, ∀ i, i < c.count → c.allocated i = true → c.block i ≠ pointer) ∨
    (fixedBlockPool config).Pushed pool memory pointer (deallocate config pointer pool memory) := by
  have wide : 8 ≤ (pool.region config).stride := node_le_stride addressable
  by_cases null : pointer = 0
  · left
    subst null
    refine ⟨by simp [deallocate], ?_⟩
    intro c mem i inside _
    obtain rfl := mem_singleton.mp mem
    have positive := (laidOut_iff.mp laidOut (zero_lt_of_lt inside)).positive
    have : (pool.region config).first ≤ (pool.region config).block i := first_le_block
    show (pool.region config).block i ≠ 0
    omega
  by_cases starts : pool.isBlockStart config pointer = true
  · obtain ⟨i, inside, here⟩ := (isBlockStart_iff addressable laidOut null).mp starts
    have index : (pointer - pool.base) / config.stride = i := by
      rw [here]
      exact index_block wide
    by_cases used : pool.allocated i = true
    · right
      unfold deallocate
      rw [if_neg null, if_neg (by simp [starts]), index, if_neg (by simp [used])]
      exact ⟨rfl, [], pool.sizeClass config, [], i, rfl, by rw [here]; rfl, inside, here, used, rfl⟩
    · left
      refine ⟨by simp [deallocate, null, index, used], ?_⟩
      intro c mem j _ used' same
      obtain rfl := mem_singleton.mp mem
      obtain rfl : j = i := block_injective wide (same.trans here)
      exact used used'
  · left
    refine ⟨by simp [deallocate, null, starts], ?_⟩
    intro c mem i inside _ same
    obtain rfl := mem_singleton.mp mem
    exact starts ((isBlockStart_iff addressable laidOut null).mpr ⟨i, inside, same.symm⟩)

theorem lawful : (fixedBlockPool config).Lawful where
  constructed := constructed addressable
  allocates _ _ bytes alignment laidOut threaded :=
    allocates addressable bytes alignment laidOut (threaded _ mem_cons_self)
  deallocates _ _ pointer laidOut := deallocates addressable pointer laidOut
  counted _ := ⟨rfl, rfl⟩

end

end FixedBlockAllocator

namespace SegregatedPoolAllocator

open Pool

variable {blocksPerClass base : Nat} {pool : SegregatedPoolAllocator} {memory : ByteMemory}

theorem locate_some {wanted : ClassState → Bool} {classes before after : List ClassState} {state : ClassState}
    (found : locate wanted classes = some (before, state, after)) :
    classes = before ++ state :: after ∧ wanted state = true := by
  induction classes generalizing before with
  | nil => cases found
  | cons first rest ih =>
    unfold locate at found
    split at found
    · rename_i isWanted
      cases found
      exact ⟨rfl, isWanted⟩
    · obtain ⟨⟨before', state', after'⟩, found', is⟩ := Option.map_eq_some_iff.mp found
      cases is
      obtain ⟨rfl, isWanted⟩ := ih found'
      exact ⟨rfl, isWanted⟩

theorem locate_none {wanted : ClassState → Bool} {classes : List ClassState} (missing : locate wanted classes = none) :
    ∀ state ∈ classes, wanted state = false := by
  induction classes with
  | nil => simp
  | cons first rest ih =>
    unfold locate at missing
    split at missing
    · cases missing
    rename_i unwanted
    intro state mem
    rcases mem_cons.mp mem with rfl | mem
    · simpa using unwanted
    · exact ih (Option.map_eq_none_iff.mp missing) state mem

def region (blocksPerClass base : Nat) (state : ClassState) : Region where
  first := (base + state.offset) % 2 ^ 64
  stride := state.blockSize
  count := if base = 0 then 0 else blocksPerClass

def sizeClass (blocksPerClass base : Nat) (state : ClassState) : SizeClass :=
  { region blocksPerClass base state with
    free := state.free
    available := state.available
    allocated := state.allocated }

theorem sizeClasses_eq (blocksPerClass : Nat) (pool : SegregatedPoolAllocator) :
    (segregatedPool blocksPerClass).sizeClasses pool = pool.classes.map (sizeClass blocksPerClass pool.base) := rfl

theorem regions_eq (blocksPerClass : Nat) (pool : SegregatedPoolAllocator) :
    (segregatedPool blocksPerClass).regions pool = pool.classes.map (region blocksPerClass pool.base) := by
  unfold regions
  rw [sizeClasses_eq, map_map]
  rfl

theorem slabSize_eq (addressable : 1008 * blocksPerClass < 2 ^ 64) :
    computeSlabSize blocksPerClass = 1008 * blocksPerClass := by
  simp only [computeSlabSize, sizes, foldl_cons, foldl_nil]
  omega

theorem initializeClasses_spec (some_ : base ≠ 0) (sizes : List Nat) (offset : Nat)
    (fit : ∀ size ∈ sizes, 8 ≤ size ∧ alignment ∣ size) (aligned : alignment ∣ base + offset)
    (small : base + offset + sizes.sum * blocksPerClass < 2 ^ 64) (memory : ByteMemory) :
    (∀ state ∈ (initializeClasses blocksPerClass base sizes offset memory).1,
      Fits alignment (base + offset) (base + offset + sizes.sum * blocksPerClass) (region blocksPerClass base state) ∧
      (sizeClass blocksPerClass base state).Threaded (initializeClasses blocksPerClass base sizes offset memory).2 ∧
      ∀ i, state.allocated i = false) ∧
    ((initializeClasses blocksPerClass base sizes offset memory).1.map (region blocksPerClass base)).Pairwise
      (fun r r' => r.last ≤ r'.first) ∧
    ∀ a, a < base + offset → (initializeClasses blocksPerClass base sizes offset memory).2 a = memory a := by
  induction sizes generalizing offset memory with
  | nil => simp [initializeClasses]
  | cons size rest ih =>
    obtain ⟨wide, multiple⟩ := fit size mem_cons_self
    rw [sum_cons, add_mul] at small
    let r : Region := ⟨base + offset, size, blocksPerClass⟩
    have last : r.last = base + offset + size * blocksPerClass := rfl
    have usable : r.Usable := by
      refine ⟨?_, wide, ?_⟩
      · show 0 < base + offset
        omega
      · omega
    let threaded := threadBlocks (base + offset) size blocksPerClass (0, memory)
    let state : ClassState := { blockSize := size, offset, free := threaded.1, available := blocksPerClass }
    have next : (offset + size * blocksPerClass) % 2 ^ 64 = offset + size * blocksPerClass :=
      mod_eq_of_lt (by omega)
    have first : (base + offset) % 2 ^ 64 = base + offset := mod_eq_of_lt (by omega)
    have alignedNext : alignment ∣ base + (offset + size * blocksPerClass) := by
      rw [← add_assoc]
      exact Nat.dvd_add aligned (multiple.mul_right _)
    obtain ⟨good, apart, outside⟩ := ih (offset + size * blocksPerClass)
      (fun size mem => fit size (mem_cons_of_mem _ mem)) alignedNext (by omega) threaded.2
    have unfolds : initializeClasses blocksPerClass base (size :: rest) offset memory =
        (state :: (initializeClasses blocksPerClass base rest (offset + size * blocksPerClass) threaded.2).1,
          (initializeClasses blocksPerClass base rest (offset + size * blocksPerClass) threaded.2).2) := by
      simp only [initializeClasses, first, next]
      rfl
    have place : region blocksPerClass base state = r := by
      show Region.mk ((base + offset) % 2 ^ 64) size (if base = 0 then 0 else blocksPerClass) = r
      rw [first, if_neg some_]
    have chained : (sizeClass blocksPerClass base state).Threaded threaded.2 := by
      unfold sizeClass
      rw [place]
      exact threadBlocks_threaded usable
    rw [unfolds, sum_cons, add_mul]
    refine ⟨?_, ?_, ?_⟩
    · intro state' mem
      rcases mem_cons.mp mem with rfl | mem
      · refine ⟨?_, ?_, fun _ => rfl⟩
        · rw [place]
          exact ⟨usable, le_refl _, by rw [last]; omega, aligned, multiple⟩
        · apply chained.frame
          intro i inside _
          have inside : i < r.count := by rw [← place]; exact inside
          have block : (sizeClass blocksPerClass base state).block i = r.block i := by rw [← place]; rfl
          have := block_le inside
          have : 8 ≤ r.stride := wide
          apply load_congr
          intro k small
          exact outside _ (by omega)
      · obtain ⟨fits, threaded', unused⟩ := good state' mem
        have low := fits.low_le
        have high := fits.le_high
        exact ⟨⟨fits.toUsable, by omega, by omega, fits.aligned_first, fits.aligned_stride⟩, threaded', unused⟩
    · rw [map_cons, pairwise_cons]
      refine ⟨?_, apart⟩
      intro r' isRegion
      obtain ⟨state', mem, rfl⟩ := mem_map.mp isRegion
      have low := (good state' mem).1.low_le
      rw [place]
      omega
    · intro a low
      rw [outside a (by omega)]
      exact threadBlocks_outside usable (.inl low)

theorem constructed (addressable : 1008 * blocksPerClass < 2 ^ 64) (base : Nat) (memory : ByteMemory)
    (upstream : Upstream (segregatedPool blocksPerClass) base) :
    (segregatedPool blocksPerClass).LaidOut (construct blocksPerClass base memory).1 ∧
      ∀ c ∈ (segregatedPool blocksPerClass).sizeClasses (construct blocksPerClass base memory).1,
        c.Threaded (construct blocksPerClass base memory).2 ∧ ∀ i, c.allocated i = false := by
  unfold LaidOut
  rw [regions_eq]
  by_cases null : base = 0
  · have is : construct blocksPerClass base memory = ({}, memory) := by simp [construct, null]
    rw [is]
    have empty : ∀ state ∈ ({} : SegregatedPoolAllocator).classes, state = {} := fun state mem =>
      eq_of_mem_replicate mem
    refine ⟨⟨?_, ?_⟩, ?_⟩
    · intro r mem some_
      obtain ⟨state, -, rfl⟩ := mem_map.mp mem
      exact absurd some_ (lt_irrefl 0)
    · apply pairwise_of_forall_mem_list
      intro r isRegion r' _ some_
      obtain ⟨state, -, rfl⟩ := mem_map.mp isRegion
      exact absurd some_ (lt_irrefl 0)
    · intro c isClass
      obtain ⟨state, mem, rfl⟩ := mem_map.mp isClass
      obtain rfl := empty state mem
      exact ⟨⟨[], rfl, nodup_nil, by simp, rfl⟩, fun _ => rfl⟩
  · obtain ⟨aligned, small⟩ := upstream.resolve_left null
    have size := slabSize_eq addressable
    have total : sizes.sum = 1008 := rfl
    have small' : base + 0 + sizes.sum * blocksPerClass < 2 ^ 64 := by
      rw [total, ← size]
      exact small
    obtain ⟨good, apart, -⟩ := initializeClasses_spec null sizes 0 (by decide) aligned small' memory
    have is : construct blocksPerClass base memory =
        ({ base, classes := (initializeClasses blocksPerClass base sizes 0 memory).1 },
          (initializeClasses blocksPerClass base sizes 0 memory).2) := by
      unfold construct
      rw [if_pos null]
    rw [is]
    refine ⟨⟨?_, apart.imp fun before _ _ => before⟩, ?_⟩
    · intro r isRegion _
      obtain ⟨state, mem, rfl⟩ := mem_map.mp isRegion
      have fits := (good state mem).1
      rw [total, ← size] at fits
      exact fits
    · intro c isClass
      obtain ⟨state, mem, rfl⟩ := mem_map.mp isClass
      exact (good state mem).2

theorem sizeClasses_split (pool : SegregatedPoolAllocator) {before after : List ClassState} {state : ClassState}
    (is : pool.classes = before ++ state :: after) :
    (segregatedPool blocksPerClass).sizeClasses pool = before.map (sizeClass blocksPerClass pool.base) ++
      sizeClass blocksPerClass pool.base state :: after.map (sizeClass blocksPerClass pool.base) := by
  rw [sizeClasses_eq, is, map_append, map_cons]

theorem fits_of_mem (laidOut : (segregatedPool blocksPerClass).LaidOut pool) {state : ClassState}
    (mem : state ∈ pool.classes) (some_ : 0 < (region blocksPerClass pool.base state).count) :
    Fits alignment pool.base (pool.base + computeSlabSize blocksPerClass) (region blocksPerClass pool.base state) := by
  apply laidOut.fits _ _ some_
  rw [regions_eq]
  exact mem_map_of_mem mem

theorem allocates (bytes alignment : Nat) (laidOut : (segregatedPool blocksPerClass).LaidOut pool)
    (threaded : ∀ c ∈ (segregatedPool blocksPerClass).sizeClasses pool, c.Threaded memory) :
    allocate bytes alignment pool memory = (0, pool) ∨
      (segregatedPool blocksPerClass).Popped pool memory bytes alignment (allocate bytes alignment pool memory) := by
  unfold allocate
  split
  · exact .inl rfl
  rename_i fits
  simp only [not_or, Decidable.not_not] at fits
  obtain ⟨-, positive, le, power⟩ := fits
  split
  · exact .inl rfl
  rename_i before state after found
  right
  obtain ⟨is, wanted⟩ := locate_some found
  simp only [decide_eq_true_eq] at wanted
  obtain ⟨small, free⟩ := wanted
  have mem : state ∈ pool.classes := by simp [is]
  have chained := threaded (sizeClass blocksPerClass pool.base state)
    (by rw [sizeClasses_eq]; exact mem_map_of_mem mem)
  obtain ⟨i, inside, first, -⟩ := chained.first free
  have usable := (fits_of_mem laidOut mem (zero_lt_of_lt inside)).toUsable
  have index : (state.free + 2 ^ 64 - (pool.base + state.offset) % 2 ^ 64) % 2 ^ 64 / state.blockSize = i := by
    have free_eq : state.free = (region blocksPerClass pool.base state).block i := first
    rw [free_eq]
    exact index_pointer usable inside
  have aligned : alignment ∣ SegregatedPoolAllocator.alignment :=
    alignment_dvd positive power (by decide) (by decide) (by omega)
  refine ⟨rfl, aligned, _, sizeClass blocksPerClass pool.base state, _, i, sizeClasses_split pool is, ?_, inside, free, first,
    Nat.le_of_not_lt small, rfl⟩
  dsimp only
  rw [index]
  exact sizeClasses_split { pool with classes := _ } rfl

theorem starts_iff (laidOut : (segregatedPool blocksPerClass).LaidOut pool) (slab : pool.base ≠ 0)
    (positive : 0 < blocksPerClass) {state : ClassState} (mem : state ∈ pool.classes) (pointer : Nat) :
    startsIn blocksPerClass pool.base pointer state = true ↔
      ∃ i, i < (region blocksPerClass pool.base state).count ∧
        pointer = (region blocksPerClass pool.base state).block i := by
  have count : (region blocksPerClass pool.base state).count = blocksPerClass := if_neg slab
  have usable := (fits_of_mem laidOut mem (by rw [count]; exact positive)).toUsable
  have last : (region blocksPerClass pool.base state).last =
      (pool.base + state.offset) % 2 ^ 64 + state.blockSize * blocksPerClass := by
    unfold Region.last
    rw [count]
    rfl
  have small : (pool.base + state.offset) % 2 ^ 64 + state.blockSize * blocksPerClass < 2 ^ 64 := by
    rw [← last]
    exact usable.small
  rw [← Region.starts_iff usable.wide, last]
  simp only [startsIn, mod_eq_of_lt small, Bool.and_eq_true, decide_eq_true_eq]
  exact and_assoc

theorem deallocates (positive : 0 < blocksPerClass) (pointer : Nat)
    (laidOut : (segregatedPool blocksPerClass).LaidOut pool) :
    (deallocate blocksPerClass pointer pool memory = (if pointer = 0 then pool else pool.countInvalid, memory) ∧
      ∀ c ∈ (segregatedPool blocksPerClass).sizeClasses pool, ∀ i, i < c.count → c.allocated i = true →
        c.block i ≠ pointer) ∨
    (segregatedPool blocksPerClass).Pushed pool memory pointer (deallocate blocksPerClass pointer pool memory) := by
  by_cases null : pointer = 0
  · left
    subst null
    refine ⟨by simp [deallocate], ?_⟩
    intro c isClass i inside _
    obtain ⟨state, mem, rfl⟩ := mem_map.mp isClass
    have usable := (fits_of_mem laidOut mem (zero_lt_of_lt inside)).toUsable
    have : (region blocksPerClass pool.base state).first ≤ (region blocksPerClass pool.base state).block i :=
      first_le_block
    have := usable.positive
    show (region blocksPerClass pool.base state).block i ≠ 0
    omega
  by_cases slab : pool.base = 0
  · left
    refine ⟨by simp [deallocate, classForPointer, null, slab], ?_⟩
    intro c isClass i inside _
    obtain ⟨state, mem, rfl⟩ := mem_map.mp isClass
    rw [if_pos slab] at inside
    exact absurd inside (not_lt_zero i)
  unfold deallocate classForPointer
  rw [if_neg null, if_neg (by simp [null, slab])]
  split
  · rename_i missing
    left
    rw [if_neg null]
    refine ⟨rfl, ?_⟩
    intro c isClass i inside _ same
    obtain ⟨state, mem, rfl⟩ := mem_map.mp isClass
    have starts := (starts_iff laidOut slab positive mem pointer).mpr ⟨i, inside, same.symm⟩
    have unwanted := locate_none missing state mem
    simp only [starts] at unwanted
    cases unwanted
  · rename_i before state after found
    obtain ⟨is, wanted⟩ := locate_some found
    have mem : state ∈ pool.classes := by simp [is]
    obtain ⟨i, inside, here⟩ := (starts_iff laidOut slab positive mem pointer).mp wanted
    have usable := (fits_of_mem laidOut mem (zero_lt_of_lt inside)).toUsable
    have index : (pointer - (pool.base + state.offset) % 2 ^ 64) / state.blockSize = i := by
      rw [here]
      exact index_block usable.wide
    dsimp only
    rw [index]
    split
    · rename_i unused
      left
      refine ⟨rfl, ?_⟩
      intro c isClass j inside' used same
      have isClass : c ∈ _ ++ _ :: _ := sizeClasses_split pool is ▸ isClass
      rcases mem_split isClass with rfl | isClass
      · obtain rfl : j = i := block_injective usable.wide (same.trans here)
        exact unused used
      · exact laidOut.foreign (sizeClasses_split pool is) isClass inside inside' (here.symm.trans same.symm)
    · rename_i used
      right
      refine ⟨rfl, _, sizeClass blocksPerClass pool.base state, _, i, sizeClasses_split pool is, ?_, inside, here,
        Decidable.not_not.mp used, rfl⟩
      rw [here]
      exact sizeClasses_split { pool with classes := _ } rfl

theorem lawful (positive : 0 < blocksPerClass) (addressable : 1008 * blocksPerClass < 2 ^ 64) :
    (segregatedPool blocksPerClass).Lawful where
  constructed := constructed addressable
  allocates _ _ bytes alignment laidOut threaded := allocates bytes alignment laidOut threaded
  deallocates _ _ pointer laidOut := deallocates positive pointer laidOut
  counted _ := ⟨rfl, rfl⟩

end SegregatedPoolAllocator

def PoolKind.Addressable : PoolKind → Prop
  | fixedBlock config => config.Addressable
  | segregated blocksPerClass _ => 1008 * blocksPerClass < 2 ^ 64

theorem PoolKind.lawful {kind : PoolKind} (addressable : kind.Addressable) : kind.pool.Lawful := by
  cases kind with
  | fixedBlock config => exact FixedBlockAllocator.lawful addressable
  | segregated blocksPerClass positive => exact SegregatedPoolAllocator.lawful positive addressable

/-- In every run of an allocator whose slab can be addressed, the free lists and the live blocks share the slab. -/
theorem pools_neverTwice (kind : PoolKind) (addressable : kind.Addressable) (w : World kind.pool)
    (reachable : World.Reachable kind.pool w) : NeverTwice kind.pool w := by
  have lawful := PoolKind.lawful addressable
  exact (reachable_kept lawful reachable).neverTwice lawful

def smallConfig : FixedBlockConfig :=
  ⟨16, 2, 16, by decide, by decide, by decide, by decide, by decide, by decide, by decide⟩

theorem pools_neverTwice_small : NeverTwice (fixedBlockPool smallConfig)
    ((World.start (fixedBlockPool smallConfig) 4096 fun _ => 0).allocate 16 8) := by
  have upstream : Upstream (fixedBlockPool smallConfig) 4096 := .inr ⟨by decide, by decide⟩
  have addressable : smallConfig.Addressable := by decide
  exact pools_neverTwice (.fixedBlock smallConfig) addressable _ ⟨4096, _, upstream, .single (.allocate _ 16 8)⟩

def wideConfig : FixedBlockConfig :=
  ⟨2 ^ 63 + 8, 2, 16, by decide, by decide, by decide, by decide, by decide, by decide, by decide⟩

theorem fixedBlockPool_wraps : ¬∀ (kind : PoolKind) (w : World kind.pool), World.Reachable kind.pool w →
    NeverTwice kind.pool w := by
  intro all
  let start : World (fixedBlockPool wideConfig) := World.start _ 4096 fun _ => 0
  have upstream : Upstream (fixedBlockPool wideConfig) 4096 := .inr ⟨by decide, by decide⟩
  have never : NeverTwice (fixedBlockPool wideConfig) (start.allocate 64 16) :=
    all (.fixedBlock wideConfig) _ ⟨4096, _, upstream, .single (.allocate _ 64 16)⟩
  have live : (start.allocate 64 16).live = [⟨4096, 64, 16⟩] := rfl
  have large := never.large ⟨4096, 64, 16⟩ (by rw [live]; exact mem_singleton_self _)
  have slab : (fixedBlockPool wideConfig).slabSize = 32 := by decide
  have base : (fixedBlockPool wideConfig).base (start.allocate 64 16).pool = 4096 := rfl
  exact absurd large.2 (by decide)

end NginBase.Memory
