import NginBase.Memory.PoolAllocators

namespace NginBase.Memory

open Library ByteMemory List Nat Function

structure Region where
  first : Nat
  stride : Nat
  count : Nat

/-- The blocks of one size: which are handed out, and the list of the others. -/
structure SizeClass extends Region where
  free : Nat
  available : Nat
  allocated : Nat → Bool

namespace Region

variable {region : Region} {i j pointer : Nat}

def block (region : Region) (i : Nat) : Nat := region.first + i * region.stride

def last (region : Region) : Nat := region.first + region.stride * region.count

/-- The region can be addressed, and a block can hold a pointer. -/
structure Usable (region : Region) : Prop where
  positive : 0 < region.first
  wide : 8 ≤ region.stride
  small : region.last < 2 ^ 64

def Apart (region region' : Region) : Prop :=
  0 < region.count → 0 < region'.count → region.last ≤ region'.first ∨ region'.last ≤ region.first

instance : Std.Symm Apart := ⟨fun _ _ apart some_ some' => (apart some' some_).symm⟩

theorem block_le (inside : i < region.count) : region.block i + region.stride ≤ region.last := by
  unfold block last
  have step : (i + 1) * region.stride ≤ region.stride * region.count := by
    rw [mul_comm]
    exact mul_le_mul_left _ inside
  rw [add_mul] at step
  omega

theorem first_le_block : region.first ≤ region.block i := le_add_right _ _

theorem block_apart (region : Region) (before : i < j) : region.block i + region.stride ≤ region.block j := by
  unfold block
  have step := mul_le_mul_right region.stride (succ_le_of_lt before)
  rw [succ_mul] at step
  omega

theorem block_injective (wide : 8 ≤ region.stride) (same : region.block i = region.block j) : i = j := by
  rcases lt_trichotomy i j with before | equal | after
  · have := region.block_apart before
    omega
  · exact equal
  · have := region.block_apart after
    omega

theorem blocks_apart (region : Region) (distinct : i ≠ j) :
    region.block i + region.stride ≤ region.block j ∨ region.block j + region.stride ≤ region.block i := by
  rcases lt_or_gt_of_ne distinct with before | after
  · exact .inl (region.block_apart before)
  · exact .inr (region.block_apart after)

theorem starts_iff (wide : 8 ≤ region.stride) :
    region.first ≤ pointer ∧ pointer < region.last ∧ (pointer - region.first) % region.stride = 0 ↔
      ∃ i, i < region.count ∧ pointer = region.block i := by
  constructor
  · intro ⟨low, high, whole⟩
    have split := div_add_mod (pointer - region.first) region.stride
    refine ⟨(pointer - region.first) / region.stride, ?_, ?_⟩
    · rw [div_lt_iff_lt_mul (by omega), mul_comm]
      unfold last at high
      omega
    · unfold block
      rw [mul_comm]
      omega
  · intro ⟨i, inside, is⟩
    have := block_le inside
    have : pointer - region.first = i * region.stride := by
      rw [is]
      exact Nat.add_sub_cancel_left _ _
    rw [this]
    refine ⟨?_, by omega, mul_mod_left _ _⟩
    rw [is]
    exact first_le_block

theorem index_block (wide : 8 ≤ region.stride) : (region.block i - region.first) / region.stride = i := by
  unfold block
  rw [Nat.add_sub_cancel_left, Nat.mul_div_cancel _ (by omega)]

theorem index_pointer (usable : region.Usable) (inside : i < region.count) :
    (region.block i + 2 ^ 64 - region.first) % 2 ^ 64 / region.stride = i := by
  have high := block_le inside
  have low : region.first ≤ region.block i := first_le_block
  have small := usable.small
  have difference : (region.block i + 2 ^ 64 - region.first) % 2 ^ 64 = region.block i - region.first := by omega
  rw [difference, index_block usable.wide]

end Region

namespace SizeClass

variable {c : SizeClass} {memory memory' : ByteMemory} {i : Nat}

/-- The free list consists of the blocks that are not handed out, each once. -/
def Threaded (memory : ByteMemory) (c : SizeClass) : Prop :=
  ∃ indices : List Nat, Chain memory c.free (indices.map c.block) ∧ indices.Nodup ∧
    (∀ i, i ∈ indices ↔ i < c.count ∧ c.allocated i = false) ∧ c.available = indices.length

theorem Threaded.frame (threaded : c.Threaded memory)
    (same : ∀ i, i < c.count → c.allocated i = false → load memory' (c.block i) = load memory (c.block i)) :
    c.Threaded memory' := by
  obtain ⟨indices, chain, distinct, members, length⟩ := threaded
  refine ⟨indices, ?_, distinct, members, length⟩
  apply chain.frame
  intro node mem
  obtain ⟨i, isFree, rfl⟩ := mem_map.mp mem
  obtain ⟨inside, unused⟩ := (members i).mp isFree
  exact same i inside unused

def popped (memory : ByteMemory) (c : SizeClass) (i : Nat) : SizeClass :=
  { c with
    free := load memory c.free
    available := c.available - 1
    allocated := update c.allocated i true }

def pushed (c : SizeClass) (i : Nat) : SizeClass :=
  { c with
    free := c.block i
    available := c.available + 1
    allocated := update c.allocated i false }

theorem Threaded.first (threaded : c.Threaded memory) (some_ : c.free ≠ 0) :
    ∃ i, i < c.count ∧ c.free = c.block i ∧ c.allocated i = false := by
  obtain ⟨indices, chain, distinct, members, length⟩ := threaded
  obtain ⟨rest, is, -⟩ := chain.uncons some_
  cases indices with
  | nil => cases is
  | cons i indices =>
    obtain ⟨inside, unused⟩ := (members i).mp mem_cons_self
    exact ⟨i, inside, (cons.inj is).1.symm, unused⟩

section

variable (threaded : c.Threaded memory) (usable : c.Usable)

include threaded usable

theorem Threaded.popped (some_ : c.free ≠ 0) (is : c.free = c.block i) : (c.popped memory i).Threaded memory := by
  obtain ⟨indices, chain, distinct, members, length⟩ := threaded
  obtain ⟨rest, first, chain⟩ := chain.uncons some_
  cases indices with
  | nil => cases first
  | cons j indices =>
    obtain ⟨same, rfl⟩ := cons.inj first
    obtain rfl : j = i := Region.block_injective usable.wide (same.trans is)
    obtain ⟨absent, distinct⟩ := nodup_cons.mp distinct
    refine ⟨indices, chain, distinct, ?_, ?_⟩
    · intro k
      have before := members k
      show k ∈ indices ↔ k < c.count ∧ update c.allocated j true k = false
      by_cases here : k = j
      · subst here
        simp [absent]
      · rw [update_of_ne here, ← before]
        simp [here]
    · show c.available - 1 = indices.length
      rw [length, length_cons]
      omega

theorem Threaded.free_lt : c.free < 2 ^ 64 := by
  obtain ⟨indices, chain, distinct, members, length⟩ := threaded
  apply chain.small (by decide)
  intro node mem
  obtain ⟨i, isFree, rfl⟩ := mem_map.mp mem
  have := Region.block_le ((members i).mp isFree).1
  have := usable.small
  omega

theorem Threaded.pushed (inside : i < c.count) (used : c.allocated i = true) :
    (c.pushed i).Threaded (store memory (c.block i) c.free) := by
  have small := threaded.free_lt usable
  obtain ⟨indices, chain, distinct, members, length⟩ := threaded
  have absent : i ∉ indices := by
    intro mem
    rw [((members i).mp mem).2] at used
    cases used
  refine ⟨i :: indices, ?_, nodup_cons.mpr ⟨absent, distinct⟩, ?_, ?_⟩
  · have apart : ∀ node ∈ indices.map c.block, c.block i + 8 ≤ node ∨ node + 8 ≤ c.block i := by
      intro node mem
      obtain ⟨j, isFree, rfl⟩ := mem_map.mp mem
      have distinct : i ≠ j := by
        rintro rfl
        exact absent isFree
      have wide := usable.wide
      rcases c.blocks_apart distinct with before | after
      · exact .inl (by omega)
      · exact .inr (by omega)
    have nonnull : c.block i ≠ 0 := by
      have := usable.positive
      have : c.first ≤ c.block i := Region.first_le_block
      omega
    exact chain.push nonnull small apart
  · intro k
    show k ∈ i :: indices ↔ k < c.count ∧ update c.allocated i false k = false
    rw [mem_cons, members k]
    by_cases here : k = i
    · subst here
      simp [inside]
    · simp [here]
  · show c.available + 1 = (i :: indices).length
    rw [length, length_cons]

end

end SizeClass

section

variable {region : Region} {memory : ByteMemory}

theorem threadBlocks_spec (usable : region.Usable) (index : Nat) (bound : index ≤ region.count) {free : Nat}
    {indices : List Nat} (chain : Chain memory free (indices.map region.block))
    (later : ∀ i ∈ indices, index ≤ i ∧ i < region.count) :
    Chain (threadBlocks region.first region.stride index (free, memory)).2
        (threadBlocks region.first region.stride index (free, memory)).1 ((range index ++ indices).map region.block) ∧
      ∀ a, a < region.first ∨ region.last ≤ a →
        (threadBlocks region.first region.stride index (free, memory)).2 a = memory a := by
  induction index generalizing free memory indices with
  | zero => exact ⟨chain, fun _ _ => rfl⟩
  | succ index ih =>
    have high := Region.block_le bound
    have small := usable.small
    have wide := usable.wide
    have node : (region.first + index * region.stride) % 2 ^ 64 = region.block index := by
      rw [mod_eq_of_lt]
      · rfl
      · unfold Region.block at high
        omega
    have apart : ∀ node ∈ indices.map region.block, region.block index + 8 ≤ node ∨ node + 8 ≤ region.block index := by
      intro node mem
      obtain ⟨j, isLater, rfl⟩ := mem_map.mp mem
      have := region.block_apart (later j isLater).1
      exact .inl (by omega)
    have nonnull : region.block index ≠ 0 := by
      have := usable.positive
      have : region.first ≤ region.block index := Region.first_le_block
      omega
    have freeSmall : free < 2 ^ 64 := by
      apply chain.small (by decide)
      intro node mem
      obtain ⟨j, isLater, rfl⟩ := mem_map.mp mem
      have := Region.block_le (later j isLater).2
      omega
    have pushed := chain.push nonnull freeSmall apart
    have later' : ∀ i ∈ index :: indices, index ≤ i ∧ i < region.count := by
      intro i mem
      rcases mem_cons.mp mem with rfl | mem
      · exact ⟨le_refl _, bound⟩
      · exact ⟨le_of_lt (later i mem).1, (later i mem).2⟩
    obtain ⟨chained, outside⟩ := ih (le_of_lt bound) pushed later'
    unfold threadBlocks
    rw [node]
    refine ⟨?_, ?_⟩
    · rw [range_succ, append_assoc]
      exact chained
    · intro a isOutside
      rw [outside a isOutside]
      have low : region.first ≤ region.block index := Region.first_le_block
      exact store_outside (by omega)

theorem threadBlocks_threaded (usable : region.Usable) :
    SizeClass.Threaded (threadBlocks region.first region.stride region.count (0, memory)).2 { region with
        free := (threadBlocks region.first region.stride region.count (0, memory)).1
        available := region.count
        allocated := fun _ => false } := by
  have empty : Chain memory 0 (([] : List Nat).map region.block) := rfl
  obtain ⟨chain, -⟩ := threadBlocks_spec usable region.count (le_refl _) empty (by simp)
  rw [append_nil] at chain
  refine ⟨range region.count, chain, nodup_range, ?_, ?_⟩
  · intro i
    simp
  · simp

theorem threadBlocks_outside (usable : region.Usable) {a : Nat} (outside : a < region.first ∨ region.last ≤ a) :
    (threadBlocks region.first region.stride region.count (0, memory)).2 a = memory a := by
  have empty : Chain memory 0 (([] : List Nat).map region.block) := rfl
  exact (threadBlocks_spec usable region.count (le_refl _) empty (by simp)).2 a outside

end

end NginBase.Memory
