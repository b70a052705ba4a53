import NginBase.Library.Block

namespace NginBase.Memory

open Library

/-- The loop that makes a free list of blocks, from the last one to the first. A pointer holds a number below `2 ^ 64`,
    and 0 is null. -/
def threadBlocks (first stride : Nat) : Nat → Nat × ByteMemory → Nat × ByteMemory
  | 0, threaded => threaded
  | index + 1, (free, memory) =>
    let node := (first + index * stride) % 2 ^ 64
    threadBlocks first stride index (node, memory.store node free)

/-- The template arguments, as the static assertions admit them. -/
structure FixedBlockConfig where
  blockSize : Nat
  blockCount : Nat
  alignment : Nat
  blockSize_pos : 0 < blockSize
  blockSize_lt : blockSize < 2 ^ 64
  blockCount_pos : 0 < blockCount
  blockCount_lt : blockCount < 2 ^ 64
  alignment_power : alignment &&& (alignment - 1) = 0
  alignment_node : 8 ≤ alignment
  alignment_lt : alignment < 2 ^ 64

namespace FixedBlockConfig

variable (config : FixedBlockConfig)

def payloadSize : Nat := max config.blockSize 8

def stride : Nat := ((config.payloadSize + config.alignment - 1) % 2 ^ 64) &&& (2 ^ 64 - 1 - (config.alignment - 1))

def slabSize : Nat := config.stride * config.blockCount % 2 ^ 64

end FixedBlockConfig

structure FixedBlockAllocator where
  base : Nat := 0
  free : Nat := 0
  available : Nat := 0
  invalidDeallocations : Nat := 0
  allocated : Nat → Bool := fun _ => false

namespace FixedBlockAllocator

variable (config : FixedBlockConfig)

def construct (base : Nat) (memory : ByteMemory) : FixedBlockAllocator × ByteMemory :=
  if base ≠ 0 then
    let (free, memory) := threadBlocks base config.stride config.blockCount (0, memory)
    ({ base, free, available := config.blockCount }, memory)
  else ({}, memory)

def allocate (bytes alignment : Nat) (pool : FixedBlockAllocator) (memory : ByteMemory) : Nat × FixedBlockAllocator :=
  if bytes = 0 ∨ bytes > config.blockSize ∨ alignment = 0 ∨ alignment > config.alignment ∨
      alignment &&& (alignment - 1) ≠ 0 ∨ pool.free = 0 then (0, pool)
  else
    let node := pool.free
    let index := (node + 2 ^ 64 - pool.base) % 2 ^ 64 / config.stride
    (node, { pool with
      free := memory.load node
      allocated := Function.update pool.allocated index true
      available := pool.available - 1 })

def owns (pool : FixedBlockAllocator) (pointer : Nat) : Bool :=
  pool.base ≠ 0 && pointer ≠ 0 && pool.base ≤ pointer && pointer < (pool.base + config.slabSize) % 2 ^ 64

def isBlockStart (pool : FixedBlockAllocator) (pointer : Nat) : Bool :=
  pool.owns config pointer && (pointer - pool.base) % config.stride = 0

def countInvalid (pool : FixedBlockAllocator) : FixedBlockAllocator :=
  { pool with invalidDeallocations := pool.invalidDeallocations + 1 }

def deallocate (pointer : Nat) (pool : FixedBlockAllocator) (memory : ByteMemory) : FixedBlockAllocator × ByteMemory :=
  if pointer = 0 then (pool, memory)
  else if ¬pool.isBlockStart config pointer then (pool.countInvalid, memory)
  else
    let index := (pointer - pool.base) / config.stride
    if ¬pool.allocated index then (pool.countInvalid, memory)
    else
      ({ pool with
          free := pointer
          available := pool.available + 1
          allocated := Function.update pool.allocated index false },
        memory.store pointer pool.free)

/-- The slab that is given back to the upstream allocator, and what is left. -/
def release (pool : FixedBlockAllocator) : Option Nat × FixedBlockAllocator :=
  (if pool.base ≠ 0 then some pool.base else none, { pool with base := 0, free := 0, available := 0 })

def moveConstruct (other : FixedBlockAllocator) : FixedBlockAllocator × FixedBlockAllocator := (other, {})

/-- The slab that the target gives back, and the target and the source. They are different objects. -/
def moveAssign (this other : FixedBlockAllocator) : Option Nat × FixedBlockAllocator × FixedBlockAllocator :=
  (this.release.1, other.moveConstruct)

end FixedBlockAllocator

structure ClassState where
  blockSize : Nat := 0
  offset : Nat := 0
  free : Nat := 0
  available : Nat := 0
  allocated : Nat → Bool := fun _ => false

structure SegregatedPoolAllocator where
  base : Nat := 0
  classes : List ClassState := List.replicate 6 {}
  invalidDeallocations : Nat := 0

namespace SegregatedPoolAllocator

def alignment : Nat := 16

def sizes : List Nat := [16, 32, 64, 128, 256, 512]

variable (blocksPerClass : Nat)

def computeSlabSize : Nat := sizes.foldl (fun size blockSize => (size + blockSize * blocksPerClass) % 2 ^ 64) 0

def initializeClasses (base : Nat) : List Nat → Nat → ByteMemory → List ClassState × ByteMemory
  | [], _, memory => ([], memory)
  | blockSize :: rest, offset, memory =>
    let (free, memory) := threadBlocks ((base + offset) % 2 ^ 64) blockSize blocksPerClass (0, memory)
    let (states, memory) := initializeClasses base rest ((offset + blockSize * blocksPerClass) % 2 ^ 64) memory
    ({ blockSize, offset, free, available := blocksPerClass } :: states, memory)

def construct (base : Nat) (memory : ByteMemory) : SegregatedPoolAllocator × ByteMemory :=
  if base ≠ 0 then
    let (classes, memory) := initializeClasses blocksPerClass base sizes 0 memory
    ({ base, classes }, memory)
  else ({}, memory)

def locate (wanted : ClassState → Bool) : List ClassState → Option (List ClassState × ClassState × List ClassState)
  | [] => none
  | state :: rest =>
    if wanted state then some ([], state, rest)
    else (locate wanted rest).map fun (before, found, after) => (state :: before, found, after)

def allocate (bytes alignment : Nat) (pool : SegregatedPoolAllocator) (memory : ByteMemory) :
    Nat × SegregatedPoolAllocator :=
  if bytes = 0 ∨ alignment = 0 ∨ alignment > SegregatedPoolAllocator.alignment ∨ alignment &&& (alignment - 1) ≠ 0 then
    (0, pool)
  else
    match locate (fun state => ¬bytes > state.blockSize ∧ state.free ≠ 0) pool.classes with
    | none => (0, pool)
    | some (before, state, after) =>
      let node := state.free
      let index := (node + 2 ^ 64 - (pool.base + state.offset) % 2 ^ 64) % 2 ^ 64 / state.blockSize
      let popped := { state with
        free := memory.load node
        allocated := Function.update state.allocated index true
        available := state.available - 1 }
      (node, { pool with classes := before ++ popped :: after })

def startsIn (base pointer : Nat) (state : ClassState) : Bool :=
  let first := (base + state.offset) % 2 ^ 64
  first ≤ pointer && pointer < (first + state.blockSize * blocksPerClass) % 2 ^ 64 && (pointer - first) % state.blockSize = 0

def classForPointer (pool : SegregatedPoolAllocator) (pointer : Nat) :
    Option (List ClassState × ClassState × List ClassState) :=
  if pool.base = 0 ∨ pointer = 0 then none
  else locate (startsIn blocksPerClass pool.base pointer) pool.classes

def countInvalid (pool : SegregatedPoolAllocator) : SegregatedPoolAllocator :=
  { pool with invalidDeallocations := pool.invalidDeallocations + 1 }

def deallocate (pointer : Nat) (pool : SegregatedPoolAllocator) (memory : ByteMemory) :
    SegregatedPoolAllocator × ByteMemory :=
  if pointer = 0 then (pool, memory)
  else
    match pool.classForPointer blocksPerClass pointer with
    | none => (pool.countInvalid, memory)
    | some (before, state, after) =>
      let index := (pointer - (pool.base + state.offset) % 2 ^ 64) / state.blockSize
      if ¬state.allocated index then (pool.countInvalid, memory)
      else
        let pushed := { state with
          free := pointer
          available := state.available + 1
          allocated := Function.update state.allocated index false }
        ({ pool with classes := before ++ pushed :: after }, memory.store pointer state.free)

/-- The slab that is given back to the upstream allocator, and what is left. -/
def release (pool : SegregatedPoolAllocator) : Option Nat × SegregatedPoolAllocator :=
  (if pool.base ≠ 0 then some pool.base else none, { pool with base := 0, classes := List.replicate 6 {} })

/-- The target and the source after a move construction. Moving an array of class states copies it. -/
def moveConstruct (other : SegregatedPoolAllocator) : SegregatedPoolAllocator × SegregatedPoolAllocator :=
  (other, { other with base := 0, invalidDeallocations := 0 })

/-- The slab that the target gives back, and the target and the source. They are different objects. -/
def moveAssign (this other : SegregatedPoolAllocator) : Option Nat × SegregatedPoolAllocator × SegregatedPoolAllocator :=
  (this.release.1, other.moveConstruct)

end SegregatedPoolAllocator

end NginBase.Memory
