import Mathlib

namespace Library

open List

/-! Blocks of memory. An access outside a block is undefined. -/
namespace Block

variable {α : Type}

def read (block : List α) (offset count : Nat) : Option (List α) :=
  if offset + count ≤ block.length then some ((block.drop offset).take count) else none

def write (block : List α) (offset : Nat) (units : List α) : Option (List α) :=
  if offset + units.length ≤ block.length then
    some (block.take offset ++ units ++ block.drop (offset + units.length))
  else none

def move (block : List α) (destination source count : Nat) : Option (List α) :=
  (read block source count).bind (write block destination)

def Separate (destination source count : Nat) : Prop :=
  destination = source ∨ destination + count ≤ source ∨ source + count ≤ destination

instance (destination source count : Nat) : Decidable (Separate destination source count) :=
  inferInstanceAs (Decidable (_ ∨ _ ∨ _))

variable {block : List α} {offset : Nat}

theorem read_eq {count : Nat} (inside : offset + count ≤ block.length) :
    read block offset count = some ((block.drop offset).take count) := if_pos inside

variable {units : List α}

theorem write_eq (inside : offset + units.length ≤ block.length) :
    write block offset units = some (block.take offset ++ units ++ block.drop (offset + units.length)) := if_pos inside

theorem write_append {before old after : List α} (same : old.length = units.length) :
    write (before ++ old ++ after) before.length units = some (before ++ units ++ after) := by
  rw [write_eq (by simp only [length_append]; omega), ← same]
  congr 1
  rw [append_assoc before old, take_left, ← append_assoc before old, ← length_append, drop_left]

theorem write_next {written after : List α} (room : units.length ≤ after.length) :
    ∃ rest, write (written ++ after) written.length units = some (written ++ units ++ rest) ∧
      units.length + rest.length = after.length := by
  refine ⟨after.drop units.length, ?_, ?_⟩
  · have split : written ++ after = written ++ after.take units.length ++ after.drop units.length := by simp
    rw [split]
    apply write_append
    rw [length_take]
    omega
  · rw [length_drop]
    omega

theorem read_append (before middle after : List α) :
    read (before ++ middle ++ after) before.length middle.length = some middle := by
  rw [read_eq (by simp only [length_append]; omega), append_assoc, drop_left, take_left]

theorem length_write {block' : List α} (written : write block offset units = some block') :
    block'.length = block.length := by
  unfold write at written
  split at written
  · cases written
    simp only [length_append, length_take, length_drop]
    omega
  · cases written

theorem read_written {block' : List α} (written : write block offset units = some block') :
    read block' offset units.length = some units := by
  have length := length_write written
  unfold write at written
  split at written
  · cases written
    rw [read_eq (by omega), append_assoc]
    have start : (block.take offset).length = offset := length_take_of_le (by omega)
    rw [drop_left' start, take_left]
  · cases written

theorem read_part {first rest : List α} (whole : read block offset (first ++ rest).length = some (first ++ rest)) :
    read block offset first.length = some first := by
  unfold read at whole
  split at whole
  · rename_i inside
    rw [length_append] at inside whole
    have same := Option.some.inj whole
    rw [read_eq (by omega)]
    congr 1
    have taken := congrArg (take first.length) same
    rw [take_take, Nat.min_eq_left (Nat.le_add_right _ _), take_left] at taken
    exact taken
  · cases whole

theorem read_before {block' : List α} {count place : Nat} (written : write block place units = some block')
    (before : offset + count ≤ place) : read block' offset count = read block offset count := by
  have length := length_write written
  unfold write at written
  split at written
  · cases written
    rw [read_eq (by omega), read_eq (by omega), append_assoc]
    have start : (block.take place).length = place := length_take_of_le (by omega)
    rw [drop_append_of_le_length (by omega), take_append_of_le_length (by rw [length_drop]; omega),
      drop_take, take_take, Nat.min_eq_left (by omega)]
  · cases written

end Block

/-! A flat memory of bytes, pointers of eight bytes, and lists threaded through it. -/

abbrev ByteMemory := Nat → UInt8

namespace ByteMemory

variable {memory memory' : ByteMemory} {a b value : Nat}

def load (memory : ByteMemory) (a : Nat) : Nat :=
  (memory a).toNat + 2 ^ 8 * (memory (a + 1)).toNat + 2 ^ 16 * (memory (a + 2)).toNat + 2 ^ 24 * (memory (a + 3)).toNat +
    2 ^ 32 * (memory (a + 4)).toNat + 2 ^ 40 * (memory (a + 5)).toNat + 2 ^ 48 * (memory (a + 6)).toNat +
    2 ^ 56 * (memory (a + 7)).toNat

def store (memory : ByteMemory) (a value : Nat) : ByteMemory := fun b =>
  if a ≤ b ∧ b < a + 8 then (value / 2 ^ (8 * (b - a))).toUInt8 else memory b

theorem store_outside (outside : b < a ∨ a + 8 ≤ b) : store memory a value b = memory b :=
  if_neg (by omega)

theorem store_inside (i : Nat) (inside : i < 8) : store memory a value (a + i) = (value / 2 ^ (8 * i)).toUInt8 := by
  unfold store
  rw [if_pos (by omega), Nat.add_sub_cancel_left]

theorem load_store (small : value < 2 ^ 64) : load (store memory a value) a = value := by
  have bytes : ∀ i, i < 8 → (store memory a value (a + i)).toNat = value / 2 ^ (8 * i) % 2 ^ 8 := by
    intro i inside
    rw [store_inside i inside]
    rfl
  have first := bytes 0 (by decide)
  rw [Nat.add_zero] at first
  unfold load
  rw [first, bytes 1 (by decide), bytes 2 (by decide), bytes 3 (by decide), bytes 4 (by decide), bytes 5 (by decide),
    bytes 6 (by decide), bytes 7 (by decide)]
  omega

theorem load_congr (same : ∀ i, i < 8 → memory' (a + i) = memory (a + i)) : load memory' a = load memory a := by
  have first := same 0 (by decide)
  rw [Nat.add_zero] at first
  unfold load
  rw [first, same 1 (by decide), same 2 (by decide), same 3 (by decide), same 4 (by decide), same 5 (by decide),
    same 6 (by decide), same 7 (by decide)]

theorem load_store_apart (apart : a + 8 ≤ b ∨ b + 8 ≤ a) : load (store memory a value) b = load memory b := by
  apply load_congr
  intro i inside
  exact store_outside (by omega)

def Chain (memory : ByteMemory) : Nat → List Nat → Prop
  | a, [] => a = 0
  | a, node :: rest => a = node ∧ a ≠ 0 ∧ Chain memory (load memory a) rest

variable {nodes : List Nat}

section

variable (chain : Chain memory a nodes)

include chain

theorem Chain.frame (same : ∀ node ∈ nodes, load memory' node = load memory node) : Chain memory' a nodes := by
  induction nodes generalizing a with
  | nil => exact chain
  | cons node rest ih =>
    obtain ⟨rfl, some_, chain⟩ := chain
    rw [← same a mem_cons_self] at chain
    exact ⟨rfl, some_, ih chain fun node mem => same node (mem_cons_of_mem _ mem)⟩

theorem Chain.uncons (some_ : a ≠ 0) : ∃ rest, nodes = a :: rest ∧ Chain memory (load memory a) rest := by
  cases nodes with
  | nil => exact absurd chain some_
  | cons node rest =>
    obtain ⟨rfl, -, chain⟩ := chain
    exact ⟨rest, rfl, chain⟩

theorem Chain.push (some_ : b ≠ 0) (small : a < 2 ^ 64) (apart : ∀ node ∈ nodes, b + 8 ≤ node ∨ node + 8 ≤ b) :
    Chain (store memory b a) b (b :: nodes) := by
  refine ⟨rfl, some_, ?_⟩
  rw [load_store small]
  apply chain.frame
  intro node mem
  exact load_store_apart (apart node mem)

theorem Chain.small {bound : Nat} (positive : 0 < bound) (inside : ∀ node ∈ nodes, node < bound) : a < bound := by
  cases nodes with
  | nil =>
    obtain rfl : a = 0 := chain
    exact positive
  | cons node rest =>
    obtain ⟨rfl, -, -⟩ := chain
    exact inside a mem_cons_self

end

end ByteMemory

end Library
