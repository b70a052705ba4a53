import NginBase.Library.Words

namespace NginBase.Memory

open Library Nat

/-- `sizeof(T)` and the binary logarithm of `alignof(T)`. -/
structure ElementType where
  size : Nat
  exponent : Nat
  positive : 0 < size
  small : size < 2 ^ 64
  whole : 2 ^ exponent ∣ size

def ElementType.alignment (T : ElementType) : Nat := 2 ^ T.exponent

structure ArrayHeader where
  rawBase : Nat
  rawSizeInBytes : Nat
  rawAlignmentInBytes : Nat
  count : Nat
  magic : Nat

namespace ArrayHeader

def size : Nat := 40

def alignment : Nat := 8

def magicNumber : Nat := 0xA11A0C42

end ArrayHeader

/-- What `AllocateArrayUninitialized` returns, with the header that it has written and where. -/
structure ArrayBlock where
  elements : Nat
  headerAddress : Nat
  header : ArrayHeader

section

variable {m : Type → Type} [Monad m] (words : Products 64 m) (T : ElementType) (allocate : Nat → Nat → Option Nat) (count : Nat)

/-- `none` stands for `std::bad_alloc`, and `some none` for the null pointer. -/
def allocateArrayUninitialized : m (Option (Option ArrayBlock)) :=
  if count = 0 then pure (some none)
  else if (2 ^ 64 - 1) / T.size < count then pure none
  else do
    let bytesForElems ← words.mul count T.size
    let mask ← words.sub T.alignment 1
    let beforeHeader ← words.sub (2 ^ 64 - 1) ArrayHeader.size
    let room ← words.sub beforeHeader mask
    if room < bytesForElems then pure none
    else do
      let withHeader ← words.add bytesForElems ArrayHeader.size
      let rawSizeInBytes ← words.add withHeader mask
      match allocate rawSizeInBytes T.alignment with
      | none => pure none
      | some raw => do
        let afterHeader ← words.add raw ArrayHeader.size
        let alignedAddr ← words.alignUp afterHeader mask
        let headerAddress ← words.sub alignedAddr ArrayHeader.size
        pure (some (some { elements := alignedAddr, headerAddress, header :=
          { rawBase := raw, rawSizeInBytes, rawAlignmentInBytes := T.alignment, count, magic := ArrayHeader.magicNumber } }))

/-- An allocator returns aligned blocks that end in the address space. -/
def Grants (allocate : Nat → Nat → Option Nat) : Prop :=
  ∀ size alignment raw, allocate size alignment = some raw → alignment ∣ raw ∧ raw + size < 2 ^ 64

/-- Where `AllocateArrayUninitialized` puts the elements when nothing is too large. -/
def arrayBlock : Option ArrayBlock :=
  let rawSizeInBytes := count * T.size + ArrayHeader.size + (T.alignment - 1)
  (allocate rawSizeInBytes T.alignment).map fun raw =>
    let alignedAddr := alignedUp (raw + ArrayHeader.size) T.alignment
    { elements := alignedAddr, headerAddress := alignedAddr - ArrayHeader.size, header :=
      { rawBase := raw, rawSizeInBytes, rawAlignmentInBytes := T.alignment, count, magic := ArrayHeader.magicNumber } }

def ArrayFits : Prop := count * T.size + ArrayHeader.size + (T.alignment - 1) < 2 ^ 64

instance : Decidable (ArrayFits T count) := inferInstanceAs (Decidable (_ < _))

variable {T allocate count}

theorem ElementType.exponent_lt (T : ElementType) : T.exponent < 64 := by
  have le := Nat.le_of_dvd T.positive T.whole
  exact (Nat.pow_lt_pow_iff_right (by decide)).mp (le.trans_lt T.small)

theorem allocateArrayUninitialized_eq [LawfulMonad m] (grants : Grants allocate) (some_ : count ≠ 0) :
    allocateArrayUninitialized words T allocate count =
      pure (if ArrayFits T count then (arrayBlock T allocate count).map some else none) := by
  have exponent := T.exponent_lt
  have positive := T.positive
  have small : 2 ^ T.exponent ≤ 2 ^ 63 := Nat.pow_le_pow_right (by decide) (by omega)
  have one_le : 1 ≤ 2 ^ T.exponent := Nat.one_le_two_pow
  unfold allocateArrayUninitialized
  rw [if_neg some_]
  split
  case isTrue many =>
    have above : ¬ArrayFits T count := by
      have wraps := (Nat.div_lt_iff_lt_mul positive).mp many
      unfold ArrayFits
      omega
    rw [if_neg above]
  case isFalse few =>
    have bytes : count * T.size < 2 ^ 64 := by
      have le := (Nat.le_div_iff_mul_le positive).mp (Nat.not_lt.mp few)
      omega
    unfold ElementType.alignment
    rw [words.mul_eq bytes, pure_bind, words.sub_eq one_le (by omega), pure_bind, words.sub_eq (by decide) (by decide), pure_bind,
      words.sub_eq (by unfold ArrayHeader.size; omega) (by decide), pure_bind]
    split
    case isTrue wraps =>
      have above : ¬ArrayFits T count := by
        unfold ArrayFits ElementType.alignment
        unfold ArrayHeader.size at *
        omega
      rw [if_neg above]
    case isFalse under =>
      have fits : ArrayFits T count := by
        unfold ArrayFits ElementType.alignment
        unfold ArrayHeader.size at *
        omega
      rw [if_pos fits]
      unfold ArrayFits ElementType.alignment at fits
      rw [words.add_eq (by omega), pure_bind, words.add_eq fits, pure_bind]
      unfold arrayBlock ElementType.alignment
      cases granted : allocate (count * T.size + ArrayHeader.size + (2 ^ T.exponent - 1)) (2 ^ T.exponent) with
      | none => simp [granted]
      | some raw =>
        have inside := (grants _ _ _ granted).2
        have behind := le_alignedUp (x := raw + ArrayHeader.size) one_le
        have before := alignedUp_le (raw + ArrayHeader.size) (2 ^ T.exponent)
        dsimp only
        rw [words.add_eq (by omega), pure_bind, words.alignUp_eq (by omega) (by omega), pure_bind,
          words.sub_eq (by omega) (by omega), pure_bind]
        simp [granted]

/-- The header is in the raw block before the elements and aligned, and so are the elements. -/
structure ArrayBlock.WellPlaced (T : ElementType) (block : ArrayBlock) : Prop where
  header_inside : block.header.rawBase ≤ block.headerAddress ∧ block.headerAddress + ArrayHeader.size ≤ block.elements
  header_aligned : ArrayHeader.alignment ∣ block.headerAddress
  inside : block.elements + block.header.count * T.size ≤ block.header.rawBase + block.header.rawSizeInBytes
  aligned : ∀ i < block.header.count, T.alignment ∣ block.elements + i * T.size

theorem headerAligned_iff {raw k : Nat} (aligned : 2 ^ k ∣ raw) :
    ArrayHeader.alignment ∣ alignedUp (raw + ArrayHeader.size) (2 ^ k) - ArrayHeader.size ↔ ArrayHeader.alignment ∣ raw := by
  have header : ArrayHeader.alignment ∣ ArrayHeader.size := by decide
  have behind := le_alignedUp (x := raw + ArrayHeader.size) (Nat.two_pow_pos k)
  by_cases wide : 3 ≤ k
  · have eight : ArrayHeader.alignment ∣ 2 ^ k := Nat.pow_dvd_pow 2 wide
    have up : ArrayHeader.alignment ∣ alignedUp (raw + ArrayHeader.size) (2 ^ k) := Nat.dvd_trans eight (dvd_alignedUp _ _)
    exact iff_of_true (Nat.dvd_sub up header) (Nat.dvd_trans eight aligned)
  · have narrow : 2 ^ k ∣ ArrayHeader.size := Nat.dvd_trans (Nat.pow_dvd_pow 2 (show k ≤ 3 by omega)) header
    rw [alignedUp_self (Nat.two_pow_pos k) (Nat.dvd_add aligned narrow), Nat.add_sub_cancel]

/-- The array has its place, without an overflow, whenever the raw address is aligned for the header. -/
theorem arrays_wellPlaced_iff {block : ArrayBlock} (grants : Grants allocate)
    (allocated : (allocateArrayUninitialized (.wrapping 64) T allocate count).run = some (some block)) :
    allocateArrayUninitialized (.checked 64) T allocate count = some (some (some block)) ∧
      (block.WellPlaced T ↔ ArrayHeader.alignment ∣ block.header.rawBase) := by
  have some_ : count ≠ 0 := by
    rintro rfl
    cases allocated
  rw [allocateArrayUninitialized_eq _ grants some_] at allocated ⊢
  split at allocated
  case isFalse => cases allocated
  case isTrue fits =>
    obtain ⟨_, placed, same⟩ := Option.map_eq_some_iff.mp allocated
    obtain rfl := Option.some.inj same
    rw [if_pos fits, placed]
    refine ⟨rfl, ?_⟩
    obtain ⟨raw, granted, rfl⟩ := Option.map_eq_some_iff.mp placed
    obtain ⟨aligned, inside⟩ := grants _ _ _ granted
    have positive := Nat.two_pow_pos T.exponent
    have behind := le_alignedUp (x := raw + ArrayHeader.size) positive
    have before := alignedUp_le (raw + ArrayHeader.size) T.alignment
    have header := headerAligned_iff aligned
    refine ⟨fun placed => header.mp placed.header_aligned, fun eight => ⟨?_, header.mpr eight, ?_, ?_⟩⟩
    · unfold ElementType.alignment at *
      dsimp only
      omega
    · dsimp only
      omega
    · intro i _
      exact Nat.dvd_add (dvd_alignedUp _ _) (Nat.dvd_trans T.whole (Nat.dvd_mul_left _ _))

def character : ElementType where
  size := 1
  exponent := 0
  positive := by decide
  small := by decide
  whole := by decide

/-- An allocator with one block, at an address that is good enough for characters. -/
def oddBlock : Nat → Nat → Option Nat := fun size alignment => if size = 43 ∧ alignment = 1 then some 0x1001 else none

theorem oddBlock_grants : Grants oddBlock := by
  intro size alignment raw granted
  unfold oddBlock at granted
  split at granted
  · rename_i asked
    obtain ⟨rfl, rfl⟩ := asked
    cases granted
    decide
  · cases granted

def oddArray : ArrayBlock where
  elements := 0x1029
  headerAddress := 0x1001
  header := { rawBase := 0x1001, rawSizeInBytes := 43, rawAlignmentInBytes := 1, count := 3, magic := ArrayHeader.magicNumber }

theorem arrays_wellPlaced_characters : oddArray.WellPlaced character ↔ ArrayHeader.alignment ∣ 0x1001 :=
  (@arrays_wellPlaced_iff character oddBlock 3 oddArray oddBlock_grants rfl).2

theorem arrays_misplaced : ¬∀ (T : ElementType) (allocate : Nat → Nat → Option Nat) (count : Nat) (block : ArrayBlock), Grants allocate →
    (allocateArrayUninitialized (.wrapping 64) T allocate count).run = some (some block) → block.WellPlaced T := by
  intro all
  have placed := all character oddBlock 3 oddArray oddBlock_grants rfl
  exact absurd placed.header_aligned (by decide)

end

end NginBase.Memory
