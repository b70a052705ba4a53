import NginBase.Library.Words

namespace NginBase.Memory

open Library List Nat

/-- An address is a number below `2 ^ 64`, and 0 is null. -/
structure LinearAllocator where
  base : Nat
  current : Nat
  capacity : Nat

/-- `std::align`: the first aligned address at which the storage fits into the buffer. -/
def stdAlign (alignment size pointer space : Nat) : Option Nat :=
  let first := (pointer + alignment - 1) / alignment * alignment
  if first + size ≤ pointer + space then some first else none

namespace LinearAllocator

section

variable {m : Type → Type} [Monad m] (words : Arithmetic 64 m)

def construct (capacity base : Nat) : LinearAllocator where
  base := base
  current := base
  capacity := if base ≠ 0 then capacity else 0

def maxAlign : Nat := 16

def isPowerOfTwo (value : Nat) : m Bool :=
  if value = 0 then pure false
  else do
    let below ← words.sub value 1
    pure (value &&& below == 0)

def roundUp (alignment : Nat) : m Nat := do
  let a ← words.sub alignment 1
  let a := a ||| a >>> 1
  let a := a ||| a >>> 2
  let a := a ||| a >>> 4
  let a := a ||| a >>> 8
  let a := a ||| a >>> 16
  let a := a ||| a >>> 32
  words.add a 1

def normalizeAlignment (alignment : Nat) : m Nat := do
  let alignment := if alignment = 0 then 1 else alignment
  let power ← isPowerOfTwo words alignment
  let alignment ← if !power then roundUp words alignment else pure alignment
  pure (if alignment < maxAlign then maxAlign else alignment)

def used (arena : LinearAllocator) : m Nat := words.sub arena.current arena.base

def remaining (arena : LinearAllocator) : m Nat := do
  let used ← arena.used words
  words.sub arena.capacity used

def allocate (size alignment : Nat) (arena : LinearAllocator) : m (Nat × LinearAllocator) :=
  if size = 0 ∨ arena.base = 0 then pure (0, arena)
  else do
    let normalized ← normalizeAlignment words alignment
    let space ← arena.remaining words
    match stdAlign normalized size arena.current space with
    | none => pure (0, arena)
    | some pointer => do
      let current ← words.add pointer size
      pure (pointer, { arena with current })

def reset (arena : LinearAllocator) : LinearAllocator := { arena with current := arena.base }

def mark (arena : LinearAllocator) : Nat := arena.current

def rollback (marker : Nat) (arena : LinearAllocator) : m LinearAllocator :=
  if arena.base ≤ marker then do
    let end_ ← words.add arena.base arena.capacity
    pure (if marker ≤ end_ then { arena with current := marker } else arena)
  else pure arena

end

section

variable {m : Type → Type} [Monad m] [LawfulMonad m] (words : Arithmetic 64 m) {alignment : Nat}

def exponent (alignment : Nat) : Nat := max 4 (clog 2 alignment)

theorem isPowerOfTwo_eq (some_ : alignment ≠ 0) (lt : alignment < 2 ^ 64) :
    isPowerOfTwo words alignment = pure (decide alignment.isPowerOfTwo) := by
  have power := and_sub_one_eq_zero_iff_isPowerOfTwo some_
  unfold isPowerOfTwo
  rw [if_neg some_, words.sub_eq (one_le_iff_ne_zero.mpr some_) lt, pure_bind, ← decide_eq_decide.mpr power]
  rfl

theorem roundUp_eq (some_ : alignment ≠ 0) (le : alignment ≤ 2 ^ 63) :
    roundUp words alignment = pure (2 ^ Nat.clog 2 alignment) := by
  have pos : 1 ≤ alignment := one_le_iff_ne_zero.mpr some_
  have exponent_ : clog 2 alignment ≤ 63 := (clog_le_iff_le_pow (by decide)).mpr le
  have least : 2 ^ Nat.clog 2 alignment ≤ 2 ^ 63 := Nat.pow_le_pow_right (by decide) exponent_
  have spread := ((((((spread_self (alignment - 1)).double).double).double).double).double).double
  have ones := spread.ones (by omega)
  rw [size_pred pos] at ones
  unfold roundUp
  rw [words.sub_eq pos (by omega), pure_bind]
  dsimp only at ones ⊢
  rw [ones, words.add_eq (by omega), Nat.sub_add_cancel Nat.one_le_two_pow]

theorem normalizeAlignment_eq (le : alignment ≤ 2 ^ 63) : normalizeAlignment words alignment = pure (2 ^ exponent alignment) := by
  have clamp : ∀ k, (if 2 ^ k < maxAlign then maxAlign else 2 ^ k) = 2 ^ max 4 k := by
    intro k
    by_cases small : k < 4
    · rw [max_eq_left (by omega), if_pos]
      · rfl
      · exact Nat.pow_lt_pow_right (by decide) small
    · rw [max_eq_right (by omega), if_neg]
      have least : 2 ^ 4 ≤ 2 ^ k := Nat.pow_le_pow_right Nat.zero_lt_two (Nat.not_lt.mp small)
      exact not_lt.mpr least
  have same : clog 2 (if alignment = 0 then 1 else alignment) = clog 2 alignment := by
    split <;> simp_all
  have some_ : (if alignment = 0 then 1 else alignment) ≠ 0 := by
    split <;> omega
  have le' : (if alignment = 0 then 1 else alignment) ≤ 2 ^ 63 := by
    split <;> omega
  unfold normalizeAlignment exponent
  rw [← same]
  generalize (if alignment = 0 then 1 else alignment) = wanted at some_ le'
  dsimp only
  rw [isPowerOfTwo_eq words some_ (by omega), pure_bind]
  by_cases power : wanted.isPowerOfTwo
  · obtain ⟨k, rfl⟩ := power
    have power : (2 ^ k).isPowerOfTwo := ⟨k, rfl⟩
    simp only [power, decide_true, Bool.not_true, Bool.false_eq_true, if_false, pure_bind]
    rw [clamp, clog_pow 2 k (by decide)]
  · simp only [power, decide_false, Bool.not_false, if_true]
    rw [roundUp_eq words some_ le', pure_bind, clamp]

theorem le_exponent (alignment : Nat) : alignment ≤ 2 ^ exponent alignment :=
  (Nat.le_pow_clog (by decide) alignment).trans (Nat.pow_le_pow_right (by decide) (Nat.le_max_right _ _))

theorem power_dvd {k : Nat} (is : alignment = 2 ^ k) : alignment ∣ 2 ^ exponent alignment := by
  subst is
  apply Nat.pow_dvd_pow
  rw [exponent, Nat.clog_pow 2 k (by decide)]
  exact le_max_right _ _

theorem stdAlign_some {size pointer space first : Nat} (pos : 0 < alignment)
    (fits : stdAlign alignment size pointer space = some first) :
    alignment ∣ first ∧ pointer ≤ first ∧ first + size ≤ pointer + space := by
  unfold stdAlign at fits
  dsimp only at fits
  split at fits
  · rename_i inside
    cases fits
    refine ⟨Nat.dvd_mul_left _ _, ?_, inside⟩
    have divided := div_add_mod (pointer + alignment - 1) alignment
    have below := mod_lt (pointer + alignment - 1) pos
    rw [Nat.mul_comm] at divided
    omega
  · cases fits

end

section

variable {m : Type → Type} [Monad m] [LawfulMonad m] (words : Arithmetic 64 m) {arena : LinearAllocator} {size alignment : Nat}

/-- The bump pointer is in the slab, and the slab and its end are in the address space. -/
structure Valid (arena : LinearAllocator) : Prop where
  start_le : arena.base ≤ arena.current
  le_end : arena.current ≤ arena.base + arena.capacity
  fits : arena.base + arena.capacity < 2 ^ 64

omit [LawfulMonad m] in
theorem Valid.used_eq (valid : arena.Valid) : arena.used words = pure (arena.current - arena.base) := by
  have start_le := valid.start_le
  have le_end := valid.le_end
  have fits := valid.fits
  exact words.sub_eq start_le (by omega)

theorem Valid.remaining_eq (valid : arena.Valid) :
    arena.remaining words = pure (arena.base + arena.capacity - arena.current) := by
  have start_le := valid.start_le
  have le_end := valid.le_end
  have fits := valid.fits
  unfold remaining
  rw [valid.used_eq, pure_bind, words.sub_eq (by omega) (by omega)]
  congr 1
  omega

def allocated (size alignment : Nat) (arena : LinearAllocator) : Nat × LinearAllocator :=
  if size = 0 ∨ arena.base = 0 then (0, arena)
  else
    match stdAlign (2 ^ exponent alignment) size arena.current (arena.base + arena.capacity - arena.current) with
    | none => (0, arena)
    | some pointer => (pointer, { arena with current := pointer + size })

theorem Valid.allocated_cases (valid : arena.Valid) (size alignment : Nat) :
    arena.allocated size alignment = (0, arena) ∨
      ∃ pointer, arena.allocated size alignment = (pointer, { arena with current := pointer + size }) ∧
        pointer ≠ 0 ∧ 2 ^ exponent alignment ∣ pointer ∧ arena.current ≤ pointer ∧
        pointer + size ≤ arena.base + arena.capacity := by
  have start_le := valid.start_le
  unfold allocated
  split
  · exact .inl rfl
  split
  · exact .inl rfl
  rename_i pointer fits
  obtain ⟨aligned, behind, inside⟩ := stdAlign_some (Nat.two_pow_pos _) fits
  refine .inr ⟨pointer, rfl, ?_, aligned, behind, ?_⟩ <;> omega

theorem Valid.allocate_eq (valid : arena.Valid) (size : Nat) (le : alignment ≤ 2 ^ 63) :
    arena.allocate words size alignment = pure (arena.allocated size alignment) := by
  unfold allocate allocated
  split
  · rfl
  rw [normalizeAlignment_eq words le, pure_bind, valid.remaining_eq, pure_bind]
  cases placed : stdAlign (2 ^ exponent alignment) size arena.current (arena.base + arena.capacity - arena.current) with
  | none => rfl
  | some pointer =>
    have fits := valid.fits
    obtain ⟨_, _, inside⟩ := stdAlign_some (Nat.two_pow_pos _) placed
    dsimp only
    rw [words.add_eq (by omega), pure_bind]

theorem Valid.rollback_eq (valid : arena.Valid) (marker : Nat) :
    arena.rollback words marker = pure (if arena.base ≤ marker ∧ marker ≤ arena.base + arena.capacity then
      { arena with current := marker } else arena) := by
  unfold rollback
  by_cases behind : arena.base ≤ marker
  · rw [if_pos behind, words.add_eq valid.fits, pure_bind]
    simp only [behind, true_and]
  · rw [if_neg behind, if_neg (fun both => behind both.1)]

end

structure Block where
  address : Nat
  size : Nat
  alignment : Nat

/-- An arena together with the allocations that are live, from the oldest one, and the markers that may still be rolled
    back to. A marker is kept with the number of allocations that were live when it was taken. -/
structure Run where
  arena : LinearAllocator
  live : List Block := []
  markers : List (Nat × Nat) := []

namespace Run

def start (capacity base : Nat) : Run := { arena := construct capacity base }

def allocate (size alignment : Nat) (run : Run) : Run :=
  let (pointer, arena) := (run.arena.allocate (.wrapping 64) size alignment).run
  { run with arena, live := if pointer = 0 then run.live else run.live ++ [{ address := pointer, size, alignment }] }

inductive Step : Run → Run → Prop
  | allocate (run : Run) (size alignment : Nat) (le : alignment ≤ 2 ^ 63) : Step run (run.allocate size alignment)
  | mark (run : Run) : Step run { run with markers := run.markers ++ [(run.arena.mark, run.live.length)] }
  -- the markers that were taken later are rolled past
  | rollback (run : Run) (earlier later : List (Nat × Nat)) (marker : Nat × Nat)
      (taken : run.markers = earlier ++ marker :: later) :
      Step run {
        arena := (run.arena.rollback (.wrapping 64) marker.1).run
        live := run.live.take marker.2
        markers := earlier ++ [marker] }
  | reset (run : Run) : Step run { arena := run.arena.reset }

/-- What holds of an arena and its live allocations. Arithmetic that fails as soon as a result leaves the 64 bits computes
    the same. -/
structure Sound (run : Run) : Prop where
  aligned : ∀ block ∈ run.live, (normalizeAlignment (.wrapping 64) block.alignment).run ∣ block.address ∧
    block.alignment ≤ (normalizeAlignment (.wrapping 64) block.alignment).run ∧
    ∀ k, block.alignment = 2 ^ k → block.alignment ∣ block.address
  inside : ∀ block ∈ run.live, run.arena.base ≤ block.address ∧
    block.address + block.size ≤ run.arena.base + run.arena.capacity
  disjoint : run.live.Pairwise fun a b => a.address + a.size ≤ b.address
  full : (run.arena.used (.wrapping 64)).run + (run.arena.remaining (.wrapping 64)).run = run.arena.capacity
  failing : ∀ size alignment, alignment ≤ 2 ^ 63 → (run.arena.allocate (.wrapping 64) size alignment).run.1 = 0 →
    run.allocate size alignment = run
  restoring : ∀ marker ∈ run.markers,
    (run.arena.rollback (.wrapping 64) marker.1).run = { run.arena with current := marker.1 }
  exact_used : run.arena.used (.checked 64) = some (run.arena.used (.wrapping 64)).run
  exact_remaining : run.arena.remaining (.checked 64) = some (run.arena.remaining (.wrapping 64)).run
  exact_allocate : ∀ size alignment, alignment ≤ 2 ^ 63 →
    run.arena.allocate (.checked 64) size alignment = some (run.arena.allocate (.wrapping 64) size alignment).run
  exact_rollback : ∀ marker,
    run.arena.rollback (.checked 64) marker = some (run.arena.rollback (.wrapping 64) marker).run

structure Inv (capacity base : Nat) (run : Run) : Prop where
  slab : run.arena.base = base ∧ run.arena.capacity = capacity
  valid : run.arena.Valid
  aligned : ∀ block ∈ run.live, block.alignment ≤ 2 ^ 63 ∧ 2 ^ exponent block.alignment ∣ block.address
  inside : ∀ block ∈ run.live, base ≤ block.address ∧ block.address + block.size ≤ run.arena.current
  disjoint : run.live.Pairwise fun a b => a.address + a.size ≤ b.address
  within : ∀ marker ∈ run.markers, base ≤ marker.1 ∧ marker.1 ≤ run.arena.current ∧ marker.2 ≤ run.live.length
  before : ∀ marker ∈ run.markers, ∀ block ∈ run.live.take marker.2, block.address + block.size ≤ marker.1
  ordered : run.markers.Pairwise fun a b => a.1 ≤ b.1 ∧ a.2 ≤ b.2

variable {capacity base : Nat} {run next : Run}

theorem allocate_eq (valid : run.arena.Valid) (size : Nat) {alignment : Nat} (le : alignment ≤ 2 ^ 63) :
    run.allocate size alignment =
      { run with
        arena := (run.arena.allocated size alignment).2
        live := if (run.arena.allocated size alignment).1 = 0 then run.live
          else run.live ++ [{ address := (run.arena.allocated size alignment).1, size, alignment }] } := by
  unfold allocate
  rw [valid.allocate_eq _ size le]
  rfl

section

variable (inv : Inv capacity base run)

include inv

theorem Inv.allocate (size : Nat) {alignment : Nat} (le : alignment ≤ 2 ^ 63) :
    Inv capacity base (run.allocate size alignment) := by
  rw [allocate_eq inv.valid size le]
  rcases inv.valid.allocated_cases size alignment with same | ⟨pointer, placed, some_, aligned, behind, inside⟩
  · rw [same]
    exact inv
  rw [placed]
  rw [if_neg some_]
  have start_le := inv.valid.start_le
  obtain ⟨base_, capacity_⟩ := inv.slab
  refine ⟨inv.slab, ⟨?_, inside, inv.valid.fits⟩, ?_, ?_, ?_, ?_, ?_, inv.ordered⟩
  · dsimp only
    omega
  · intro block mem
    rcases mem_append.mp mem with mem | mem
    · exact inv.aligned block mem
    · rw [mem_singleton.mp mem]
      exact ⟨le, aligned⟩
  · intro block mem
    rcases mem_append.mp mem with mem | mem
    · obtain ⟨above, below⟩ := inv.inside block mem
      exact ⟨above, by dsimp only; omega⟩
    · rw [mem_singleton.mp mem]
      exact ⟨by dsimp only; omega, le_refl _⟩
  · rw [pairwise_append]
    refine ⟨inv.disjoint, pairwise_singleton _ _, ?_⟩
    intro block mem block' mem'
    rw [mem_singleton.mp mem']
    exact (inv.inside block mem).2.trans behind
  · intro marker mem
    obtain ⟨above, below, counted⟩ := inv.within marker mem
    refine ⟨above, by dsimp only; omega, ?_⟩
    rw [length_append]
    omega
  · intro marker mem
    rw [take_append_of_le_length (inv.within marker mem).2.2]
    exact inv.before marker mem

theorem Inv.mark : Inv capacity base { run with markers := run.markers ++ [(run.arena.mark, run.live.length)] } := by
  refine ⟨inv.slab, inv.valid, inv.aligned, inv.inside, inv.disjoint, ?_, ?_, ?_⟩
  · intro marker mem
    rcases mem_append.mp mem with mem | mem
    · exact inv.within marker mem
    · rw [mem_singleton.mp mem]
      exact ⟨inv.slab.1 ▸ inv.valid.start_le, le_refl _, le_refl _⟩
  · intro marker mem
    rcases mem_append.mp mem with mem | mem
    · exact inv.before marker mem
    · rw [mem_singleton.mp mem, take_length]
      intro block mem
      exact (inv.inside block mem).2
  · rw [pairwise_append]
    refine ⟨inv.ordered, pairwise_singleton _ _, ?_⟩
    intro marker mem marker' mem'
    rw [mem_singleton.mp mem']
    exact (inv.within marker mem).2

theorem Inv.restoring {marker : Nat × Nat} (mem : marker ∈ run.markers) :
    (run.arena.rollback (.wrapping 64) marker.1).run = { run.arena with current := marker.1 } := by
  obtain ⟨above, below, _⟩ := inv.within marker mem
  rw [inv.valid.rollback_eq]
  exact if_pos ⟨inv.slab.1.trans_le above, below.trans inv.valid.le_end⟩

theorem Inv.rollback {earlier later : List (Nat × Nat)} {marker : Nat × Nat}
    (taken : run.markers = earlier ++ marker :: later) :
    Inv capacity base {
      arena := (run.arena.rollback (.wrapping 64) marker.1).run
      live := run.live.take marker.2
      markers := earlier ++ [marker] } := by
  have mem : marker ∈ run.markers := by simp [taken]
  have kept : ∀ other ∈ earlier ++ [marker], other ∈ run.markers ∧ other.1 ≤ marker.1 ∧ other.2 ≤ marker.2 := by
    have ordered := inv.ordered
    rw [taken, pairwise_append] at ordered
    intro other mem'
    rcases mem_append.mp mem' with mem' | mem'
    · exact ⟨by simp [taken, mem'], ordered.2.2 other mem' marker (by simp)⟩
    · rw [mem_singleton.mp mem']
      exact ⟨mem, le_refl _, le_refl _⟩
  obtain ⟨above, below, counted⟩ := inv.within marker mem
  have sublist := take_sublist marker.2 run.live
  rw [inv.restoring mem]
  refine ⟨inv.slab, ⟨inv.slab.1.trans_le above, below.trans inv.valid.le_end, inv.valid.fits⟩, ?_, ?_,
    inv.disjoint.sublist sublist, ?_, ?_, ?_⟩
  · intro block mem'
    exact inv.aligned block (mem_of_mem_take mem')
  · intro block mem'
    exact ⟨(inv.inside block (mem_of_mem_take mem')).1, inv.before marker mem block mem'⟩
  · intro other mem'
    obtain ⟨mem', le, least⟩ := kept other mem'
    refine ⟨(inv.within other mem').1, le, ?_⟩
    rw [length_take]
    omega
  · intro other mem'
    obtain ⟨mem', _, least⟩ := kept other mem'
    rw [take_take, min_eq_left least]
    exact inv.before other mem'
  · have ordered := inv.ordered
    rw [taken, append_cons, pairwise_append] at ordered
    exact ordered.1

theorem Inv.step (step : Step run next) : Inv capacity base next := by
  cases step with
  | allocate size alignment le => exact inv.allocate size le
  | mark => exact inv.mark
  | rollback earlier later marker taken => exact inv.rollback taken
  | reset =>
    exact ⟨inv.slab, ⟨le_refl _, le_add_right _ _, inv.valid.fits⟩, forall_mem_nil _, forall_mem_nil _, .nil,
      forall_mem_nil _, forall_mem_nil _, .nil⟩

theorem Inv.sound : Sound run := by
  have start_le := inv.valid.start_le
  have le_end := inv.valid.le_end
  refine ⟨?_, ?_, inv.disjoint, ?_, ?_, fun marker mem => inv.restoring mem, ?_, ?_, ?_, ?_⟩
  · intro block mem
    obtain ⟨le, aligned⟩ := inv.aligned block mem
    rw [normalizeAlignment_eq _ le]
    exact ⟨aligned, le_exponent _, fun k is => Nat.dvd_trans (power_dvd is) aligned⟩
  · intro block mem
    obtain ⟨above, below⟩ := inv.inside block mem
    exact ⟨inv.slab.1.trans_le above, below.trans le_end⟩
  · rw [inv.valid.used_eq, inv.valid.remaining_eq]
    show run.arena.current - run.arena.base + (run.arena.base + run.arena.capacity - run.arena.current) = _
    omega
  · intro size alignment le none_
    rw [inv.valid.allocate_eq _ size le] at none_
    rw [allocate_eq inv.valid size le]
    rcases inv.valid.allocated_cases size alignment with same | ⟨pointer, placed, some_, _⟩
    · rw [same]
      rfl
    · rw [placed] at none_
      exact absurd none_ some_
  · rw [inv.valid.used_eq, inv.valid.used_eq]
    rfl
  · rw [inv.valid.remaining_eq, inv.valid.remaining_eq]
    rfl
  · intro size alignment le
    rw [inv.valid.allocate_eq _ size le, inv.valid.allocate_eq _ size le]
    rfl
  · intro marker
    rw [inv.valid.rollback_eq, inv.valid.rollback_eq]
    rfl

end

theorem start_inv (slab : base ≠ 0 → base + capacity < 2 ^ 64) :
    Inv (if base ≠ 0 then capacity else 0) base (start capacity base) := by
  refine ⟨⟨rfl, rfl⟩, ⟨le_refl _, le_add_right _ _, ?_⟩, forall_mem_nil _, forall_mem_nil _, .nil,
    forall_mem_nil _, forall_mem_nil _, .nil⟩
  show base + (if base ≠ 0 then capacity else 0) < 2 ^ 64
  split
  · rename_i some_
    exact slab some_
  · omega

/-- Every run on a slab is sound in every state that it reaches. -/
theorem sound_of_reachable (slab : base ≠ 0 → base + capacity < 2 ^ 64)
    (reachable : Relation.ReflTransGen Step (start capacity base) run) :
    run.Sound ∧ run.arena.base = base ∧ run.arena.capacity = if base ≠ 0 then capacity else 0 := by
  have inv : Inv (if base ≠ 0 then capacity else 0) base run := by
    induction reachable with
    | refl => exact start_inv slab
    | tail _ step hyp => exact hyp.step step
  exact ⟨inv.sound, inv.slab⟩

theorem sound_of_reachable_small : ((start 64 8).allocate 20 3).Sound ∧
    ((start 64 8).allocate 20 3).live.map (fun block => (block.address, block.size)) = [(16, 20)] :=
  ⟨(sound_of_reachable (by decide) (.single (.allocate (start 64 8) 20 3 (by decide)))).1, by decide⟩

end Run

end LinearAllocator

end NginBase.Memory
