import Mathlib

namespace Library

open BitVec

variable {w : Nat}

/-- A shift register with feedback: what is shifted out decides whether the polynomial is added. Both the
    shift and the tap are linear over exclusive or. -/
structure Register (w : Nat) where
  shift : BitVec w → BitVec w
  tap : BitVec w → Bool
  polynomial : BitVec w
  shift_xor : ∀ x y, shift (x ^^^ y) = shift x ^^^ shift y
  tap_xor : ∀ x y, tap (x ^^^ y) = (tap x ^^ tap y)

namespace Register

variable (register : Register w)

def step (x : BitVec w) : BitVec w :=
  if register.tap x then register.shift x ^^^ register.polynomial else register.shift x

def steps : Nat → BitVec w → BitVec w
  | 0, x => x
  | n + 1, x => steps n (register.step x)

theorem step_xor (x y : BitVec w) : register.step (x ^^^ y) = register.step x ^^^ register.step y := by
  unfold step
  rw [register.tap_xor, register.shift_xor]
  cases register.tap x <;> cases register.tap y
  · rfl
  · exact BitVec.xor_assoc _ _ _
  · simp only [Bool.xor_false, if_true, Bool.false_eq_true, if_false]
    rw [BitVec.xor_assoc, BitVec.xor_assoc, BitVec.xor_comm (register.shift y)]
  · simp only [Bool.xor_true, Bool.not_true, Bool.false_eq_true, if_false, if_true]
    rw [BitVec.xor_assoc, BitVec.xor_comm (register.shift y), ← BitVec.xor_assoc register.polynomial,
      BitVec.xor_self, BitVec.zero_xor]

theorem steps_xor (n : Nat) (x y : BitVec w) : register.steps n (x ^^^ y) = register.steps n x ^^^ register.steps n y := by
  induction n generalizing x y with
  | zero => rfl
  | succ n ih => rw [steps, steps, steps, step_xor, ih]

theorem steps_add (n k : Nat) (x : BitVec w) : register.steps (n + k) x = register.steps k (register.steps n x) := by
  induction n generalizing x with
  | zero => rw [Nat.zero_add, steps]
  | succ n ih => rw [Nat.add_right_comm, steps, steps, ih]

theorem steps_zero (n : Nat) : register.steps n 0 = 0 := by
  have doubled := register.steps_xor n 0 0
  rw [BitVec.xor_self, BitVec.xor_self] at doubled
  exact doubled

theorem steps_untapped (n : Nat) (x : BitVec w) (clear : ∀ k < n, register.tap (register.shift^[k] x) = false) :
    register.steps n x = register.shift^[n] x := by
  induction n generalizing x with
  | zero => rfl
  | succ n ih =>
    have first : register.tap x = false := clear 0 (Nat.succ_pos n)
    rw [steps, step, first]
    exact ih (register.shift x) fun k less => clear (k + 1) (Nat.succ_lt_succ less)

end Register

def rightShifting (polynomial : BitVec w) : Register w where
  shift x := x >>> 1
  tap x := x.getLsbD 0
  polynomial := polynomial
  shift_xor _ _ := ushiftRight_xor_distrib _ _ _
  tap_xor _ _ := getLsbD_xor

def leftShifting (polynomial : BitVec w) : Register w where
  shift x := x <<< 1
  tap x := x.getLsbD (w - 1)
  polynomial := polynomial
  shift_xor _ _ := shiftLeft_xor_distrib _ _ _
  tap_xor _ _ := getLsbD_xor

theorem iterate_shiftRight (n : Nat) (x : BitVec w) : (fun y : BitVec w => y >>> 1)^[n] x = x >>> n := by
  induction n generalizing x with
  | zero => simp
  | succ n ih => rw [Function.iterate_succ_apply, ih, ← shiftRight_add, Nat.add_comm]

theorem iterate_shiftLeft (n : Nat) (x : BitVec w) : (fun y : BitVec w => y <<< 1)^[n] x = x <<< n := by
  induction n generalizing x with
  | zero => simp
  | succ n ih => rw [Function.iterate_succ_apply, ih, ← shiftLeft_add, Nat.add_comm]

def lowOctet (x : BitVec w) : BitVec 8 := x.setWidth 8

def highOctet (x : BitVec w) : BitVec 8 := (x >>> (w - 8)).setWidth 8

theorem split_low (x : BitVec w) : x = (lowOctet x).setWidth w ^^^ ((x >>> 8) <<< 8) := by
  apply eq_of_getLsbD_eq
  intro i inside
  simp only [lowOctet, getLsbD_xor, getLsbD_setWidth, getLsbD_shiftLeft,
    getLsbD_ushiftRight, inside]
  by_cases low : i < 8
  · simp [low]
  · simp [low, Nat.add_sub_cancel' (Nat.not_lt.mp low)]

theorem split_high (wide : 8 ≤ w) (x : BitVec w) : x = ((highOctet x).setWidth w) <<< (w - 8) ^^^ ((x <<< 8) >>> 8) := by
  apply eq_of_getLsbD_eq
  intro i inside
  simp only [highOctet, getLsbD_xor, getLsbD_setWidth, getLsbD_shiftLeft,
    getLsbD_ushiftRight, inside]
  by_cases low : i < w - 8
  · have room : 8 + i < w := by omega
    simp [low, room]
  have room : ¬ 8 + i < w := by omega
  have octet : i - (w - 8) < 8 := by omega
  have inside' : i - (w - 8) < w := by omega
  simp [low, room, octet, inside', Nat.add_sub_cancel' (Nat.not_lt.mp low)]

theorem rightShifting_octet (polynomial x : BitVec w) : (rightShifting polynomial).steps 8 x =
      (rightShifting polynomial).steps 8 ((lowOctet x).setWidth w) ^^^ (x >>> 8) := by
  have clear : ∀ k < 8, (rightShifting polynomial).tap ((rightShifting polynomial).shift^[k] ((x >>> 8) <<< 8)) = false := by
    intro k less
    show getLsbD ((fun y : BitVec w => y >>> 1)^[k] _) 0 = false
    rw [iterate_shiftRight]
    simp [less]
  have rest : (rightShifting polynomial).steps 8 ((x >>> 8) <<< 8) = x >>> 8 := by
    rw [Register.steps_untapped _ _ _ clear]
    show (fun y : BitVec w => y >>> 1)^[8] _ = _
    apply eq_of_getLsbD_eq
    intro i inside
    by_cases room : 8 + i < w
    · simp [room]
    · simp [getLsbD_of_ge x (8 + i) (Nat.not_lt.mp room)]
  conv_lhs => rw [split_low x, Register.steps_xor, rest]

theorem leftShifting_octet (wide : 8 ≤ w) (polynomial x : BitVec w) : (leftShifting polynomial).steps 8 x =
      (leftShifting polynomial).steps 8 ((highOctet x).setWidth w <<< (w - 8)) ^^^ (x <<< 8) := by
  have clear : ∀ k < 8, (leftShifting polynomial).tap ((leftShifting polynomial).shift^[k] ((x <<< 8) >>> 8)) = false := by
    intro k less
    show getLsbD ((fun y : BitVec w => y <<< 1)^[k] _) (w - 1) = false
    rw [iterate_shiftLeft]
    have beyond : ¬ 8 + (w - 1 - k) < w := by omega
    simp [beyond]
  have rest : (leftShifting polynomial).steps 8 ((x <<< 8) >>> 8) = x <<< 8 := by
    rw [Register.steps_untapped _ _ _ clear]
    show (fun y : BitVec w => y <<< 1)^[8] _ = _
    rw [iterate_shiftLeft]
    apply eq_of_getLsbD_eq
    intro i inside
    by_cases low : i < 8
    · simp [low]
    · have room : 8 + (i - 8) = i := by omega
      simp [room]
  conv_lhs => rw [split_high wide x, Register.steps_xor, rest]

def spread : List (BitVec 8) → BitVec w
  | [] => 0
  | b :: bs => b.setWidth w ^^^ (spread bs <<< 8)

theorem spread_nil : (spread [] : BitVec w) = 0 := rfl

def octets : Nat → BitVec w → List (BitVec 8)
  | 0, _ => []
  | n + 1, x => lowOctet x :: octets n (x >>> 8)

theorem spread_octets (n : Nat) (x : BitVec w) (short : x >>> (8 * n) = 0) : spread (octets n x) = x := by
  induction n generalizing x with
  | zero => simpa [octets, spread] using short.symm
  | succ n ih =>
    have short' : (x >>> 8) >>> (8 * n) = 0 := by rw [← shiftRight_add, Nat.add_comm]; exact short
    rw [octets, spread, ih (x >>> 8) short']
    exact (split_low x).symm

theorem spread_above (bs : List (BitVec 8)) (i : Nat) (above : 8 * bs.length ≤ i) :
    (spread bs : BitVec w).getLsbD i = false := by
  induction bs generalizing i with
  | nil => simp [spread]
  | cons b bs ih =>
    rw [List.length_cons] at above
    rw [spread, getLsbD_xor, getLsbD_setWidth, getLsbD_shiftLeft, ih (i - 8) (by omega),
      getLsbD_of_ge b i (by omega)]
    simp

theorem spread_cons_or (b : BitVec 8) (bs : List (BitVec 8)) :
    (spread (b :: bs) : BitVec w) = b.setWidth w ||| (spread bs <<< 8) := by
  apply eq_of_getLsbD_eq
  intro i inside
  rw [spread]
  by_cases low : i < 8
  · simp [low]
  · simp [getLsbD_of_ge b i (Nat.not_lt.mp low)]

theorem rightShifting_shifted (polynomial : BitVec w) (bs : List (BitVec 8)) (room : 8 * (bs.length + 1) ≤ w) :
    (rightShifting polynomial).steps 8 (spread bs <<< 8) = spread bs := by
  have low : lowOctet (spread bs <<< 8 : BitVec w) = 0 := by
    apply eq_of_getLsbD_eq
    intro i inside
    simp [lowOctet, inside]
  have back : (spread bs <<< 8 : BitVec w) >>> 8 = spread bs := by
    apply eq_of_getLsbD_eq
    intro i inside
    rw [getLsbD_ushiftRight, getLsbD_shiftLeft]
    by_cases above : 8 + i < w
    · simp [above]
    · simp [spread_above bs i (by omega)]
  rw [rightShifting_octet, low, back]
  have zero : (rightShifting polynomial).steps 8 (setWidth w (0 : BitVec 8)) = 0 := by
    rw [show setWidth w (0 : BitVec 8) = 0 from setWidth_zero w 8]
    exact Register.steps_zero _ 8
  rw [zero]
  exact zero_xor

def absorb (polynomial x : BitVec w) (b : BitVec 8) : BitVec w :=
  (rightShifting polynomial).steps 8 (x ^^^ b.setWidth w)

theorem absorb_all (polynomial x : BitVec w) (bs : List (BitVec 8)) (room : 8 * bs.length ≤ w) :
    bs.foldl (absorb polynomial) x = (rightShifting polynomial).steps (8 * bs.length) (x ^^^ spread bs) := by
  induction bs generalizing x with
  | nil => simp [spread, Register.steps]
  | cons b bs ih =>
    rw [List.length_cons] at room
    have shifted := rightShifting_shifted polynomial bs room
    have front : (rightShifting polynomial).steps 8 (x ^^^ spread (b :: bs)) = absorb polynomial x b ^^^ spread bs := by
      rw [spread, ← xor_assoc, Register.steps_xor, shifted, absorb]
    rw [List.foldl_cons, ih _ (by omega), List.length_cons, Nat.mul_succ, Nat.add_comm, Register.steps_add, front]

def sliced (polynomial : BitVec w) : Nat → List (BitVec 8) → BitVec w
  | n + 1, b :: bs => (rightShifting polynomial).steps (8 * (n + 1)) (b.setWidth w) ^^^ sliced polynomial n bs
  | _, _ => 0

theorem steps_spread (polynomial : BitVec w) (n : Nat) (bs : List (BitVec 8)) (room : 8 * bs.length ≤ w)
    (enough : bs.length ≤ n) : (rightShifting polynomial).steps (8 * n) (spread bs) = sliced polynomial n bs := by
  induction bs generalizing n with
  | nil =>
    cases n <;> exact (rightShifting polynomial).steps_zero _
  | cons b bs ih =>
    rw [List.length_cons] at room enough
    cases n with
    | zero => omega
    | succ n =>
      have shifted := rightShifting_shifted polynomial bs room
      have rest : (rightShifting polynomial).steps (8 * (n + 1)) (spread bs <<< 8) = sliced polynomial n bs := by
        rw [Nat.mul_succ, Nat.add_comm, Register.steps_add, shifted]
        exact ih n (by omega) (by omega)
      rw [spread, Register.steps_xor, rest, sliced]

end Library
