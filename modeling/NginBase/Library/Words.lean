import Mathlib

namespace Library

open Nat

/-- Addition and subtraction of words of `w` bits. A result that fits is the one of the numbers. -/
structure Arithmetic (w : Nat) (m : Type → Type) [Monad m] where
  add : Nat → Nat → m Nat
  sub : Nat → Nat → m Nat
  add_eq : ∀ {a b}, a + b < 2 ^ w → add a b = pure (a + b)
  sub_eq : ∀ {a b}, b ≤ a → a < 2 ^ w → sub a b = pure (a - b)

namespace Arithmetic

variable (w : Nat)

def wrapping : Arithmetic w Id where
  add a b := (a + b) % 2 ^ w
  sub a b := (a + 2 ^ w - b) % 2 ^ w
  add_eq fits := mod_eq_of_lt fits
  sub_eq := by
    intro a b le fits
    have split : a + 2 ^ w - b = (a - b) + 2 ^ w := by omega
    show (a + 2 ^ w - b) % 2 ^ w = a - b
    rw [split, add_mod_right, mod_eq_of_lt (by omega)]

def checked : Arithmetic w Option where
  add a b := if a + b < 2 ^ w then some (a + b) else none
  sub a b := if b ≤ a ∧ a < 2 ^ w then some (a - b) else none
  add_eq fits := if_pos fits
  sub_eq le fits := if_pos ⟨le, fits⟩

end Arithmetic

/-- Words that are multiplied as well. -/
structure Products (w : Nat) (m : Type → Type) [Monad m] extends Arithmetic w m where
  mul : Nat → Nat → m Nat
  mul_eq : ∀ {a b}, a * b < 2 ^ w → mul a b = pure (a * b)

namespace Products

variable (w : Nat)

def wrapping : Products w Id where
  toArithmetic := .wrapping w
  mul a b := a * b % 2 ^ w
  mul_eq fits := mod_eq_of_lt fits

def checked : Products w Option where
  toArithmetic := .checked w
  mul a b := if a * b < 2 ^ w then some (a * b) else none
  mul_eq fits := if_pos fits

end Products

section

variable {b x s : Nat}

/-- The bits of a number that has been spread downwards over `s` places. -/
def Spread (b s x : Nat) : Prop := ∀ i, x.testBit i = true ↔ ∃ j < s, b.testBit (i + j) = true

theorem spread_self (b : Nat) : Spread b 1 b := by
  intro i
  simp

theorem Spread.double (spread : Spread b s x) : Spread b (s + s) (x ||| x >>> s) := by
  intro i
  rw [testBit_or, testBit_shiftRight, Bool.or_eq_true, spread i, spread (s + i)]
  constructor
  · rintro (⟨j, lt, bit⟩ | ⟨j, lt, bit⟩)
    · exact ⟨j, by omega, bit⟩
    · refine ⟨s + j, by omega, ?_⟩
      rwa [show i + (s + j) = s + i + j by omega]
  · intro ⟨j, lt, bit⟩
    by_cases near : j < s
    · exact .inl ⟨j, near, bit⟩
    · refine .inr ⟨j - s, by omega, ?_⟩
      rwa [show s + i + (j - s) = i + j by omega]

theorem Spread.ones (spread : Spread b s x) (whole : b < 2 ^ s) : x = 2 ^ b.size - 1 := by
  apply eq_of_testBit_eq
  intro i
  rw [testBit_two_pow_sub_one, Bool.eq_iff_iff, spread i, decide_eq_true_eq, lt_size]
  constructor
  · intro ⟨j, _, bit⟩
    exact (Nat.pow_le_pow_right (by decide) (Nat.le_add_right i j)).trans (Nat.ge_two_pow_of_testBit bit)
  · intro le
    obtain ⟨top, ge, bit⟩ := exists_ge_and_testBit_of_ge_two_pow le
    have below : top < s := by
      by_contra above
      exact absurd (Nat.testBit_lt_two_pow (whole.trans_le (Nat.pow_le_pow_right (by decide) (Nat.not_lt.mp above)))) (by simp [bit])
    exact ⟨top - i, by omega, by rwa [Nat.add_sub_cancel' ge]⟩

theorem size_pred {n : Nat} (pos : 0 < n) : (n - 1).size = clog 2 n := by
  apply eq_of_forall_ge_iff
  intro k
  rw [size_le, clog_le_iff_le_pow (by decide)]
  omega

end


section

variable {w k x a : Nat}

theorem and_complement (le : k ≤ w) (lt : x < 2 ^ w) : x &&& (2 ^ w - 1 - (2 ^ k - 1)) = x / 2 ^ k * 2 ^ k := by
  have small : 2 ^ k - 1 < 2 ^ w := (sub_one_lt (Nat.two_pow_pos k).ne').trans_le (Nat.pow_le_pow_right (by decide) le)
  have mask : 2 ^ w - 1 - (2 ^ k - 1) = 2 ^ w - (2 ^ k - 1 + 1) := by omega
  apply eq_of_testBit_eq
  intro i
  rw [testBit_and, mask, testBit_two_pow_sub_succ small, testBit_two_pow_sub_one, testBit_mul_two_pow, testBit_div_two_pow]
  by_cases low : i < k
  · simp [low]
  have le := Nat.not_lt.mp low
  by_cases high : i < w
  · simp [low, high, le, Nat.sub_add_cancel le]
  · have above : x.testBit i = false := testBit_lt_two_pow (lt.trans_le (Nat.pow_le_pow_right (by decide) (Nat.not_lt.mp high)))
    simp [low, high, above, Nat.sub_add_cancel le]

/-- The first multiple of `a` from `x` on. -/
def alignedUp (x a : Nat) : Nat := (x + (a - 1)) / a * a

theorem dvd_alignedUp (x a : Nat) : a ∣ alignedUp x a := Nat.dvd_mul_left _ _

theorem alignedUp_le (x a : Nat) : alignedUp x a ≤ x + (a - 1) := div_mul_le_self _ _

theorem le_alignedUp (pos : 0 < a) : x ≤ alignedUp x a := by
  have divided := div_add_mod (x + (a - 1)) a
  have below := mod_lt (x + (a - 1)) pos
  rw [Nat.mul_comm] at divided
  unfold alignedUp
  omega

theorem alignedUp_self (pos : 0 < a) (dvd : a ∣ x) : alignedUp x a = x := by
  obtain ⟨n, rfl⟩ := dvd
  unfold alignedUp
  rw [mul_add_div pos, div_eq_of_lt (by omega), Nat.add_zero, Nat.mul_comm]

variable {m : Type → Type} [Monad m] (words : Arithmetic w m)

/-- `(x + mask) & ~mask` -/
def Arithmetic.alignUp (x mask : Nat) : m Nat := do
  let sum ← words.add x mask
  pure (sum &&& (2 ^ w - 1 - mask))

theorem Arithmetic.alignUp_eq [LawfulMonad m] (le : k ≤ w) (fits : x + (2 ^ k - 1) < 2 ^ w) :
    words.alignUp x (2 ^ k - 1) = pure (alignedUp x (2 ^ k)) := by
  unfold Arithmetic.alignUp
  rw [words.add_eq fits, pure_bind, and_complement le fits]
  rfl

end

end Library
