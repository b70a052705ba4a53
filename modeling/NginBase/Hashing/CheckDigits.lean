import NginBase.Library.Digits
import NginBase.Text.Utf8

namespace NginBase.Hashing.Checksum.Decimal

open UInt8 Nat

def invalidDigitChecksum : UInt8 := 0xFF

@[irreducible] def digitValue (ch : UInt8) : Option (Fin 10) :=
  if digit : ch.toNat - 0x30 < 10 ∧ 0x30 ≤ ch.toNat then some ⟨ch.toNat - 0x30, digit.1⟩ else none

abbrev Table (rows : Nat) := Vector (Vector (Fin 10) 10) rows

def Table.at {rows : Nat} (table : Table rows) (row : Fin rows) (column : Fin 10) : Fin 10 := (table.get row).get column

def verhoeffD : Table 10 := #v[
  #v[0, 1, 2, 3, 4, 5, 6, 7, 8, 9],
  #v[1, 2, 3, 4, 0, 6, 7, 8, 9, 5],
  #v[2, 3, 4, 0, 1, 7, 8, 9, 5, 6],
  #v[3, 4, 0, 1, 2, 8, 9, 5, 6, 7],
  #v[4, 0, 1, 2, 3, 9, 5, 6, 7, 8],
  #v[5, 9, 8, 7, 6, 0, 4, 3, 2, 1],
  #v[6, 5, 9, 8, 7, 1, 0, 4, 3, 2],
  #v[7, 6, 5, 9, 8, 2, 1, 0, 4, 3],
  #v[8, 7, 6, 5, 9, 3, 2, 1, 0, 4],
  #v[9, 8, 7, 6, 5, 4, 3, 2, 1, 0]]

def verhoeffP : Table 8 := #v[
  #v[0, 1, 2, 3, 4, 5, 6, 7, 8, 9],
  #v[1, 5, 7, 6, 2, 8, 3, 0, 9, 4],
  #v[5, 8, 0, 3, 7, 9, 6, 1, 4, 2],
  #v[8, 9, 1, 6, 0, 4, 3, 5, 2, 7],
  #v[9, 4, 5, 3, 1, 2, 6, 8, 7, 0],
  #v[4, 2, 8, 6, 5, 7, 3, 9, 0, 1],
  #v[2, 7, 9, 3, 8, 0, 6, 4, 1, 5],
  #v[7, 0, 4, 6, 9, 1, 3, 2, 5, 8]]

def verhoeffInv : Vector (Fin 10) 10 := #v[0, 4, 3, 2, 1, 5, 6, 7, 8, 9]

def dammTable : Table 10 := #v[
  #v[0, 3, 1, 7, 5, 9, 8, 6, 4, 2],
  #v[7, 0, 9, 2, 1, 5, 4, 8, 6, 3],
  #v[4, 2, 0, 6, 8, 7, 1, 3, 5, 9],
  #v[1, 7, 5, 0, 9, 8, 3, 4, 2, 6],
  #v[6, 1, 2, 3, 0, 4, 5, 9, 7, 8],
  #v[3, 6, 7, 4, 2, 0, 9, 5, 8, 1],
  #v[5, 8, 6, 9, 7, 2, 0, 1, 3, 4],
  #v[8, 9, 4, 5, 3, 6, 2, 0, 1, 7],
  #v[9, 4, 3, 8, 6, 1, 7, 2, 0, 5],
  #v[2, 5, 8, 1, 4, 3, 6, 7, 9, 0]]

def position (digits : Nat) : Fin 8 := ⟨digits % 8, mod_lt _ (by decide)⟩

/-- The loop of `Verhoeff`: `digits.size() - i` is the number of characters that are left. -/
def verhoeffLoop (c : Fin 10) : Bytes → UInt8
  | [] => .ofNat (verhoeffInv.get c)
  | ch :: rest =>
    match digitValue ch with
    | none => invalidDigitChecksum
    | some digit => verhoeffLoop (verhoeffD.at c (verhoeffP.at (position (rest.length + 1)) digit)) rest

def verhoeff (digits : Bytes) : UInt8 := verhoeffLoop 0 digits

def dammLoop (interim : Fin 10) : Bytes → UInt8
  | [] => .ofNat interim
  | ch :: rest =>
    match digitValue ch with
    | none => invalidDigitChecksum
    | some digit => dammLoop (dammTable.at interim digit) rest

def damm (digits : Bytes) : UInt8 := dammLoop 0 digits

def luhnValue (doubleDigit : Bool) (digit : Fin 10) : Nat :=
  if doubleDigit then
    let value := digit.val * 2
    if 9 < value then value - 9 else value
  else digit.val

/-- The loop of `Luhn`, which goes from the last character to the first. The sum is an `int`, and nothing is returned where
it would overflow. -/
def luhnLoop (sum : Nat) (doubleDigit : Bool) : Bytes → Option UInt8
  | [] => some (.ofNat ((10 - sum % 10) % 10))
  | ch :: rest =>
    match digitValue ch with
    | none => some invalidDigitChecksum
    | some digit =>
      let sum := sum + luhnValue doubleDigit digit
      if 2 ^ 31 ≤ sum then none else luhnLoop sum (!doubleDigit) rest

def luhn (digits : Bytes) : Option UInt8 := luhnLoop 0 true digits.reverse

def IsDecimal (s : Bytes) : Prop := ∀ ch ∈ s, ∃ digit, digitValue ch = some digit

theorem digitValue_digit : ∀ x : Fin 10, digitValue (0x30 + .ofNat x.val) = some x := by decide +kernel

theorem isDecimal_digits (digits : List (Fin 10)) : IsDecimal (digits.map fun x => 0x30 + .ofNat x.val) := by
  intro ch mem
  obtain ⟨x, -, rfl⟩ := List.mem_map.mp mem
  exact ⟨x, digitValue_digit x⟩

def DifferOnce (s t : Bytes) : Prop := ∃ before a b after, a ≠ b ∧ s = before ++ a :: after ∧ t = before ++ b :: after

/-- Two different neighbours, `a` and `b`, have changed places. -/
def SwapAt (s t before : Bytes) (a b : UInt8) (after : Bytes) : Prop :=
  a ≠ b ∧ s = before ++ a :: b :: after ∧ t = before ++ b :: a :: after

def values (s : Bytes) : List (Fin 10) := s.filterMap digitValue

theorem digitValue_injective {a b : UInt8} {digit : Fin 10} (first : digitValue a = some digit) (second : digitValue b = some digit) :
    a = b := by
  unfold digitValue at first second
  split at first
  · split at second
    · have same : a.toNat - 0x30 = b.toNat - 0x30 := congrArg Fin.val ((Option.some.inj first).trans (Option.some.inj second).symm)
      apply toNat.inj
      omega
    · cases second
  · cases first

theorem values_cons {ch : UInt8} {digit : Fin 10} (value : digitValue ch = some digit) (rest : Bytes) : values (ch :: rest) = digit :: values rest := by
  rw [values, List.filterMap_cons_some value, values]

theorem values_append (s t : Bytes) : values (s ++ t) = values s ++ values t := List.filterMap_append

theorem IsDecimal.tail {ch : UInt8} {rest : Bytes} (decimal : IsDecimal (ch :: rest)) : IsDecimal rest :=
  fun d mem => decimal d (List.mem_cons_of_mem ch mem)

theorem values_length {s : Bytes} (decimal : IsDecimal s) : (values s).length = s.length := by
  induction s with
  | nil => rfl
  | cons ch rest ih =>
    obtain ⟨digit, value⟩ := decimal ch List.mem_cons_self
    rw [values_cons value, List.length_cons, List.length_cons, ih decimal.tail]

theorem DifferOnce.values {s t : Bytes} (slip : DifferOnce s t) (decimal : IsDecimal s) (decimal' : IsDecimal t) :
    ∃ before a b after, a ≠ b ∧ values s = before ++ a :: after ∧ values t = before ++ b :: after := by
  obtain ⟨before, a, b, after, wrong, rfl, rfl⟩ := slip
  obtain ⟨x, first⟩ := decimal a (by simp)
  obtain ⟨y, second⟩ := decimal' b (by simp)
  refine ⟨Decimal.values before, x, y, Decimal.values after, fun same => wrong (digitValue_injective first (same ▸ second)), ?_, ?_⟩
  · rw [values_append, values_cons first]
  · rw [values_append, values_cons second]

theorem SwapAt.values {s t before after : Bytes} {a b : UInt8} (slip : SwapAt s t before a b after) (decimal : IsDecimal s) :
    ∃ x y, digitValue a = some x ∧ digitValue b = some y ∧ x ≠ y ∧ (values after).length = after.length ∧
      values s = values before ++ x :: y :: values after ∧ values t = values before ++ y :: x :: values after := by
  obtain ⟨different, rfl, rfl⟩ := slip
  obtain ⟨x, first⟩ := decimal a (by simp)
  obtain ⟨y, second⟩ := decimal b (by simp)
  have length := values_length fun ch mem => decimal ch (List.mem_append_right before (List.mem_cons_of_mem a (List.mem_cons_of_mem b mem)))
  refine ⟨x, y, first, second, fun same => different (digitValue_injective first (same ▸ second)), length, ?_, ?_⟩
  · rw [values_append, values_cons first, values_cons second]
  · rw [values_append, values_cons second, values_cons first]

section

open Library (readDigits Cancels Distinguishes)

theorem verhoeff_tables : (∀ x y z, verhoeffD.at (verhoeffD.at x y) z = verhoeffD.at x (verhoeffD.at y z)) ∧
    (∀ x y z, verhoeffD.at x y = verhoeffD.at x z → y = z) ∧
    (∀ x y z, verhoeffD.at x z = verhoeffD.at y z → x = y) ∧
    (∀ row x y, verhoeffP.at row x = verhoeffP.at row y → x = y) := by decide +kernel

theorem verhoeffD_assoc : ∀ x y z, verhoeffD.at (verhoeffD.at x y) z = verhoeffD.at x (verhoeffD.at y z) := verhoeff_tables.1

theorem verhoeffD_left : ∀ x y z, verhoeffD.at x y = verhoeffD.at x z → y = z := verhoeff_tables.2.1

theorem verhoeffD_right : ∀ x y z, verhoeffD.at x z = verhoeffD.at y z → x = y := verhoeff_tables.2.2.1

theorem verhoeffP_injective : ∀ row x y, verhoeffP.at row x = verhoeffP.at row y → x = y := verhoeff_tables.2.2.2

def verhoeffStep (behind : Nat) (c digit : Fin 10) : Fin 10 := verhoeffD.at c (verhoeffP.at (position (behind + 1)) digit)

theorem verhoeffLoop_eq {s : Bytes} (decimal : IsDecimal s) (c : Fin 10) :
    verhoeffLoop c s = .ofNat (verhoeffInv.get (readDigits verhoeffStep 0 c (values s))) := by
  induction s generalizing c with
  | nil => rfl
  | cons ch rest ih =>
    obtain ⟨digit, value⟩ := decimal ch List.mem_cons_self
    rw [values_cons value, readDigits, values_length decimal.tail, ← ih decimal.tail, verhoeffLoop, value]
    rfl

theorem verhoeff_eq_iff {s t : Bytes} (decimal : IsDecimal s) (decimal' : IsDecimal t) :
    verhoeff s = verhoeff t ↔ readDigits verhoeffStep 0 0 (values s) = readDigits verhoeffStep 0 0 (values t) := by
  have inverse : ∀ x y : Fin 10, ofNat (verhoeffInv.get x) = ofNat (verhoeffInv.get y) → x = y := by decide
  rw [verhoeff, verhoeff, verhoeffLoop_eq decimal, verhoeffLoop_eq decimal']
  exact ⟨inverse _ _, fun same => by rw [same]⟩

theorem verhoeffStep_distinguishes : Distinguishes verhoeffStep := fun _ _ _ _ same => verhoeffP_injective _ _ _ (verhoeffD_left _ _ _ same)

theorem verhoeffStep_cancels : Cancels verhoeffStep := fun _ _ _ _ same => verhoeffD_right _ _ _ same

/-- The pairs of neighbours whose order does not matter, by the place of the right one, counted from the end. -/
def overlooked : Vector (List (Fin 10 × Fin 10)) 8 := #v[
  [(0, 8), (1, 6), (2, 3), (3, 9), (4, 8)], [(0, 3), (4, 6), (5, 7), (5, 9), (6, 8)],
  [(1, 2), (1, 8), (3, 5), (3, 9), (6, 7)], [(0, 4), (0, 5), (1, 6), (2, 3), (6, 8)],
  [(0, 3), (1, 7), (3, 5), (4, 6), (7, 9)], [(0, 2), (1, 6), (2, 8), (3, 9), (6, 7)],
  [(0, 3), (2, 3), (4, 5), (4, 7), (6, 8)], [(1, 9), (2, 9), (3, 5), (4, 6), (6, 7)]]

def Unnoticed (place : Fin 8) (x y : Fin 10) : Prop := (x, y) ∈ overlooked.get place ∨ (y, x) ∈ overlooked.get place

instance (place : Fin 8) (x y : Fin 10) : Decidable (Unnoticed place x y) := inferInstanceAs (Decidable (_ ∨ _))

theorem position_succ (k : Nat) : position (k + 1) = position k + 1 := by
  apply Fin.ext
  simp only [position, Fin.val_add]
  omega

theorem unnoticed_iff (k : Nat) (c : Fin 10) {x y : Fin 10} (different : x ≠ y) :
    verhoeffStep k (verhoeffStep (k + 1) c x) y = verhoeffStep k (verhoeffStep (k + 1) c y) x ↔ Unnoticed (position (k + 1)) x y := by
  have table : ∀ (place : Fin 8) (x y : Fin 10), x ≠ y →
      (verhoeffD.at (verhoeffP.at (place + 1) x) (verhoeffP.at place y) = verhoeffD.at (verhoeffP.at (place + 1) y) (verhoeffP.at place x) ↔
        Unnoticed place x y) := by decide +kernel
  unfold verhoeffStep
  rw [verhoeffD_assoc, verhoeffD_assoc, position_succ (k + 1), ← table _ _ _ different]
  exact ⟨verhoeffD_left _ _ _, fun same => by rw [same]⟩

/-- `t` is `s` with two neighbours swapped that are among the overlooked ones of their place. -/
def Overlooked (s t : Bytes) : Prop :=
  ∃ before a b after x y, SwapAt s t before a b after ∧ digitValue a = some x ∧ digitValue b = some y ∧
    Unnoticed (position (after.length + 1)) x y

theorem verhoeff_swap_iff {s t before after : Bytes} {a b : UInt8} {x y : Fin 10} (decimal : IsDecimal s) (decimal' : IsDecimal t)
    (swap : SwapAt s t before a b after) (first : digitValue a = some x) (second : digitValue b = some y) :
    verhoeff s = verhoeff t ↔ Unnoticed (position (after.length + 1)) x y := by
  obtain ⟨_, _, first', second', different, length, whole, whole'⟩ := swap.values decimal
  cases first.symm.trans first'
  cases second.symm.trans second'
  rw [verhoeff_eq_iff decimal decimal', whole, whole', verhoeffStep_cancels.swap_iff, length]
  exact unnoticed_iff _ _ different

/-- Every wrong digit changes the check digit; two different neighbours in the wrong order change it except at five pairs
for each place: the product is taken from the left, where the permutations fit a product from the right. -/
theorem verhoeff_detects_iff {s t : Bytes} (decimal : IsDecimal s) (decimal' : IsDecimal t)
    (slip : DifferOnce s t ∨ ∃ before a b after, SwapAt s t before a b after) : verhoeff s ≠ verhoeff t ↔ ¬ Overlooked s t := by
  constructor
  · rintro differs ⟨before, a, b, after, x, y, swap, first, second, unnoticed⟩
    exact differs ((verhoeff_swap_iff decimal decimal' swap first second).mpr unnoticed)
  · rintro noticed same
    rcases slip with once | ⟨before, a, b, after, swap⟩
    · obtain ⟨before, x, y, after, wrong, whole, whole'⟩ := once.values decimal decimal'
      rw [verhoeff_eq_iff decimal decimal', whole, whole'] at same
      exact verhoeffStep_distinguishes.detects verhoeffStep_cancels 0 before after wrong same
    · obtain ⟨x, y, first, second, _⟩ := swap.values decimal
      exact noticed ⟨before, a, b, after, x, y, swap, first, second, (verhoeff_swap_iff decimal decimal' swap first second).mp same⟩

theorem verhoeff_detects_iff_twelve : verhoeff [0x31, 0x32] ≠ verhoeff [0x32, 0x31] := by
  have decimal : IsDecimal [0x31, 0x32] := isDecimal_digits [1, 2]
  have decimal' : IsDecimal [0x32, 0x31] := isDecimal_digits [2, 1]
  have one : digitValue 0x31 = some 1 := digitValue_digit 1
  have two : digitValue 0x32 = some 2 := digitValue_digit 2
  have swap : SwapAt [0x31, 0x32] [0x32, 0x31] [] 0x31 0x32 [] := ⟨by decide, rfl, rfl⟩
  apply (verhoeff_detects_iff decimal decimal' (.inr ⟨_, _, _, _, swap⟩)).mpr
  rintro ⟨before, a, b, after, x, y, ⟨_, whole, _⟩, first, second, unnoticed⟩
  cases before with
  | nil =>
    cases whole
    cases one.symm.trans first
    cases two.symm.trans second
    exact absurd unnoticed (by decide)
  | cons c before =>
    have length := congrArg List.length whole
    simp only [List.length_cons, List.length_append, List.length_nil] at length
    omega

theorem verhoeff_overlooks : SwapAt [0x30, 0x33] [0x33, 0x30] [] 0x30 0x33 [] ∧ verhoeff [0x30, 0x33] = verhoeff [0x33, 0x30] := by
  have swap : SwapAt [0x30, 0x33] [0x33, 0x30] [] 0x30 0x33 [] := ⟨by decide, rfl, rfl⟩
  have same := verhoeff_swap_iff (isDecimal_digits [0, 3]) (isDecimal_digits [3, 0]) swap (digitValue_digit 0) (digitValue_digit 3)
  exact ⟨swap, same.mpr (by decide)⟩

end

section

open Library (readDigits Cancels Distinguishes)

def dammStep (_ : Nat) (interim digit : Fin 10) : Fin 10 := dammTable.at interim digit

theorem dammLoop_eq {s : Bytes} (decimal : IsDecimal s) (interim : Fin 10) :
    dammLoop interim s = .ofNat (readDigits dammStep 0 interim (values s)).val := by
  induction s generalizing interim with
  | nil => rfl
  | cons ch rest ih =>
    obtain ⟨digit, value⟩ := decimal ch List.mem_cons_self
    rw [values_cons value, dammLoop, value]
    exact ih decimal.tail _

theorem damm_eq_iff {s t : Bytes} (decimal : IsDecimal s) (decimal' : IsDecimal t) :
    damm s = damm t ↔ readDigits dammStep 0 0 (values s) = readDigits dammStep 0 0 (values t) := by
  have inverse : ∀ x y : Fin 10, ofNat x.val = ofNat y.val → x = y := by decide
  rw [damm, damm, dammLoop_eq decimal, dammLoop_eq decimal']
  exact ⟨inverse _ _, fun same => by rw [same]⟩

theorem damm_table : (∀ x y z, dammTable.at x y = dammTable.at x z → y = z) ∧
    (∀ x y z, dammTable.at x z = dammTable.at y z → x = y) ∧
    (∀ c x y, dammTable.at (dammTable.at c x) y = dammTable.at (dammTable.at c y) x → x = y) ∧
    (∀ x, dammTable.at x x = 0) := by decide +kernel

theorem dammStep_distinguishes : Distinguishes dammStep := fun _ _ _ _ same => damm_table.1 _ _ _ same

theorem dammStep_cancels : Cancels dammStep := fun _ _ _ _ same => damm_table.2.1 _ _ _ same

theorem dammTable_swap : ∀ c x y, dammTable.at (dammTable.at c x) y = dammTable.at (dammTable.at c y) x → x = y := damm_table.2.2.1

theorem damm_closes {s : Bytes} (decimal : IsDecimal s) : damm (s ++ [0x30 + damm s]) = 0 := by
  have last : digitValue (0x30 + damm s) = some (readDigits dammStep 0 0 (values s)) := by
    rw [damm, dammLoop_eq decimal]
    exact digitValue_digit _
  have more : IsDecimal (s ++ [0x30 + damm s]) := by
    intro ch mem
    rcases List.mem_append.mp mem with mem | mem
    · exact decimal ch mem
    · exact ⟨_, List.mem_singleton.mp mem ▸ last⟩
  have free (digits : List (Fin 10)) : ∀ behind c, readDigits dammStep behind c digits = readDigits dammStep 0 c digits := by
    induction digits with
    | nil => exact fun _ _ => rfl
    | cons d digits ih => exact fun behind c => (ih behind _).trans (ih 0 _).symm
  rw [damm, dammLoop_eq more, values_append, values_cons last, Library.readDigits_append, free (values s)]
  exact congrArg (fun x : Fin 10 => ofNat x.val) (damm_table.2.2.2 _)

end

section

open Library (readDigits Cancels Distinguishes)

def doubles (behind : Nat) : Bool := behind % 2 = 0

def luhnStep (behind : Nat) (sum digit : Fin 10) : Fin 10 := sum + Fin.ofNat 10 (luhnValue (doubles behind) digit)

/-- The sum of the values of digits that are read from the last to the first. -/
def luhnSum (doubleDigit : Bool) : List (Fin 10) → Nat
  | [] => 0
  | digit :: rest => luhnValue doubleDigit digit + luhnSum (!doubleDigit) rest

theorem luhnValue_le (doubleDigit : Bool) (digit : Fin 10) : luhnValue doubleDigit digit ≤ 9 := by
  revert doubleDigit digit
  decide

theorem luhnLoop_eq {s : Bytes} (decimal : IsDecimal s) (sum : Nat) (doubleDigit : Bool) (small : sum + 9 * s.length < 2 ^ 31) :
    luhnLoop sum doubleDigit s = some (.ofNat ((10 - (sum + luhnSum doubleDigit (values s)) % 10) % 10)) := by
  induction s generalizing sum doubleDigit with
  | nil => rfl
  | cons ch rest ih =>
    obtain ⟨digit, value⟩ := decimal ch List.mem_cons_self
    have le := luhnValue_le doubleDigit digit
    rw [List.length_cons] at small
    rw [values_cons value, luhnSum, luhnLoop, value]
    dsimp only
    rw [if_neg (by omega), ih decimal.tail _ _ (by omega), add_assoc]

theorem doubles_succ (k : Nat) : doubles (k + 1) = !doubles k := by
  unfold doubles
  rcases mod_two_eq_zero_or_one k with even | odd
  · simp [even, add_mod]
  · simp [odd, add_mod]

theorem luhnSum_snoc (behind : Nat) (digits : List (Fin 10)) (d : Fin 10) :
    luhnSum (doubles behind) (digits ++ [d]) = luhnSum (doubles behind) digits + luhnValue (doubles (behind + digits.length)) d := by
  induction digits generalizing behind with
  | nil => simp [luhnSum]
  | cons digit digits ih =>
    rw [List.cons_append, luhnSum, luhnSum, ← doubles_succ, ih, List.length_cons, add_assoc behind, add_comm 1, add_assoc]

theorem readDigits_luhnStep (c : Fin 10) (digits : List (Fin 10)) :
    readDigits luhnStep 0 c digits = c + Fin.ofNat 10 (luhnSum true digits.reverse) := by
  induction digits generalizing c with
  | nil => simp [readDigits, luhnSum]
  | cons d digits ih =>
    have sum : luhnSum true (digits.reverse ++ [d]) = _ := luhnSum_snoc 0 digits.reverse d
    rw [readDigits, ih, List.reverse_cons, sum, zero_add, add_zero, List.length_reverse, luhnStep]
    apply Fin.ext
    simp only [Fin.val_add, Fin.val_ofNat]
    show _ = (c.val + (luhnSum true digits.reverse + _) % 10) % 10
    omega

theorem luhn_eq {s : Bytes} (decimal : IsDecimal s) (short : s.length < 2 ^ 27) :
    luhn s = some (.ofNat ((10 - (readDigits luhnStep 0 0 (values s)).val) % 10)) := by
  have backwards : IsDecimal s.reverse := fun ch mem => decimal ch (List.mem_reverse.mp mem)
  have reversed : values s.reverse = (values s).reverse := by simp [values]
  rw [luhn, luhnLoop_eq backwards 0 true (by rw [List.length_reverse]; omega), readDigits_luhnStep, reversed]
  simp

theorem luhn_eq_iff {s t : Bytes} (decimal : IsDecimal s) (decimal' : IsDecimal t) (short : s.length < 2 ^ 27) (short' : t.length < 2 ^ 27) :
    luhn s = luhn t ↔ readDigits luhnStep 0 0 (values s) = readDigits luhnStep 0 0 (values t) := by
  have inverse : ∀ x y : Fin 10, some (ofNat ((10 - x.val) % 10)) = some (ofNat ((10 - y.val) % 10)) → x = y := by decide
  rw [luhn_eq decimal short, luhn_eq decimal' short']
  exact ⟨inverse _ _, fun same => by rw [same]⟩

theorem luhnStep_distinguishes : Distinguishes luhnStep := by
  have table : ∀ (double : Bool) (sum x y : Fin 10), sum + Fin.ofNat 10 (luhnValue double x) = sum + Fin.ofNat 10 (luhnValue double y) → x = y := by
    decide
  exact fun _ _ _ _ same => table _ _ _ _ same

theorem luhnStep_cancels : Cancels luhnStep := by
  have table : ∀ x y z : Fin 10, x + z = y + z → x = y := by decide
  exact fun _ _ _ _ same => table _ _ _ same

theorem luhnStep_swap (k : Nat) (c : Fin 10) {x y : Fin 10} (different : x ≠ y)
    (same : luhnStep k (luhnStep (k + 1) c x) y = luhnStep k (luhnStep (k + 1) c y) x) : x = 0 ∧ y = 9 ∨ x = 9 ∧ y = 0 := by
  have table : ∀ (double : Bool) (c x y : Fin 10), x ≠ y →
      c + Fin.ofNat 10 (luhnValue (!double) x) + Fin.ofNat 10 (luhnValue double y) =
        c + Fin.ofNat 10 (luhnValue (!double) y) + Fin.ofNat 10 (luhnValue double x) → x = 0 ∧ y = 9 ∨ x = 9 ∧ y = 0 := by decide +kernel
  unfold luhnStep at same
  rw [doubles_succ] at same
  exact table _ _ _ _ different same

end

/-- Damm notices every wrong digit and every swap of neighbours, and a string followed by its check digit checks to zero;
Luhn notices every wrong digit and every swap but that of 0 and 9. -/
theorem damm_luhn_detect {s : Bytes} (decimal : IsDecimal s) (short : s.length < 2 ^ 27) :
    (∀ t, IsDecimal t → DifferOnce s t → damm s ≠ damm t ∧ ∃ c c', luhn s = some c ∧ luhn t = some c' ∧ c ≠ c') ∧
    (∀ t before a b after, SwapAt s t before a b after → damm s ≠ damm t ∧
      ∃ c c', luhn s = some c ∧ luhn t = some c' ∧ (c ≠ c' ∨ a = 0x30 ∧ b = 0x39 ∨ a = 0x39 ∧ b = 0x30)) ∧
    damm (s ++ [0x30 + damm s]) = 0 := by
  have answers {t : Bytes} (decimal' : IsDecimal t) (length : t.length = s.length) {noticed : Prop} (differs : luhn s = luhn t → noticed) :
      ∃ c c', luhn s = some c ∧ luhn t = some c' ∧ (c ≠ c' ∨ noticed) := by
    refine ⟨_, _, luhn_eq decimal short, luhn_eq decimal' (length ▸ short), ?_⟩
    by_cases same : luhn s = luhn t
    · exact .inr (differs same)
    · rw [luhn_eq decimal short, luhn_eq decimal' (length ▸ short)] at same
      exact .inl fun equal => same (congrArg some equal)
  refine ⟨?_, ?_, damm_closes decimal⟩
  · intro t decimal' slip
    have length : t.length = s.length := by
      obtain ⟨before, a, b, after, _, rfl, rfl⟩ := slip
      simp
    obtain ⟨before, x, y, after, wrong, whole, whole'⟩ := slip.values decimal decimal'
    constructor
    · rw [ne_eq, damm_eq_iff decimal decimal', whole, whole']
      exact dammStep_distinguishes.detects dammStep_cancels 0 before after wrong
    · have differs : luhn s = luhn t → False := by
        rw [luhn_eq_iff decimal decimal' short (length ▸ short), whole, whole']
        exact luhnStep_distinguishes.detects luhnStep_cancels 0 before after wrong
      obtain ⟨c, c', first, second, different⟩ := answers decimal' length differs
      exact ⟨c, c', first, second, different.resolve_right id⟩
  · intro t before a b after swap
    have decimal' : IsDecimal t := by
      obtain ⟨_, rfl, rfl⟩ := swap
      intro ch mem
      apply decimal ch
      simp only [List.mem_append, List.mem_cons] at mem ⊢
      exact mem.imp_right or_left_comm.mp
    have length : t.length = s.length := by
      obtain ⟨_, rfl, rfl⟩ := swap
      simp
    obtain ⟨x, y, first, second, different, _, whole, whole'⟩ := swap.values decimal
    constructor
    · rw [ne_eq, damm_eq_iff decimal decimal', whole, whole', dammStep_cancels.swap_iff]
      exact fun same => different (dammTable_swap _ _ _ same)
    · apply answers decimal' length
      rw [luhn_eq_iff decimal decimal' short (length ▸ short), whole, whole', luhnStep_cancels.swap_iff]
      intro same
      have zero : digitValue 0x30 = some 0 := digitValue_digit 0
      have nine : digitValue 0x39 = some 9 := digitValue_digit 9
      rcases luhnStep_swap _ _ different same with ⟨rfl, rfl⟩ | ⟨rfl, rfl⟩
      · exact .inl ⟨digitValue_injective first zero, digitValue_injective second nine⟩
      · exact .inr ⟨digitValue_injective first nine, digitValue_injective second zero⟩

theorem damm_luhn_detect_twelve : damm [0x31, 0x32] ≠ damm [0x32, 0x31] ∧ damm [0x31, 0x32, 0x30 + damm [0x31, 0x32]] = 0 := by
  have detect := damm_luhn_detect (s := [0x31, 0x32]) (isDecimal_digits [1, 2]) (by decide)
  exact ⟨(detect.2.1 [0x32, 0x31] [] 0x31 0x32 [] ⟨by decide, rfl, rfl⟩).1, detect.2.2⟩

end NginBase.Hashing.Checksum.Decimal
