import NginBase.Math.BigIntLaws

namespace NginBase.Math.BigInt

open Library List BigInt

inductive Call
  | ofInt32 (value : Int32)
  | ofUInt32 (value : UInt32)
  | ofInt64 (value : Int64)
  | ofUInt64 (value : UInt64)
  | ofString (text : Bytes)
  | neg (i : Nat)
  | add (i j : Nat)
  | subtract (i j : Nat)
  | multiply (i j : Nat)
  | divide (i j : Nat)
  | modulo (i j : Nat)

def operand (made : List BigInt) (i : Nat) : BigInt := (made[i]?).getD {}

def Call.result (made : List BigInt) : Call → Except Fault BigInt
  | ofInt32 value => .ok (BigInt.ofInt32 value)
  | ofUInt32 value => .ok (BigInt.ofUInt32 value)
  | ofInt64 value => .ok (BigInt.ofInt64 value)
  | ofUInt64 value => .ok (BigInt.ofUInt64 value)
  | ofString text => .ok (BigInt.ofString text)
  | neg i => .ok (operand made i).neg
  | add i j => BigInt.add (operand made i) (operand made j)
  | subtract i j => BigInt.subtract (operand made i) (operand made j)
  | multiply i j => BigInt.multiply (operand made i) (operand made j)
  | divide i j => BigInt.divide (operand made i) (operand made j)
  | modulo i j => BigInt.modulo (operand made i) (operand made j)

def step (made : List BigInt) (call : Call) : Except Fault (List BigInt) := do
  let result ← call.result made
  return made ++ [result]

def run (calls : List Call) : Except Fault (List BigInt) := calls.foldlM step []

def Decimal (text : Bytes) : Prop :=
  ∃ digits, digits ≠ [] ∧ (∀ c ∈ digits, 0x30 ≤ c ∧ c ≤ 0x39) ∧ (text = digits ∨ text = 0x2D :: digits)

/-- A string is a decimal number, no negative number is subtracted from itself, and none is multiplied
    by zero. -/
def Orderly (made : List BigInt) : Call → Prop
  | .ofString text => Decimal text
  | .subtract i j => ¬ ((operand made i).value < 0 ∧ (operand made i).value = (operand made j).value)
  | .multiply i j => ¬ ((operand made i).value * (operand made j).value = 0 ∧
      ((operand made i).value < 0 ∨ (operand made j).value < 0))
  | _ => True

theorem normal_limbs (n : Nat) (negative : Bool) (zero : n = 0 → negative = false) :
    Normal { digits := limbs n, negative } := by
  obtain ⟨canonical, value⟩ := canonical_limbs n
  exact ⟨canonical, fun none => zero (value.symm.trans none)⟩

theorem normal_ofInt32 (value : Int32) : Normal (ofInt32 value) := by
  apply normal_limbs
  intro zero
  rw [decide_eq_false_iff_not, Int32.lt_iff_toInt_lt, Int.natAbs_eq_zero.mp zero]
  decide

theorem normal_ofInt64 (value : Int64) : Normal (ofInt64 value) := by
  apply normal_limbs
  intro zero
  rw [decide_eq_false_iff_not, Int64.lt_iff_toInt_lt, Int.natAbs_eq_zero.mp zero]
  decide

theorem blockValue_lt {block : Bytes} (digits : ∀ c ∈ block, 0x30 ≤ c ∧ c ≤ 0x39) (short : block.length ≤ 9) :
    blockValue block < base := by
  have general (block : Bytes) (digits : ∀ c ∈ block, 0x30 ≤ c ∧ c ≤ 0x39) (start room : Nat) (small : start < 10 ^ room)
      (short : room + block.length ≤ 9) :
      block.foldl (fun value c => (((value : Int) * 10 + (c.toInt8.toInt - 48)) % 2 ^ 32).toNat) start <
        10 ^ (room + block.length) := by
    induction block generalizing start room with
    | nil => simpa using small
    | cons c block ih =>
      rw [length_cons] at short ⊢
      have digit : ∃ d : Nat, d < 10 ∧ c.toInt8.toInt - 48 = d := by
        have range := digits c mem_cons_self
        have bounds : 48 ≤ c.toNat ∧ c.toNat ≤ 57 := ⟨UInt8.le_iff_toNat_le.mp range.1, UInt8.le_iff_toNat_le.mp range.2⟩
        refine ⟨c.toNat - 48, by omega, ?_⟩
        have same : c.toInt8.toInt = c.toNat := by
          rw [← UInt8.toNat_toBitVec] at bounds ⊢
          show c.toBitVec.toInt = _
          rw [BitVec.toInt_eq_toNat_of_lt (by omega)]
        omega
      obtain ⟨d, below, same⟩ := digit
      have power : 10 ^ (room + 1) ≤ 10 ^ 9 := Nat.pow_le_pow_right (by decide) (by omega)
      have bound : start * 10 + d < 10 ^ (room + 1) := by
        omega
      have next : (((start : Int) * 10 + (c.toInt8.toInt - 48)) % 2 ^ 32).toNat = start * 10 + d := by
        omega
      rw [foldl_cons, next]
      have rest := ih (fun c mem => digits c (mem_cons_of_mem _ mem)) (start * 10 + d) (room + 1) bound (by omega)
      rwa [Nat.add_assoc, Nat.add_comm 1] at rest
  have bound := general block digits 0 0 (by decide) (by omega)
  rw [Nat.zero_add] at bound
  exact bound.trans_le (Nat.pow_le_pow_right (by decide) short)

theorem blocks_spec (fuel : Nat) {text : Bytes} (digits : ∀ c ∈ text, 0x30 ≤ c ∧ c ≤ 0x39) :
    (∀ d ∈ blocks fuel text, d < base) ∧ (0 < fuel → text ≠ [] → blocks fuel text ≠ []) := by
  induction fuel generalizing text with
  | zero => exact ⟨by simp [blocks], by simp⟩
  | succ fuel ih =>
    unfold blocks
    by_cases empty : text = []
    · rw [if_pos empty]
      exact ⟨by simp, fun _ present => absurd empty present⟩
    rw [if_neg empty]
    have first : blockValue (text.drop (text.length - 9)) < base :=
      blockValue_lt (fun c mem => digits c (mem_of_mem_drop mem)) (by rw [length_drop]; omega)
    have front : ∀ c ∈ text.take (text.length - 9), 0x30 ≤ c ∧ c ≤ 0x39 :=
      fun c mem => digits c (mem_of_mem_take mem)
    exact ⟨forall_mem_cons.mpr ⟨first, (ih front).1⟩, fun _ _ => cons_ne_nil _ _⟩

theorem normal_ofString {text : Bytes} (decimal : Decimal text) : Normal (ofString text) := by
  obtain ⟨digits, present, range, form⟩ := decimal
  have visible : text.takeWhile (· ≠ 0) = text := by
    rw [takeWhile_eq_self_iff]
    intro c mem
    have inside : c = 0x2D ∨ c ∈ digits := by
      rcases form with rfl | rfl
      · exact .inr mem
      · exact mem_cons.mp mem
    rcases inside with rfl | inside
    · decide
    have low := (range c inside).1
    simp only [decide_not, Bool.not_eq_true', decide_eq_false_iff_not]
    rintro rfl
    exact absurd low (by decide)
  have stripped : (if text.head? = some 0x2D then text.tail else text) = digits := by
    rcases form with rfl | rfl
    · cases text with
      | nil => exact absurd rfl present
      | cons c rest =>
        rw [if_neg]
        intro minus
        have low := (range c mem_cons_self).1
        rw [head?_cons, Option.some.injEq] at minus
        rw [minus] at low
        exact absurd low (by decide)
    · rfl
  have nonempty : text ≠ [] := by
    rcases form with rfl | rfl
    · exact present
    · exact cons_ne_nil _ _
  obtain ⟨small, more⟩ := blocks_spec digits.length range
  have canonical := trim_canonical (more (length_pos_of_ne_nil present) present) small
  unfold ofString
  rw [visible, if_neg nonempty]
  simp only [stripped]
  split
  · exact ⟨canonical, fun _ => rfl⟩
  · rename_i nonzero
    refine ⟨canonical, fun zero => absurd ?_ nonzero⟩
    exact (isZero_iff (a := { digits := trim (blocks digits.length digits), negative := _ }) canonical).mpr zero

section

variable {made : List BigInt}

theorem operand_normal (normal : ∀ x ∈ made, Normal x) (i : Nat) : Normal (operand made i) := by
  unfold operand
  cases found : made[i]? with
  | none => exact natural_zero.normal
  | some x => exact normal x (mem_of_getElem? found)

theorem isZero_of_divide {a b : BigInt} {q : BigInt} (run : divide a b = .ok q) : b.isZero = false := by
  unfold divide at run
  split at run
  · cases run
  rename_i nonzero
  simpa using nonzero

theorem isZero_of_modulo {a b : BigInt} {r : BigInt} (run : modulo a b = .ok r) : b.isZero = false := by
  unfold modulo at run
  split at run
  · cases run
  rename_i nonzero
  simpa using nonzero

theorem division_normal {a b : BigInt} (canonical : Canonical base a.digits) (canonical' : Canonical base b.digits)
    (nonzero : b.isZero = false) : (∀ q, divide a b = .ok q → Normal q) ∧ ∀ r, modulo a b = .ok r → Normal r := by
  have positive : 0 < b.magnitude := by
    have := (isZero_iff canonical').not.mp (by simp [nonzero])
    omega
  have both {q r : BigInt} (divided : divide a b = .ok q) (rest : modulo a b = .ok r) (normal : Normal q)
      (normal' : Normal r) :
      (∀ q, divide a b = .ok q → Normal q) ∧ ∀ r, modulo a b = .ok r → Normal r := by
    constructor
    · intro q' again
      rw [divided] at again
      cases again
      exact normal
    · intro r' again
      rw [rest] at again
      cases again
      exact normal'
  by_cases less : a.magnitude < b.magnitude
  · obtain ⟨r, divided, rest, normal, _⟩ := divide_modulo_small canonical canonical' less
    exact both divided rest natural_zero.normal normal
  have le := Nat.not_lt.mp less
  by_cases countable : Countable a b
  · obtain ⟨q, r, run, result⟩ := divModLarge_spec canonical canonical' positive le countable
    obtain ⟨q', r', divided, rest, normal, normal', _⟩ := divide_modulo canonical canonical' positive le run result
    exact both divided rest normal normal'
  · rcases divModLarge_truncated canonical canonical' positive le countable with fault | ⟨n, q, r, run, _, result⟩
    · have failed : divMod a b = .error .undefined := by
        rw [divMod_eq canonical canonical' positive, if_neg (by omega), if_neg (by omega), fault]
        rfl
      constructor
      · intro q divided
        rw [divide, if_neg (by simp [nonzero]), failed] at divided
        cases divided
      · intro r rest
        rw [modulo, if_neg (by simp [nonzero]), failed] at rest
        cases rest
    · obtain ⟨q', r', divided, rest, normal, normal', _⟩ := divide_modulo canonical canonical' positive le run result
      exact both divided rest normal normal'

theorem result_normal {call : Call} {x : BigInt} (normal : ∀ x ∈ made, Normal x) (orderly : Orderly made call)
    (result : call.result made = .ok x) : Normal x := by
  cases call with
  | ofInt32 value =>
    cases result
    exact normal_ofInt32 value
  | ofUInt32 value =>
    cases result
    exact (natural_limbs _).normal
  | ofInt64 value =>
    cases result
    exact normal_ofInt64 value
  | ofUInt64 value =>
    cases result
    exact (natural_limbs _).normal
  | ofString text =>
    cases result
    exact normal_ofString orderly
  | neg i =>
    cases result
    exact (neg_spec (operand_normal normal i).canonical).1
  | add i j =>
    obtain ⟨sum, computes, kept⟩ := add_spec (operand_normal normal i).canonical (operand_normal normal j).canonical
    obtain rfl : sum = x := Except.ok.inj (computes.run.symm.trans result)
    exact kept (operand_normal normal i)
  | subtract i j =>
    obtain ⟨difference, computes, kept⟩ :=
      subtract_spec (operand_normal normal i).canonical (operand_normal normal j).canonical
    obtain rfl : difference = x := Except.ok.inj (computes.run.symm.trans result)
    exact kept (operand_normal normal i) (operand_normal normal j) orderly
  | multiply i j =>
    obtain ⟨product, computes, kept⟩ :=
      multiply_value (operand_normal normal i).canonical (operand_normal normal j).canonical
    obtain rfl : product = x := Except.ok.inj (computes.run.symm.trans result)
    exact kept (operand_normal normal i) (operand_normal normal j) orderly
  | divide i j =>
    exact (division_normal (operand_normal normal i).canonical (operand_normal normal j).canonical
      (isZero_of_divide result)).1 x result
  | modulo i j =>
    exact (division_normal (operand_normal normal i).canonical (operand_normal normal j).canonical
      (isZero_of_modulo result)).2 x result

theorem step_normal {call : Call} {made' : List BigInt} (normal : ∀ x ∈ made, Normal x) (orderly : Orderly made call)
    (stepped : step made call = .ok made') : ∀ x ∈ made', Normal x := by
  obtain ⟨result, computed, rest⟩ := bind_ok stepped
  cases rest
  intro x mem
  rcases mem_append.mp mem with before | last
  · exact normal x before
  · rw [mem_singleton.mp last]
    exact result_normal normal orderly computed

def OrderlyRun (calls : List Call) : Prop :=
  ∀ before call rest made, calls = before ++ call :: rest → run before = .ok made → Orderly made call

theorem run_concat (calls : List Call) (call : Call) :
    run (calls ++ [call]) = run calls >>= fun made => step made call := by
  unfold run
  rw [foldlM_append]
  simp only [foldlM_cons, foldlM_nil, bind_pure]

theorem OrderlyRun.concat {calls : List Call} (orderly : OrderlyRun calls) (call : Call)
    (last : ∀ made, run calls = .ok made → Orderly made call) : OrderlyRun (calls ++ [call]) := by
  intro before call' rest made split completed
  rcases eq_nil_or_concat rest with rfl | ⟨rest', last', rfl⟩
  · obtain ⟨rfl, same⟩ := append_inj' split rfl
    cases same
    exact last made completed
  · rw [concat_eq_append, ← cons_append, ← append_assoc] at split
    obtain ⟨rfl, _⟩ := append_inj' split rfl
    exact orderly before call' rest' made rfl completed

theorem run_normal (calls : List Call) (orderly : OrderlyRun calls) (completed : run calls = .ok made) :
    ∀ x ∈ made, Normal x := by
  induction calls using reverseRecOn generalizing made with
  | nil =>
    cases completed
    intro x mem
    exact absurd mem not_mem_nil
  | append_singleton calls call ih =>
    rw [run_concat] at completed
    obtain ⟨made', earlier, stepped⟩ := bind_ok completed
    have normal := ih (fun before call' rest made split =>
      orderly before call' (rest ++ [call]) made (by rw [split]; simp)) earlier
    exact step_normal normal (orderly calls call [] made' rfl earlier) stepped

/-- In a run that subtracts no negative number from itself and multiplies none by zero, every number made
    is normal; comparisons are those of the integers and sums, differences and products are exact. -/
theorem orderly_run_canonical (calls : List Call) (made : List BigInt) (orderly : OrderlyRun calls)
    (completed : run calls = .ok made) :
    (∀ x ∈ made, x.digits ≠ [] ∧ (∀ d ∈ x.digits, d < base) ∧ (1 < x.digits.length → x.digits.getLast? ≠ some 0) ∧
      (x.digits = [0] → x.negative = false)) ∧
    ∀ x ∈ made, ∀ y ∈ made, (equal x y = true ↔ x.value = y.value) ∧ (less x y = true ↔ x.value < y.value) ∧
      (∃ sum, add x y = .ok sum ∧ sum.value = x.value + y.value) ∧
      (∃ difference, subtract x y = .ok difference ∧ difference.value = x.value - y.value) ∧
      ∃ product, multiply x y = .ok product ∧ product.value = x.value * y.value := by
  have normal := run_normal calls orderly completed
  constructor
  · intro x mem
    have canonical := (normal x mem).canonical
    refine ⟨canonical.nonempty, canonical.digits, canonical.leading, fun zero => (normal x mem).zero ?_⟩
    rw [magnitude, zero]
    rfl
  · intro x first y second
    have normal₁ := normal x first
    have normal₂ := normal y second
    obtain ⟨sum, added, _⟩ := add_spec normal₁.canonical normal₂.canonical
    obtain ⟨difference, subtracted, _⟩ := subtract_spec normal₁.canonical normal₂.canonical
    obtain ⟨product, multiplied, _⟩ := multiply_value normal₁.canonical normal₂.canonical
    exact ⟨equal_iff normal₁ normal₂, less_iff normal₁ normal₂, ⟨sum, added.run, added.value⟩,
      ⟨difference, subtracted.run, subtracted.value⟩, product, multiplied.run, multiplied.value⟩

theorem orderly_run_product : let calls : List Call := [.ofInt32 (-5), .ofString [0x2D, 0x37], .multiply 0 1, .subtract 0 1]
    ∃ made, OrderlyRun calls ∧ run calls = .ok made ∧ ∀ x ∈ made, x.digits = [0] → x.negative = false := by
  intro calls
  have empty : OrderlyRun [] := by
    intro before call rest made split
    cases before <;> cases split
  have first := empty.concat (.ofInt32 (-5)) fun _ _ => trivial
  have second := first.concat (.ofString [0x2D, 0x37]) fun _ _ => ⟨[0x37], by simp, by simp, .inr rfl⟩
  have third := second.concat (.multiply 0 1) fun made completed => by
    cases completed
    show ¬ (_ ∧ _)
    decide +kernel
  have fourth := third.concat (.subtract 0 1) fun made completed => by
    have result : run [.ofInt32 (-5), .ofString [0x2D, 0x37], .multiply 0 1] =
        .ok [BigInt.ofInt32 (-5), BigInt.ofInt32 (-7), BigInt.ofInt32 35] := by decide +kernel
    obtain rfl := Except.ok.inj (result.symm.trans completed)
    show ¬ (_ ∧ _)
    decide +kernel
  have completed : run calls = .ok [BigInt.ofInt32 (-5), BigInt.ofInt32 (-7), BigInt.ofInt32 35, BigInt.ofInt32 2] := by
    decide +kernel
  exact ⟨_, fourth, completed, fun x mem => ((orderly_run_canonical calls _ fourth completed).1 x mem).2.2.2⟩

theorem negative_zero : let calls : List Call := [.ofInt32 (-5), .ofInt32 0, .multiply 0 1, .subtract 0 0]
    ∃ made, run calls = .ok made ∧ operand made 2 = { digits := [0], negative := true } ∧
      operand made 3 = { digits := [0], negative := true } ∧ equal (operand made 2) (operand made 1) = false ∧
      less (operand made 2) (operand made 1) = true ∧ (operand made 2).value = (operand made 1).value := by
  exact ⟨[BigInt.ofInt32 (-5), BigInt.ofInt32 0, { digits := [0], negative := true }, { digits := [0], negative := true }],
    by decide +kernel⟩

end

end NginBase.Math.BigInt
