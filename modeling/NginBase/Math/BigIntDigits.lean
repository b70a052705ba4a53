import NginBase.Math.BigInt

namespace NginBase.Math

open Library List Nat

theorem base_large : 1 < base := by decide

def Limbs (ds : List Nat) : Prop := ∀ d ∈ ds, d < base

variable {ds : List Nat}

theorem Limbs.cons {d : Nat} (small : d < base) (rest : Limbs ds) : Limbs (d :: ds) :=
  forall_mem_cons.mpr ⟨small, rest⟩

section

variable (limbs : Limbs ds)

include limbs

theorem Limbs.head : ds.headD 0 < base := headD_lt (by decide) limbs

theorem Limbs.tail : Limbs ds.tail := tail_lt limbs

theorem Limbs.take (n : Nat) : Limbs (ds.take n) :=
  fun d mem => limbs d (mem_of_mem_take mem)

theorem Limbs.drop (n : Nat) : Limbs (ds.drop n) :=
  fun d mem => limbs d (mem_of_mem_drop mem)

theorem Limbs.lt : ofDigits base ds < base ^ ds.length :=
  ofDigits_lt base_large limbs

end

theorem wide_ok {value : Nat} (small : value < 2 ^ 64) : wide value = .ok value := if_pos small

theorem narrow_ok {value : Nat} (small : value < 2 ^ 32) : narrow value = .ok value := if_pos small

variable {a b : List Nat}

theorem addLoop_spec (rounds : Nat) {carry : Nat} (short : a.length ≤ rounds) (short' : b.length ≤ rounds)
    (limbs : Limbs a) (limbs' : Limbs b) (bit : carry ≤ 1) :
    ∃ sum, addLoop rounds a b carry = .ok sum ∧ Limbs sum ∧ rounds ≤ sum.length ∧ sum.length ≤ rounds + 1 ∧
      ofDigits base sum = ofDigits base a + ofDigits base b + carry := by
  induction rounds generalizing a b carry with
  | zero =>
    rw [length_eq_zero_iff.mp (le_zero.mp short), length_eq_zero_iff.mp (le_zero.mp short')]
    obtain ⟨value, digits, _, _⟩ := splitDigits_spec base_large carry carry (le_refl _)
    refine ⟨_, rfl, digits, zero_le _, ?_, by simp [value]⟩
    rcases le_one_iff_eq_zero_or_eq_one.mp bit with rfl | rfl <;> decide
  | succ rounds ih =>
    have first := limbs.head
    have second := limbs'.head
    have value := ofDigits_headD (b := base) a
    have value' := ofDigits_headD (b := base) b
    have small : a.headD 0 + b.headD 0 + carry < 2 * base := by omega
    have next : (a.headD 0 + b.headD 0 + carry) / base ≤ 1 := by
      rw [← Nat.lt_succ_iff, Nat.div_lt_iff_lt_mul (by decide)]
      exact small
    obtain ⟨rest, run, digits, least, most, total⟩ := ih (a := a.tail) (b := b.tail) (by rw [length_tail]; omega)
      (by rw [length_tail]; omega) limbs.tail limbs'.tail next
    refine ⟨(a.headD 0 + b.headD 0 + carry) % base :: rest, ?_, ?_, ?_, ?_, ?_⟩
    · rw [addLoop, wide_ok (small.trans (by decide)), ok_bind, run]
      rfl
    · exact digits.cons (mod_lt _ (by decide))
    · rw [length_cons]
      omega
    · rw [length_cons]
      omega
    · have split := mod_add_div (a.headD 0 + b.headD 0 + carry) base
      rw [ofDigits_cons, total, mul_add, mul_add]
      omega

theorem addDigits_spec (limbs : Limbs a) (limbs' : Limbs b) :
    ∃ sum, addDigits a b = .ok sum ∧ Limbs sum ∧ max a.length b.length ≤ sum.length ∧
      sum.length ≤ max a.length b.length + 1 ∧
      ofDigits base sum = ofDigits base a + ofDigits base b :=
  addLoop_spec _ (le_max_left _ _) (le_max_right _ _) limbs limbs' (zero_le 1)

theorem borrow_enough {d e borrow x y : Nat} (less : d < e + borrow) (le : e + base * y + borrow ≤ d + base * x) :
    y + 1 ≤ x := by
  unfold base at le
  omega

theorem no_borrow_enough {d e borrow x y : Nat} (small : d < base) (le : e + base * y + borrow ≤ d + base * x) : y ≤ x := by
  unfold base at small le
  omega

theorem subtractLoop_spec {borrow : Nat} (short : b.length ≤ a.length) (limbs : Limbs a) (limbs' : Limbs b)
    (bit : borrow ≤ 1) (le : ofDigits base b + borrow ≤ ofDigits base a) :
    ∃ difference, subtractLoop a b borrow = .ok difference ∧ Limbs difference ∧ difference.length = a.length ∧
      ofDigits base difference + ofDigits base b + borrow = ofDigits base a := by
  induction a generalizing b borrow with
  | nil =>
    rw [length_eq_zero_iff.mp (le_zero.mp short)] at le ⊢
    obtain rfl : borrow = 0 := by simpa using le
    exact ⟨[], rfl, limbs, rfl, rfl⟩
  | cons d a ih =>
    have first : d < base := limbs d mem_cons_self
    have second := limbs'.head
    have shorter : b.tail.length ≤ a.length := by
      rw [length_tail]
      rw [length_cons] at short
      omega
    rw [ofDigits_headD b] at le
    rw [subtractLoop, ofDigits_cons, ofDigits_headD b]
    generalize b.headD 0 = e at second le ⊢
    by_cases less : d < e + borrow
    · -- the next round takes one more off
      obtain ⟨rest, run, digits, length, total⟩ :=
        ih shorter limbs.tail limbs'.tail (le_refl 1) (borrow_enough less le)
      have negative : (d : Int) - e - borrow < 0 := by omega
      have positive : ¬ (d : Int) - e - borrow + base < 0 := by omega
      have digit : ((d : Int) - e - borrow + base).toNat = d + base - e - borrow := by omega
      refine ⟨(d + base - e - borrow) :: rest, ?_, digits.cons (by omega), by simp [length], ?_⟩
      · simp only [if_pos negative, if_neg positive, run, ok_bind, pure_eq_ok, digit]
      · rw [ofDigits_cons, ← total, mul_add, mul_add]
        omega
    · obtain ⟨rest, run, digits, length, total⟩ :=
        ih shorter limbs.tail limbs'.tail (zero_le 1) (no_borrow_enough first le)
      have positive : ¬ (d : Int) - e - borrow < 0 := by omega
      have digit : ((d : Int) - e - borrow).toNat = d - e - borrow := by omega
      refine ⟨(d - e - borrow) :: rest, ?_, digits.cons (by omega), by simp [length], ?_⟩
      · simp only [if_neg positive, run, ok_bind, pure_eq_ok, digit]
      · rw [ofDigits_cons, ← total, mul_add, mul_add]
        omega

theorem subtractDigits_spec (canonical : Canonical base a) (canonical' : Canonical base b)
    (le : ofDigits base b ≤ ofDigits base a) :
    ∃ difference, subtractDigits a b = .ok difference ∧ Canonical base difference ∧
      ofDigits base difference + ofDigits base b = ofDigits base a := by
  obtain ⟨difference, run, limbs, length, value⟩ := subtractLoop_spec
    (canonical'.length_le base_large canonical.digits canonical.nonempty le) canonical.digits canonical'.digits
    (zero_le 1) le
  have nonempty : difference ≠ [] := by
    rw [← length_pos_iff, length]
    exact length_pos_of_ne_nil canonical.nonempty
  refine ⟨trim difference, ?_, trim_canonical nonempty limbs, by rw [ofDigits_trim]; exact value⟩
  rw [subtractDigits, run]
  rfl

theorem product_bound {r x y carry : Nat} (hr : r < base) (hx : x < base) (hy : y < base) (hc : carry < base) :
    r + x * y + carry < base * base := by
  unfold base at *
  have product : x * y ≤ 999999999 * 999999999 := Nat.mul_le_mul (by omega) (by omega)
  omega

theorem multiplyRow_spec {x carry : Nat} {result : List Nat} (hx : x < base) (hc : carry < base)
    (limbs : Limbs result) (limbs' : Limbs b) (short : b.length ≤ result.length)
    (room : ofDigits base result + x * ofDigits base b + carry < base ^ result.length) :
    ∃ row, multiplyRow x result b carry = .ok row ∧ Limbs row ∧ row.length = result.length ∧
      ofDigits base row = ofDigits base result + x * ofDigits base b + carry := by
  induction result generalizing b carry with
  | nil =>
    rw [length_eq_zero_iff.mp (le_zero.mp short)] at room ⊢
    obtain rfl : carry = 0 := by simpa using room
    exact ⟨[], rfl, limbs, rfl, by simp⟩
  | cons r result ih =>
    rw [multiplyRow]
    by_cases done : b = [] ∧ carry = 0
    · obtain ⟨rfl, rfl⟩ := done
      exact ⟨r :: result, rfl, limbs, rfl, by simp⟩
    have bound := product_bound (limbs r mem_cons_self) hx limbs'.head hc
    have value := ofDigits_headD (b := base) b
    have split := mod_add_div (r + x * b.headD 0 + carry) base
    have next : (r + x * b.headD 0 + carry) / base < base := (div_lt_iff_lt_mul (by decide)).mpr bound
    have total : ofDigits base (r :: result) + x * ofDigits base b + carry =
        (r + x * b.headD 0 + carry) % base +
          base * (ofDigits base result + x * ofDigits base b.tail + (r + x * b.headD 0 + carry) / base) := by
      rw [ofDigits_cons]
      nlinarith [split]
    have room' : ofDigits base result + x * ofDigits base b.tail + (r + x * b.headD 0 + carry) / base <
        base ^ result.length := by
      rw [total, length_cons, pow_succ, mul_comm (base ^ _)] at room
      exact Nat.lt_of_mul_lt_mul_left (Nat.lt_of_le_of_lt (Nat.le_add_left _ _) room)
    have shorter : b.tail.length ≤ result.length := by
      rw [length_tail]
      rw [length_cons] at short
      omega
    obtain ⟨row, run, digits, length, sum⟩ := ih next limbs.tail limbs'.tail shorter room'
    refine ⟨(r + x * b.headD 0 + carry) % base :: row, ?_, digits.cons (mod_lt _ (by decide)), by simp [length], ?_⟩
    · rw [if_neg done, wide_ok (bound.trans (by decide)), ok_bind, run]
      rfl
    · rw [ofDigits_cons, sum, total]

theorem schoolbook_spec {result : List Nat} (limbs : Limbs a) (limbs' : Limbs b) (limbs'' : Limbs result)
    (long : a.length + b.length ≤ result.length)
    (room : ofDigits base result + ofDigits base a * ofDigits base b < base ^ result.length) :
    ∃ product, schoolbook b a result = .ok product ∧ Limbs product ∧ product.length = result.length ∧
      ofDigits base product = ofDigits base result + ofDigits base a * ofDigits base b := by
  induction a generalizing result with
  | nil => exact ⟨result, rfl, limbs'', rfl, by simp⟩
  | cons x a ih =>
    rw [length_cons] at long
    rw [ofDigits_cons, add_mul] at room ⊢
    obtain ⟨row, run, digits, length, value⟩ := multiplyRow_spec (limbs x mem_cons_self) (by decide : 0 < base)
      limbs'' limbs' (by omega) (by omega)
    rw [schoolbook, run, ok_bind]
    cases row with
    | nil =>
      rw [length_nil] at length
      omega
    | cons r row =>
      rw [ofDigits_cons] at value
      rw [length_cons] at length
      have total : ofDigits base result + (x * ofDigits base b + base * ofDigits base a * ofDigits base b) =
          r + base * (ofDigits base row + ofDigits base a * ofDigits base b) := by
        rw [mul_add, ← mul_assoc]
        omega
      have room' : ofDigits base row + ofDigits base a * ofDigits base b < base ^ row.length := by
        rw [total, ← length, pow_succ, mul_comm (base ^ _)] at room
        exact Nat.lt_of_mul_lt_mul_left (Nat.lt_of_le_of_lt (Nat.le_add_left _ _) room)
      have inner : Limbs row := digits.tail
      obtain ⟨rest, run', digits', length', value'⟩ := ih limbs.tail inner (by omega) room'
      refine ⟨r :: rest, ?_, digits'.cons (digits r mem_cons_self), by rw [length_cons, length', length], ?_⟩
      · dsimp only
        rw [run']
        rfl
      · rw [ofDigits_cons, value', total]

section

variable {result : List Nat}

theorem accumulate_spec {z : List Nat} {bound : Nat} (limbs : Limbs z) (small : ∀ r ∈ result, r < bound)
    (fits : bound + base ≤ 2 ^ 32) (short : z.length ≤ result.length) :
    ∃ sum, accumulate z result = .ok sum ∧ (∀ r ∈ sum, r < bound + base) ∧ sum.length = result.length ∧
      ofDigits base sum = ofDigits base result + ofDigits base z := by
  induction z generalizing result with
  | nil =>
    refine ⟨result, rfl, ?_, rfl, by simp⟩
    intro r mem
    have := small r mem
    omega
  | cons d z ih =>
    cases result with
    | nil => simp at short
    | cons r result =>
      have first : d < base := limbs d mem_cons_self
      have second : r < bound := small r mem_cons_self
      obtain ⟨sum, run, bounded, length, value⟩ := ih limbs.tail
        (fun r mem => small r (mem_cons_of_mem _ mem)) (by simpa using short)
      refine ⟨(r + d) :: sum, ?_, ?_, by simp [length], ?_⟩
      · rw [accumulate, narrow_ok (by omega), run]
        rfl
      · rw [forall_mem_cons]
        exact ⟨by omega, bounded⟩
      · rw [ofDigits_cons, ofDigits_cons, ofDigits_cons, value, mul_add]
        omega

theorem accumulateAt_spec {z : List Nat} {offset bound : Nat} (limbs : Limbs z) (small : ∀ r ∈ result, r < bound)
    (fits : bound + base ≤ 2 ^ 32) (short : offset + z.length ≤ result.length) :
    ∃ sum, accumulateAt offset z result = .ok sum ∧ (∀ r ∈ sum, r < bound + base) ∧ sum.length = result.length ∧
      ofDigits base sum = ofDigits base result + base ^ offset * ofDigits base z := by
  have small' : ∀ r ∈ result.drop offset, r < bound := fun r mem => small r (mem_of_mem_drop mem)
  obtain ⟨upper, run, bounded, length, value⟩ :=
    accumulate_spec limbs small' fits (by rw [length_drop]; omega)
  have front : (result.take offset).length = offset := by
    rw [length_take]
    omega
  refine ⟨result.take offset ++ upper, by rw [accumulateAt, run]; rfl, ?_, ?_, ?_⟩
  · intro r mem
    rcases mem_append.mp mem with before | after
    · have := small r (mem_of_mem_take before)
      omega
    · exact bounded r after
  · rw [length_append, length, length_drop]
    omega
  · have whole : ofDigits base (result.take offset ++ result.drop offset) = _ := ofDigits_append
    rw [take_append_drop, front] at whole
    rw [ofDigits_append, front, value, whole, mul_add, add_assoc]

theorem propagate_spec {carry : Nat} (small : ∀ r ∈ result, r < 2 ^ 32) (hc : carry < 2 ^ 32) :
    ∃ normal left, propagate result carry = .ok normal ∧ Limbs normal ∧ normal.length = result.length ∧
      ofDigits base normal + base ^ result.length * left = ofDigits base result + carry := by
  induction result generalizing carry with
  | nil => exact ⟨[], carry, rfl, by simp [Limbs], rfl, by simp⟩
  | cons r result ih =>
    have first : r < 2 ^ 32 := small r mem_cons_self
    have next : (r + carry) / base < 2 ^ 32 := by
      rw [div_lt_iff_lt_mul (by decide)]
      exact lt_of_lt_of_le (by omega : r + carry < 2 ^ 33) (by decide)
    obtain ⟨normal, left, run, limbs, length, value⟩ := ih (fun r mem => small r (mem_cons_of_mem _ mem)) next
    have split := mod_add_div (r + carry) base
    refine ⟨(r + carry) % base :: normal, left, ?_, limbs.cons (mod_lt _ (by decide)), by simp [length], ?_⟩
    · rw [propagate, wide_ok (by omega), ok_bind, run]
      rfl
    · rw [ofDigits_cons, ofDigits_cons, length_cons, pow_succ, mul_comm (base ^ _) base, mul_assoc,
        add_assoc, ← mul_add, value, mul_add]
      omega

structure Product (a b product : List Nat) : Prop where
  limbs : Limbs product
  leading : 1 < product.length → product.getLast? ≠ some 0
  value : ofDigits base product = ofDigits base a * ofDigits base b
  nonempty : a ≠ [] ∨ b ≠ [] → product ≠ []

theorem Product.canonical {a b product : List Nat} (h : Product a b product) (some : a ≠ [] ∨ b ≠ []) :
    Canonical base product :=
  ⟨h.nonempty some, h.limbs, h.leading⟩

theorem product_of_trim {a b : List Nat} (limbs : Limbs result) (length : result.length = a.length + b.length)
    (value : ofDigits base result = ofDigits base a * ofDigits base b) : Product a b (trim result) := by
  have kept (some : result ≠ []) : Canonical base (trim result) := trim_canonical some limbs
  constructor
  · intro d mem
    exact limbs d ((isPrefix_trim result).subset mem)
  · intro long
    apply (kept _).leading long
    intro empty
    rw [empty, trim, length_nil] at long
    omega
  · rw [ofDigits_trim, value]
  · intro some
    apply (kept _).nonempty
    rw [← length_pos_iff]
    rcases some with some | some
    · have := length_pos_of_ne_nil some
      omega
    · have := length_pos_of_ne_nil some
      omega

theorem ofDigits_halves (half : Nat) (a : List Nat) :
    ofDigits base a = ofDigits base (a.take half) + base ^ half * ofDigits base (a.drop half) := by
  rcases le_total half a.length with long | short
  · have whole : ofDigits base (a.take half ++ a.drop half) = _ := ofDigits_append
    rwa [take_append_drop, length_take, min_eq_left long] at whole
  · rw [take_of_length_le short, drop_of_length_le short, ofDigits_nil, mul_zero, add_zero]

theorem shifted_length {a b z : List Nat} (offset : Nat) (limbs : Limbs a) (limbs' : Limbs b)
    (canonical : Canonical base z) (room : offset < a.length + b.length)
    (le : base ^ offset * ofDigits base z ≤ ofDigits base a * ofDigits base b) :
    offset + z.length ≤ a.length + b.length := by
  have product : ofDigits base a * ofDigits base b < base ^ (a.length + b.length) := by
    rw [pow_add]
    exact mul_lt_mul'' limbs.lt limbs'.lt
  have split : base ^ (a.length + b.length) = base ^ offset * base ^ (a.length + b.length - offset) := by
    rw [← pow_add]
    congr 1
    omega
  have small : ofDigits base z < base ^ (a.length + b.length - offset) := by
    rw [split] at product
    exact Nat.lt_of_mul_lt_mul_left (Nat.lt_of_le_of_lt le product)
  have length := canonical.length_le_pow base_large (by omega) small
  omega

theorem cross_terms (p q r s power : Nat) :
    (p + power * q) * (r + power * s) = p * r + power * (p * s + q * r) + power ^ 2 * (q * s) := by
  ring

theorem karatsuba_spec {multiply : List Nat → List Nat → Except Fault (List Nat)} {a b : List Nat} (limbs : Limbs a)
    (limbs' : Limbs b) (long : 32 ≤ a.length) (long' : 32 ≤ b.length)
    (shorter : ∀ x y, Limbs x → Limbs y → max x.length y.length < max a.length b.length →
      ∃ product, multiply x y = .ok product ∧ Product x y product) :
    ∃ product, karatsuba multiply a b = .ok product ∧ Product a b product := by
  unfold karatsuba
  dsimp only
  have halved : 16 ≤ max a.length b.length / 2 ∧ 2 * (max a.length b.length / 2) ≤ max a.length b.length ∧
      max a.length b.length < 2 * (max a.length b.length / 2) + 2 := by omega
  generalize max a.length b.length / 2 = half at halved ⊢
  have low : (a.take half).length ≤ half := length_take_le _ _
  have low' : (b.take half).length ≤ half := length_take_le _ _
  have high : (a.drop half).length = a.length - half := length_drop
  have high' : (b.drop half).length = b.length - half := length_drop
  have some : a.take half ≠ [] := by
    rw [← length_pos_iff, length_take]
    omega
  have some' : a.drop half ≠ [] ∨ b.drop half ≠ [] := by
    rw [← length_pos_iff, ← length_pos_iff]
    omega
  have value := ofDigits_halves half a
  have value' := ofDigits_halves half b
  obtain ⟨z0, run₀, product₀⟩ := shorter _ _ (limbs.take half) (limbs'.take half) (by omega)
  obtain ⟨z2, run₂, product₂⟩ := shorter _ _ (limbs.drop half) (limbs'.drop half) (by omega)
  obtain ⟨aSum, runA, limbsA, atLeast, atMost, valueA⟩ := addDigits_spec (limbs.take half) (limbs.drop half)
  obtain ⟨bSum, runB, limbsB, _, atMost', valueB⟩ := addDigits_spec (limbs'.take half) (limbs'.drop half)
  obtain ⟨z1, run₁, product₁⟩ := shorter _ _ limbsA limbsB (by omega)
  have nonempty : aSum ≠ [] := by
    rw [← length_pos_iff]
    have := length_pos_of_ne_nil some
    omega
  have value₀ := product₀.value
  have value₁ := product₁.value
  have value₂ := product₂.value
  rw [valueA, valueB] at value₁
  have canonical₀ := product₀.canonical (.inl some)
  have canonical₂ := product₂.canonical some'
  generalize ofDigits base (a.take half) = p at *
  generalize ofDigits base (a.drop half) = q at *
  generalize ofDigits base (b.take half) = r at *
  generalize ofDigits base (b.drop half) = s at *
  have expanded : (p + q) * (r + s) = p * r + (p * s + q * r) + q * s := by ring
  obtain ⟨z1', run₁', canonical₁', value₁'⟩ := subtractDigits_spec (product₁.canonical (.inl nonempty)) canonical₀ (by omega)
  obtain ⟨z1'', run₁'', canonical₁, value₁''⟩ := subtractDigits_spec canonical₁' canonical₂ (by omega)
  have cross : ofDigits base z1'' = p * s + q * r := by omega
  have total : ofDigits base a * ofDigits base b =
      ofDigits base z0 + base ^ half * ofDigits base z1'' + base ^ (2 * half) * ofDigits base z2 := by
    rw [value, value', cross_terms, value₀, cross, value₂, mul_comm 2 half, pow_mul]
  have length₀ := shifted_length 0 limbs limbs' canonical₀ (by omega) (by rw [pow_zero]; omega)
  have length₁ := shifted_length half limbs limbs' canonical₁ (by omega) (by omega)
  have length₂ := shifted_length (2 * half) limbs limbs' canonical₂ (by omega) (by omega)
  rw [run₀, ok_bind, run₂, ok_bind, runA, ok_bind, runB, ok_bind, run₁, ok_bind, run₁', ok_bind, run₁'', ok_bind]
  have zeros : ∀ d ∈ replicate (a.length + b.length) 0, d < 1 := by
    intro d mem
    rw [eq_of_mem_replicate mem]
    exact one_pos
  obtain ⟨sum₀, added₀, bound₀, size₀, sumValue₀⟩ := accumulateAt_spec canonical₀.digits zeros (by decide)
    (by rw [length_replicate]; exact length₀)
  rw [length_replicate] at size₀
  obtain ⟨sum₁, added₁, bound₁, size₁, sumValue₁⟩ := accumulateAt_spec canonical₁.digits bound₀ (by decide)
    (by rw [size₀]; exact length₁)
  obtain ⟨sum₂, added₂, bound₂, size₂, sumValue₂⟩ := accumulateAt_spec canonical₂.digits bound₁ (by decide)
    (by rw [size₁, size₀]; exact length₂)
  rw [ofDigits_replicate_zero, zero_add, pow_zero, one_mul] at sumValue₀
  have limbs32 : ∀ d ∈ sum₂, d < 2 ^ 32 := fun d mem => (bound₂ d mem).trans (by decide)
  obtain ⟨normal, left, propagated, limbs'', size₃, normalValue⟩ := propagate_spec limbs32 (by decide : 0 < 2 ^ 32)
  rw [added₀, ok_bind, added₁, ok_bind, added₂, ok_bind, propagated]
  have size : sum₂.length = a.length + b.length := by rw [size₂, size₁, size₀]
  have sumValue : ofDigits base sum₂ = ofDigits base a * ofDigits base b := by
    rw [sumValue₂, sumValue₁, sumValue₀, total]
  -- the product leaves no carry behind the last limb
  have room : ofDigits base a * ofDigits base b < base ^ (a.length + b.length) := by
    rw [pow_add]
    exact mul_lt_mul'' limbs.lt limbs'.lt
  have none : left = 0 := by
    rw [size] at normalValue
    by_contra more
    have power := Nat.le_mul_of_pos_right (base ^ (a.length + b.length)) (Nat.pos_of_ne_zero more)
    omega
  rw [none, sumValue] at normalValue
  exact ⟨trim normal, rfl, product_of_trim limbs'' (size₃.trans size) normalValue⟩

end

theorem multiplyLoop_spec (fuel : Nat) (limbs : Limbs a) (limbs' : Limbs b) (enough : max a.length b.length < fuel) :
    ∃ product, multiplyLoop fuel a b = .ok product ∧ Product a b product := by
  induction fuel generalizing a b with
  | zero => omega
  | succ fuel ih =>
    unfold multiplyLoop
    by_cases zero : a = [0] ∨ b = [0]
    · rw [if_pos zero]
      refine ⟨[0], rfl, fun d mem => ?_, by simp, ?_, by simp⟩
      · rw [mem_singleton.mp mem]
        decide
      · rcases zero with rfl | rfl <;> simp
    · rw [if_neg zero]
      by_cases small : a.length < 32 ∨ b.length < 32
      · rw [if_pos small]
        have room : ofDigits base a * ofDigits base b < base ^ (a.length + b.length) := by
          rw [pow_add]
          exact mul_lt_mul'' limbs.lt limbs'.lt
        have zeros : Limbs (replicate (a.length + b.length) 0) := by
          intro d mem
          rw [eq_of_mem_replicate mem]
          decide
        obtain ⟨product, run, limbs'', length, value⟩ := schoolbook_spec limbs limbs' zeros
          (by rw [length_replicate]) (by rwa [ofDigits_replicate_zero, zero_add, length_replicate])
        rw [ofDigits_replicate_zero, zero_add] at value
        rw [length_replicate] at length
        exact ⟨trim product, by rw [run]; rfl, product_of_trim limbs'' length value⟩
      · rw [if_neg small]
        push Not at small
        refine karatsuba_spec limbs limbs' small.1 small.2 ?_
        intro x y hx hy shorter
        exact ih hx hy (by omega)

theorem multiplyDigits_spec (canonical : Canonical base a) (canonical' : Canonical base b) :
    ∃ product, multiplyDigits a b = .ok product ∧ Canonical base product ∧
      ofDigits base product = ofDigits base a * ofDigits base b := by
  obtain ⟨product, run, result⟩ := multiplyLoop_spec _ canonical.digits canonical'.digits (lt_succ_self _)
  exact ⟨product, run, result.canonical (.inl canonical.nonempty), result.value⟩

/-- The product of any two lists of limbs is computed without a fault, and it is exact and normalised. -/
theorem multiplyDigits_exact (a b : List Nat) (limbs : Limbs a) (limbs' : Limbs b) :
    ∃ product, multiplyDigits a b = .ok product ∧ Product a b product :=
  multiplyLoop_spec _ limbs limbs' (lt_succ_self _)

theorem multiplyDigits_exact_unbalanced : Limbs (replicate 70 999999999) ∧ Limbs (replicate 40 999999999) ∧
      ∃ product, multiplyDigits (replicate 70 999999999) (replicate 40 999999999) = .ok product ∧
        Product (replicate 70 999999999) (replicate 40 999999999) product := by
  have limbs (n : Nat) : Limbs (replicate n 999999999) := by
    intro d mem
    rw [eq_of_mem_replicate mem]
    decide
  exact ⟨limbs 70, limbs 40, multiplyDigits_exact _ _ (limbs 70) (limbs 40)⟩

end NginBase.Math
