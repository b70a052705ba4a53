import Mathlib

namespace Library

open List Nat

/-! Numbers as lists of digits in a base, the least significant digit first. Their value is
`Nat.ofDigits`. -/

section

def trim : List Nat → List Nat
  | [] => []
  | d :: rest => d :: rest.rdropWhile (· = 0)

def lexLess : List Nat → List Nat → Bool
  | x :: xs, y :: ys => if x ≠ y then x < y else lexLess xs ys
  | _, _ => false

def splitDigits (b : Nat) : Nat → Nat → List Nat
  | 0, _ => []
  | fuel + 1, n => if n = 0 then [] else n % b :: splitDigits b fuel (n / b)

/-- The digits that represent a number: at least one, and no leading zero unless it is the only one. -/
structure Canonical (b : Nat) (ds : List Nat) : Prop where
  nonempty : ds ≠ []
  digits : ∀ d ∈ ds, d < b
  leading : 1 < ds.length → ds.getLast? ≠ some 0

variable {b : Nat} {ds es : List Nat}

theorem ofDigits_headD (ds : List Nat) : ofDigits b ds = ds.headD 0 + b * ofDigits b ds.tail := by
  cases ds with
  | nil => rfl
  | cons d rest => exact ofDigits_cons

theorem headD_lt (positive : 0 < b) (digits : ∀ d ∈ ds, d < b) : ds.headD 0 < b := by
  cases ds with
  | nil => exact positive
  | cons d rest => exact digits d mem_cons_self

theorem tail_lt (digits : ∀ d ∈ ds, d < b) : ∀ d ∈ ds.tail, d < b :=
  fun d mem => digits d (mem_of_mem_tail mem)

theorem ofDigits_rdropWhile (ds : List Nat) : ofDigits b (ds.rdropWhile (· = 0)) = ofDigits b ds := by
  induction ds using reverseRecOn with
  | nil => rfl
  | append_singleton ds d ih =>
    by_cases zero : d = 0
    · subst zero
      rw [rdropWhile_concat_pos _ _ _ (by simp), ih, ofDigits_append_zero]
    · rw [rdropWhile_concat_neg _ _ _ (by simpa using zero)]

@[simp] theorem ofDigits_trim (ds : List Nat) : ofDigits b (trim ds) = ofDigits b ds := by
  cases ds with
  | nil => rfl
  | cons d rest => rw [trim, ofDigits_cons, ofDigits_cons, ofDigits_rdropWhile]

theorem isPrefix_trim (ds : List Nat) : trim ds <+: ds := by
  cases ds with
  | nil => exact prefix_rfl
  | cons d rest => exact (prefix_cons_inj d).mpr ( rdropWhile_prefix _ _)

theorem trim_canonical (nonempty : ds ≠ []) (digits : ∀ d ∈ ds, d < b) : Canonical b (trim ds) := by
  have inside := isPrefix_trim ds
  cases ds with
  | nil => exact absurd rfl nonempty
  | cons d rest =>
    constructor
    · exact cons_ne_nil _ _
    · intro e mem
      exact digits e (inside.subset mem)
    · intro long last
      rw [trim, length_cons] at long
      have more : rest.rdropWhile (· = 0) ≠ [] := ne_nil_of_length_pos (by omega)
      have top := rdropWhile_last_not _ _ more
      rw [trim, getLast?_cons, getLast?_eq_getLast_of_ne_nil more] at last
      exact top (by simpa using last)

theorem Canonical.trim_eq (canonical : Canonical b ds) : trim ds = ds := by
  cases ds with
  | nil => rfl
  | cons d rest =>
    rw [trim, cons.injEq]
    refine ⟨rfl, rdropWhile_eq_self_iff.mpr ?_⟩
    intro more zero
    have long : 1 < (d :: rest).length := by
      have := length_pos_of_ne_nil more
      rw [length_cons]
      omega
    apply canonical.leading long
    rw [getLast?_cons, getLast?_eq_getLast_of_ne_nil more]
    simpa using zero

theorem ofDigits_lt (large : 1 < b) (digits : ∀ d ∈ ds, d < b) : ofDigits b ds < b ^ ds.length :=
  ofDigits_lt_base_pow_length large digits

theorem Canonical.lower (canonical : Canonical b ds) (long : 1 < ds.length) : b ^ (ds.length - 1) ≤ ofDigits b ds := by
  have split := dropLast_append_getLast canonical.nonempty
  have top : ds.getLast canonical.nonempty ≠ 0 := by
    intro zero
    apply canonical.leading long
    rw [getLast?_eq_getLast_of_ne_nil canonical.nonempty, zero]
  rw [← split, ofDigits_append, ofDigits_singleton, length_append, length_dropLast,
    List.length_singleton, Nat.add_sub_cancel]
  exact (Nat.le_mul_of_pos_right _ (Nat.pos_of_ne_zero top)).trans (Nat.le_add_left _ _)

section

variable (large : 1 < b)

include large

theorem Canonical.length_le {es : List Nat} (canonical : Canonical b ds) (digits : ∀ d ∈ es, d < b)
    (nonempty : es ≠ []) (le : ofDigits b ds ≤ ofDigits b es) : ds.length ≤ es.length := by
  by_contra longer
  have positive := length_pos_of_ne_nil nonempty
  have lower := canonical.lower (by omega)
  have upper := ofDigits_lt large digits
  have power : b ^ es.length ≤ b ^ (ds.length - 1) := Nat.pow_le_pow_right (by omega) (by omega)
  omega

theorem Canonical.length_le_pow {n : Nat} (canonical : Canonical b ds) (positive : 0 < n)
    (small : ofDigits b ds < b ^ n) : ds.length ≤ n := by
  by_contra longer
  have lower := canonical.lower (by omega)
  have power : b ^ n ≤ b ^ (ds.length - 1) := Nat.pow_le_pow_right (by omega) (by omega)
  omega

theorem canonical_zero : Canonical b [0] :=
  ⟨cons_ne_nil _ _, by simp; omega, by simp⟩

theorem Canonical.zero_iff (canonical : Canonical b ds) : ofDigits b ds = 0 ↔ ds = [0] := by
  constructor
  · intro zero
    by_cases long : 1 < ds.length
    · have lower := canonical.lower long
      have power : 0 < b ^ (ds.length - 1) := Nat.pow_pos (by omega)
      omega
    · obtain ⟨d, rfl⟩ := length_eq_one_iff.mp
        (le_antisymm (not_lt.mp long) (length_pos_of_ne_nil canonical.nonempty))
      simpa using zero
  · intro same
    rw [same, ofDigits_singleton]

theorem Canonical.unique (canonical : Canonical b ds) (canonical' : Canonical b es)
    (same : ofDigits b ds = ofDigits b es) : ds = es := by
  have length : ds.length = es.length :=
    le_antisymm (canonical.length_le large canonical'.digits canonical'.nonempty same.le)
      (canonical'.length_le large canonical.digits canonical.nonempty same.ge)
  exact ofDigits_inj_of_len_eq large length canonical.digits canonical'.digits same

theorem lexLess_iff (length : ds.length = es.length) (digits : ∀ d ∈ ds, d < b) (digits' : ∀ d ∈ es, d < b) :
    lexLess ds es = true ↔ ofDigits b ds.reverse < ofDigits b es.reverse := by
  induction ds generalizing es with
  | nil =>
    cases es with
    | nil => simp [lexLess]
    | cons e es => simp at length
  | cons d ds ih =>
    cases es with
    | nil => simp at length
    | cons e es =>
      rw [length_cons, length_cons, add_right_cancel_iff] at length
      have below : ofDigits b ds.reverse < b ^ ds.reverse.length := ofDigits_lt large fun x mem =>
        digits x (mem_cons_of_mem _ (mem_reverse.mp mem))
      have below' : ofDigits b es.reverse < b ^ es.reverse.length := ofDigits_lt large fun x mem =>
        digits' x (mem_cons_of_mem _ (mem_reverse.mp mem))
      rw [length_reverse] at below below'
      rw [← length] at below'
      rw [ofDigits_reverse_cons, ofDigits_reverse_cons, ← length, lexLess]
      rcases lt_trichotomy d e with less | rfl | more
      · have gap : b ^ ds.length * (d + 1) ≤ b ^ ds.length * e := mul_le_mul_left _ less
        rw [mul_add] at gap
        rw [if_pos less.ne, decide_eq_true_iff]
        constructor
        · intro _
          omega
        · intro _
          exact less
      · rw [if_neg (not_not.mpr rfl), add_lt_add_iff_right]
        exact ih length (fun x mem => digits x (mem_cons_of_mem _ mem))
          fun x mem => digits' x (mem_cons_of_mem _ mem)
      · have gap : b ^ ds.length * (e + 1) ≤ b ^ ds.length * d := mul_le_mul_left _ more
        rw [mul_add] at gap
        rw [if_pos more.ne', decide_eq_true_iff]
        constructor
        · intro less
          omega
        · intro less
          omega

end

def digitsLess (ds es : List Nat) : Bool :=
  if ds.length ≠ es.length then ds.length < es.length else lexLess ds.reverse es.reverse

theorem digitsLess_iff (large : 1 < b) (canonical : Canonical b ds) (canonical' : Canonical b es) :
    digitsLess ds es = true ↔ ofDigits b ds < ofDigits b es := by
  unfold digitsLess
  by_cases length : ds.length = es.length
  · have order : lexLess ds.reverse es.reverse = true ↔ _ := lexLess_iff large (by simpa using length)
      (fun d mem => canonical.digits d (mem_reverse.mp mem))
      fun d mem => canonical'.digits d (mem_reverse.mp mem)
    rw [reverse_reverse, reverse_reverse] at order
    rw [if_neg (not_not.mpr length), order]
  · rw [if_pos length, decide_eq_true_iff]
    constructor
    · intro shorter
      by_contra large'
      exact absurd (canonical'.length_le large canonical.digits canonical.nonempty (not_lt.mp large')) (by omega)
    · intro less
      have le := canonical.length_le large canonical'.digits canonical'.nonempty less.le
      omega

theorem splitDigits_spec (large : 1 < b) (fuel n : Nat) (enough : n ≤ fuel) :
    ofDigits b (splitDigits b fuel n) = n ∧ (∀ d ∈ splitDigits b fuel n, d < b) ∧
      (splitDigits b fuel n).getLast? ≠ some 0 ∧ (splitDigits b fuel n = [] ↔ n = 0) := by
  induction fuel generalizing n with
  | zero =>
    obtain rfl : n = 0 := by omega
    simp [splitDigits]
  | succ fuel ih =>
    unfold splitDigits
    by_cases zero : n = 0
    · simp [zero]
    have smaller : n / b < n := div_lt_self (pos_of_ne_zero zero) large
    obtain ⟨value, digits, last, empty⟩ := ih (n / b) (by omega)
    rw [if_neg zero]
    refine ⟨?_, ?_, ?_, by simp [zero]⟩
    · rw [ofDigits_cons, value]
      exact mod_add_div n b
    · intro d mem
      rcases mem_cons.mp mem with rfl | inside
      · exact mod_lt n (by omega)
      · exact digits d inside
    · by_cases done : n / b = 0
      · rw [empty.mpr done]
        have : n % b = n := mod_eq_of_lt (by
          rcases (Nat.div_eq_zero_iff).mp done with none | small
          · omega
          · exact small)
        simpa [this] using zero
      · have more : splitDigits b fuel (n / b) ≠ [] := empty.not.mpr done
        rw [getLast?_cons, getLast?_eq_getLast_of_ne_nil more]
        rw [getLast?_eq_getLast_of_ne_nil more] at last
        simpa using last

end

/-! Numbers written with the most significant digit first. -/

def bigEndian (base : Nat) (value : Nat) (digits : List Nat) : Nat := digits.foldl (fun value d => value * base + d) value

section

variable {base : Nat}

@[simp] theorem bigEndian_nil (value : Nat) : bigEndian base value [] = value := rfl

@[simp] theorem bigEndian_cons (value d : Nat) (digits : List Nat) :
    bigEndian base value (d :: digits) = bigEndian base (value * base + d) digits := rfl

theorem bigEndian_append (value : Nat) (first second : List Nat) :
    bigEndian base value (first ++ second) = bigEndian base (bigEndian base value first) second :=
  foldl_append

theorem bigEndian_reverse (digits : List Nat) : bigEndian base 0 digits.reverse = ofDigits base digits := by
  induction digits with
  | nil => rfl
  | cons d rest ih =>
    rw [reverse_cons, bigEndian_append, ih, ofDigits_cons, bigEndian_cons, bigEndian_nil, mul_comm,
      add_comm]

theorem le_bigEndian (base : Nat) (positive : 0 < base) (value : Nat) (digits : List Nat) :
    value ≤ bigEndian base value digits := by
  induction digits generalizing value with
  | nil => exact le_refl _
  | cons d rest ih =>
    refine le_trans ?_ (ih (value * base + d))
    exact Nat.le_trans (Nat.le_mul_of_pos_right value positive) (Nat.le_add_right _ _)

theorem bigEndian_digits (n : Nat) : bigEndian base 0 (digits base n).reverse = n := by
  rw [bigEndian_reverse, ofDigits_digits]

theorem digits_bigEndian {digits : List Nat} (large : 1 < base) (small : ∀ d ∈ digits, d < base)
    (leading : digits.head? ≠ some 0) : (Nat.digits base (bigEndian base 0 digits)).reverse = digits := by
  have value : bigEndian base 0 digits = ofDigits base digits.reverse := by
    rw [← bigEndian_reverse, reverse_reverse]
  rw [value, digits_ofDigits base large, reverse_reverse]
  · intro d mem
    exact small d (mem_reverse.mp mem)
  · intro nonempty zero
    apply leading
    rw [getLast_reverse] at zero
    rw [head?_eq_some_head (by simpa using nonempty), zero]

end

/-! Machines that read digits one after the other, where a step may depend on how many digits are still to come: which slips
of the pen change the state they end in. -/

section

variable {σ δ : Type*} (step : Nat → σ → δ → σ)

/-- The state behind some digits, when `behind` more are to follow them. -/
def readDigits (behind : Nat) : σ → List δ → σ
  | s, [] => s
  | s, d :: digits => readDigits behind (step (digits.length + behind) s d) digits

theorem readDigits_append (behind : Nat) (s : σ) (first second : List δ) :
    readDigits step behind s (first ++ second) = readDigits step behind (readDigits step (second.length + behind) s first) second := by
  induction first generalizing s with
  | nil => rfl
  | cons d first ih =>
    rw [cons_append, readDigits, readDigits, ih, length_append, add_assoc]

def Cancels : Prop := ∀ k d, Function.Injective fun s => step k s d

def Distinguishes : Prop := ∀ k s, Function.Injective (step k s)

variable {step}

theorem Cancels.injective (cancels : Cancels step) (behind : Nat) (digits : List δ) :
    Function.Injective fun s => readDigits step behind s digits := by
  induction digits with
  | nil => exact fun _ _ same => same
  | cons d digits ih => exact fun s s' same => cancels _ d (ih same)

theorem Distinguishes.detects (distinguishes : Distinguishes step) (cancels : Cancels step) (s : σ) (before after : List δ) {a b : δ}
    (wrong : a ≠ b) : readDigits step 0 s (before ++ a :: after) ≠ readDigits step 0 s (before ++ b :: after) := by
  rw [readDigits_append, readDigits_append]
  intro same
  exact wrong (distinguishes _ _ (cancels.injective 0 after same))

theorem Cancels.swap_iff (cancels : Cancels step) (s : σ) (before after : List δ) (a b : δ) :
    readDigits step 0 s (before ++ a :: b :: after) = readDigits step 0 s (before ++ b :: a :: after) ↔
      step after.length (step (after.length + 1) (readDigits step (after.length + 2) s before) a) b =
        step after.length (step (after.length + 1) (readDigits step (after.length + 2) s before) b) a := by
  rw [readDigits_append, readDigits_append]
  exact (cancels.injective 0 after).eq_iff

end

/-! Natural numbers rounded to binary significands, to nearest with ties to even. -/

/-- The integer nearest to `n / unit`, of two equally near the even one. -/
def roundHalfEven (n unit : Nat) : Nat :=
  if 2 * (n % unit) < unit ∨ 2 * (n % unit) = unit ∧ n / unit % 2 = 0 then n / unit else n / unit + 1

/-- The nearest number with at most `precision` significant bits. -/
def roundBinary (precision n : Nat) : Nat :=
  let unit := 2 ^ (n.log2 + 1 - precision)
  roundHalfEven n unit * unit

theorem roundHalfEven_ge (n unit : Nat) : n / unit ≤ roundHalfEven n unit := by
  unfold roundHalfEven
  split
  · exact le_refl _
  · exact le_succ _

theorem roundBinary_le_pow {precision k n : Nat} (precise : 2 ≤ precision) (long : precision ≤ k) (low : 2 ^ k ≤ n)
    (high : n < 2 ^ (k + 1)) : roundBinary precision n ≤ 2 ^ k ↔ n ≤ 2 ^ k + 2 ^ (k - precision) := by
  have width : n.log2 = k := (Nat.log2_eq_iff (by omega)).mpr ⟨low, high⟩
  have half : 0 < 2 ^ (k - precision) := Nat.two_pow_pos _
  have unit : 2 ^ (k + 1 - precision) = 2 * 2 ^ (k - precision) := by
    rw [Nat.sub_add_comm long, Nat.pow_succ, Nat.mul_comm]
  have power : 2 ^ k = 2 * 2 ^ (precision - 2) * (2 * 2 ^ (k - precision)) := by
    rw [← unit, ← Nat.pow_succ', ← Nat.pow_add]
    congr 1
    omega
  unfold roundBinary
  rw [width, unit, power]
  generalize 2 ^ (k - precision) = h at half power ⊢
  generalize 2 ^ (precision - 2) = e at power ⊢
  rw [power] at low
  have split : n % (2 * h) + n / (2 * h) * (2 * h) = n := by rw [Nat.mul_comm (n / _), Nat.mod_add_div]
  have quotient : 2 * e ≤ n / (2 * h) := (Nat.le_div_iff_mul_le (by omega)).mpr low
  rw [Nat.mul_le_mul_right_iff (by omega)]
  rcases Nat.eq_or_lt_of_le quotient with same | more
  · rw [← same] at split
    rw [roundHalfEven]
    split <;> omega
  · have above : (2 * e + 1) * (2 * h) ≤ n / (2 * h) * (2 * h) := Nat.mul_le_mul_right _ more
    have rounded := roundHalfEven_ge n (2 * h)
    rw [Nat.succ_mul] at above
    omega

end Library
