import NginBase.Net.IpAddress

namespace NginBase.Net

open Library CharConv List Nat

/-- Numbers in a base, in lower case without leading zeros and with a separator between them. -/
def Separated (base : Nat) (separator : UInt8) (numbers : List Nat) (text : Bytes) : Prop :=
  ∃ parts, List.Forall₂ (Numeral base) numbers parts ∧ text = [separator].intercalate parts

structure ZeroRun.Zeros (run : ZeroRun) (words : List Nat) : Prop where
  two : 2 ≤ run.length
  inside : run.begin + run.length ≤ words.length
  zero : ∀ i, run.begin ≤ i → i < run.begin + run.length → words[i]? = some 0

structure ZeroRun.FirstLongest (run : ZeroRun) (words : List Nat) : Prop where
  zeros : run.Zeros words
  longest : ∀ other : ZeroRun, other.Zeros words → other.length ≤ run.length
  first : ∀ other : ZeroRun, other.Zeros words → other.length = run.length → run.begin ≤ other.begin

/-- `::` stands for the first one of the longest runs of zero words, if there is one. -/
inductive CanonicalWords (words : List Nat) : Bytes → Prop
  | plain {text : Bytes} (nothing : ∀ run : ZeroRun, ¬ run.Zeros words) (all : Separated 16 0x3A words text) :
      CanonicalWords words text
  | compressed {run : ZeroRun} {left right : Bytes} (first : run.FirstLongest words)
      (before : Separated 16 0x3A (words.take run.begin) left)
      (after : Separated 16 0x3A (words.drop (run.begin + run.length)) right) :
      CanonicalWords words (left ++ [0x3A, 0x3A] ++ right)

def IpAddress.IsMapped (a : IpAddress) : Prop := a.bytes.val.take 12 = replicate 10 0 ++ [0xFF, 0xFF]

inductive IpAddress.Canonical (a : IpAddress) : Bytes → Prop
  | v4 {text : Bytes} (family : a.family = .v4) (dotted : Separated 10 0x2E ((a.bytes.val.take 4).map UInt8.toNat) text) :
      Canonical a text
  | mapped {dotted : Bytes} (family : a.family = .v6) (mapped : a.IsMapped)
      (separated : Separated 10 0x2E ((a.bytes.val.drop 12).map UInt8.toNat) dotted) :
      Canonical a (IpAddress.mappedStart ++ dotted)
  | words {text : Bytes} (family : a.family = .v6) (mapped : ¬ a.IsMapped) (canonical : CanonicalWords (words a.bytes.val) text) :
      Canonical a text

theorem separated_toChars {base : Nat} (large : 1 < base) (modest : base ≤ 36) (separator : UInt8) (numbers : List Nat) :
    Separated base separator numbers ([separator].intercalate (numbers.map (toChars base))) := by
  exists numbers.map (toChars base)
  apply And.intro _ rfl
  rw [forall₂_map_right_iff, forall₂_same]
  intro number _
  exact numeral_toChars large modest

section

variable {words : List Nat} {begin : Nat} {best : ZeroRun}

def Best (words : List Nat) (begin : Nat) (best : ZeroRun) : Prop :=
  (best = ⟨words.length, 0⟩ ∧ ∀ run : ZeroRun, run.Zeros words → begin < run.begin + run.length) ∨
    (best.Zeros words ∧ best.begin + best.length ≤ begin ∧
      ∀ run : ZeroRun, run.Zeros words → run.begin + run.length ≤ begin →
        run.length ≤ best.length ∧ (run.length = best.length → best.begin ≤ run.begin))

def Boundary (words : List Nat) (begin : Nat) : Prop :=
  ∀ run : ZeroRun, run.Zeros words → run.begin < begin → run.begin + run.length ≤ begin

theorem ZeroRun.Zeros.avoids {run : ZeroRun} (zeros : run.Zeros words) {i : Nat} (nonzero : words[i]? ≠ some 0) :
    run.begin + run.length ≤ i ∨ i < run.begin := by
  by_contra inside
  exact nonzero (zeros.zero i (by omega) (by omega))

theorem Best.skip (good : Best words begin best) (nonzero : words[begin]? ≠ some 0) :
    Best words (begin + 1) best ∧ Boundary words (begin + 1) := by
  have away : ∀ run : ZeroRun, run.Zeros words → run.begin + run.length ≤ begin ∨ begin < run.begin :=
    fun run zeros => zeros.avoids nonzero
  constructor
  · rcases good with ⟨rfl, none_⟩ | ⟨zeros, ends, most⟩
    · apply Or.inl
      apply And.intro rfl
      intro run zeros
      have := none_ run zeros
      have := zeros.two
      have := away run zeros
      omega
    · apply Or.inr
      apply And.intro zeros
      apply And.intro (by omega)
      intro run there inside
      apply most run there
      have := there.two
      have := away run there
      omega
  · intro run zeros before
    have := away run zeros
    omega

theorem Best.pass (good : Best words begin best) (boundary : Boundary words begin) {length : Nat}
    (zero : ∀ i, begin ≤ i → i < begin + length → words[i]? = some 0) (inside : begin + length ≤ words.length)
    (stop : words[begin + length]? ≠ some 0) :
    Best words (begin + length) (if best.length < length ∧ 2 ≤ length then ⟨begin, length⟩ else best) ∧
      Boundary words (begin + length) := by
  have away : ∀ run : ZeroRun, run.Zeros words →
      run.begin + run.length ≤ begin ∨ (begin ≤ run.begin ∧ run.begin + run.length ≤ begin + length) ∨
        begin + length < run.begin := by
    intro run zeros
    have outside := zeros.avoids stop
    by_cases before : run.begin < begin
    · exact .inl (boundary run zeros before)
    · omega
  constructor
  · split
    case isTrue better =>
      apply Or.inr
      apply And.intro ⟨better.2, inside, zero⟩
      apply And.intro (le_refl _)
      intro run zeros ends
      show run.length ≤ length ∧ (run.length = length → begin ≤ run.begin)
      have where_ := away run zeros
      rcases good with ⟨rfl, none_⟩ | ⟨_, _, most⟩
      · have := none_ run zeros
        omega
      · have := most run zeros
        omega
    case isFalse worse =>
      rcases good with ⟨rfl, none_⟩ | ⟨zeros, ends, most⟩
      · apply Or.inl
        apply And.intro rfl
        intro run zeros
        have := none_ run zeros
        have := zeros.two
        have := away run zeros
        simp only [] at worse
        omega
      · apply Or.inr
        apply And.intro zeros
        apply And.intro (by omega)
        intro run there ends'
        have := most run there
        have := zeros.two
        have := away run there
        omega
  · intro run zeros before
    have := away run zeros
    omega

theorem bestRunLoop_spec {fuel : Nat} (enough : words.length ≤ begin + fuel) (good : Best words begin best)
    (boundary : Boundary words begin) : ∃ last, words.length ≤ last ∧ Best words last (bestRunLoop words fuel begin best) := by
  induction fuel generalizing begin best with
  | zero => exact ⟨begin, enough, good⟩
  | succ fuel ih =>
    unfold bestRunLoop
    split
    case h_1 past => exact ⟨begin, getElem?_eq_none_iff.mp past, good⟩
    case h_2 zero =>
      obtain ⟨run, rest, whole, taken, zeros, stop⟩ := takeWhile_split (fun word : Nat => decide (word = 0)) (words.drop begin)
      have here (i : Nat) : words[begin + i]? = (run ++ rest)[i]? := by rw [← whole, getElem?_drop]
      have size : run.length + rest.length = words.length - begin := by
        rw [← length_append, ← whole, length_drop]
      -- the run holds at least the word at `begin`
      have positive : 0 < run.length := by
        apply length_pos_of_ne_nil
        rintro rfl
        have first := here 0
        rw [add_zero, zero, nil_append] at first
        have nonzero := stop 0 (by rw [Option.mem_def, head?_eq_getElem?, ← first])
        simp at nonzero
      have zeroed : ∀ i, begin ≤ i → i < begin + run.length → words[i]? = some 0 := by
        intro i low high
        have known := here (i - begin)
        have within : i - begin < run.length := by omega
        rw [Nat.add_sub_cancel' low, List.getElem?_append_left within, List.getElem?_eq_getElem within] at known
        rw [known]
        simpa using zeros _ (getElem_mem within)
      have stops : words[begin + run.length]? ≠ some 0 := by
        intro more
        rw [here, List.getElem?_append_right (Nat.le_refl _), Nat.sub_self, ← List.head?_eq_getElem?] at more
        simpa using stop 0 more
      obtain ⟨good', boundary'⟩ := good.pass boundary zeroed (by omega) stops
      simp only [taken]
      exact ih (by omega) good' boundary'
    case h_3 word found =>
      obtain ⟨good', boundary'⟩ := good.skip (by rw [found]; simp)
      exact ih (by omega) good' boundary'

theorem bestRun_spec (words : List Nat) :
    (bestRun words = ⟨words.length, 0⟩ ∧ ∀ run : ZeroRun, ¬ run.Zeros words) ∨ (bestRun words).FirstLongest words := by
  have start : Best words 0 ⟨words.length, 0⟩ := by
    apply Or.inl
    apply And.intro rfl
    intro run zeros
    have := zeros.two
    omega
  obtain ⟨last, whole, good⟩ := bestRunLoop_spec (le_add_left _ 0) start fun run _ before => absurd before (not_lt_zero _)
  rcases good with ⟨nothing, none_⟩ | ⟨zeros, _, most⟩
  · apply Or.inl
    apply And.intro nothing
    intro run zeros
    have := none_ run zeros
    have := zeros.inside
    omega
  · apply Or.inr
    have all : ∀ run : ZeroRun, run.Zeros words → run.begin + run.length ≤ last := fun run there => there.inside.trans whole
    exact ⟨zeros, fun run there => (most run there (all run there)).1, fun run there => (most run there (all run there)).2⟩

end

section

variable {words : List Nat} {best : ZeroRun}

def glue (output text : Bytes) : Bytes :=
  (if output ≠ [] ∧ output.getLast? ≠ some 0x3A then output ++ [0x3A] else output) ++ text

theorem appendWords_glue {fuel index : Nat} {output : Bytes} (count : Nat)
    (apart : ∀ i, index ≤ i → i < index + count → i ≠ best.begin) (inside : index + count ≤ words.length) :
    appendWords words best (fuel + count) index output =
      appendWords words best fuel (index + count) ((((words.drop index).take count).map (toChars 16)).foldl glue output) := by
  induction count generalizing index output with
  | zero => simp
  | succ count ih =>
    have here : index < words.length := by omega
    rw [drop_eq_getElem_cons here, take_succ_cons, map_cons, foldl_cons, ← add_assoc fuel,
      appendWords, getElem?_eq_getElem here]
    simp only [if_neg (apart index (le_refl _) (by omega))]
    rw [show index + (count + 1) = index + 1 + count by omega,
      ← ih (fun i low high => apart i (by omega) (by omega)) (by omega)]
    rfl

theorem glue_all {output text : Bytes} {texts : List Bytes} (plain : ∀ t ∈ text :: texts, t ≠ [] ∧ (0x3A : UInt8) ∉ t) :
    texts.foldl glue (output ++ text) = output ++ [0x3A].intercalate (text :: texts) := by
  induction texts generalizing output text with
  | nil => simp
  | cons next texts ih =>
    obtain ⟨nonempty, colon⟩ := plain text mem_cons_self
    have last : (output ++ text).getLast? ≠ some 0x3A := by
      rw [getLast?_append_of_ne_nil _ nonempty]
      exact fun ends => colon (mem_of_getLast? ends)
    have glued : glue (output ++ text) next = output ++ text ++ [0x3A] ++ next := by
      unfold glue
      rw [if_pos ⟨by simp [nonempty], last⟩]
    rw [foldl_cons, glued, ih fun t mem => plain t (mem_cons_of_mem _ mem), intercalate_cons_cons]
    simp only [append_assoc]

theorem hex_plain (word : Nat) : toChars 16 word ≠ [] ∧ (0x3A : UInt8) ∉ toChars 16 word :=
  ⟨(numeral_toChars (by decide) (by decide)).nonempty, not_mem_toChars (by decide) (by decide) (by decide)⟩

theorem appendWords_segment {fuel index : Nat} {output : Bytes} (count : Nat)
    (apart : ∀ i, index ≤ i → i < index + count → i ≠ best.begin) (inside : index + count ≤ words.length)
    (fresh : output = [] ∨ output.getLast? = some 0x3A) : appendWords words best (fuel + count) index output =
      appendWords words best fuel (index + count)
        (output ++ [0x3A].intercalate (((words.drop index).take count).map (toChars 16))) := by
  rw [appendWords_glue count apart inside]
  apply congrArg
  cases (words.drop index).take count with
  | nil => simp
  | cons word rest =>
    have glued : glue output (toChars 16 word) = output ++ toChars 16 word := by
      unfold glue
      rw [if_neg]
      rintro ⟨nonempty, last⟩
      exact fresh.elim nonempty last
    rw [map_cons, foldl_cons, glued]
    apply glue_all
    intro t mem
    rw [← map_cons] at mem
    obtain ⟨word, _, rfl⟩ := mem_map.mp mem
    exact hex_plain word

theorem appendWords_end {fuel index : Nat} {output : Bytes} (past : words.length ≤ index) :
    appendWords words best fuel index output = output := by
  cases fuel with
  | zero => rfl
  | succ fuel =>
    unfold appendWords
    rw [getElem?_eq_none_iff.mpr past]

theorem words_canonical (words : List Nat) : CanonicalWords words (appendWords words (bestRun words) words.length 0 []) := by
  have hex (numbers : List Nat) : Separated 16 0x3A numbers ([0x3A].intercalate (numbers.map (toChars 16))) :=
    separated_toChars (by decide) (by decide) _ numbers
  rcases bestRun_spec words with ⟨none_, nothing⟩ | first
  · have away : ∀ i, 0 ≤ i → i < 0 + words.length → i ≠ (bestRun words).begin := by
      intro i _ inside
      rw [none_]
      simp only []
      omega
    have all : appendWords words (bestRun words) (0 + words.length) 0 [] = _ :=
      appendWords_segment words.length away (le_of_eq (zero_add _)) (.inl rfl)
    rw [appendWords_end (le_of_eq (zero_add _).symm), zero_add, drop_zero, take_length] at all
    rw [all]
    exact .plain nothing (hex words)
  · have zeros := first.zeros
    generalize bestRun words = best at first zeros
    have two := zeros.two
    have inside := zeros.inside
    have before : ∀ i, 0 ≤ i → i < 0 + best.begin → i ≠ best.begin := fun i _ low => by omega
    let rest := words.length - (best.begin + best.length)
    have after : ∀ i, best.begin + best.length ≤ i → i < best.begin + best.length + rest → i ≠ best.begin :=
      fun i low _ => by omega
    let left := [0x3A].intercalate ((words.take best.begin).map (toChars 16))
    let right := [0x3A].intercalate ((words.drop (best.begin + best.length)).map (toChars 16))
    have whole : appendWords words best words.length 0 [] = left ++ [0x3A, 0x3A] ++ right := calc
      _ = appendWords words best (best.length - 1 + rest + 1 + best.begin) 0 [] := by
        rw [show best.length - 1 + rest + 1 + best.begin = words.length by omega]
      _ = appendWords words best (best.length - 1 + rest + 1) best.begin left := by
        rw [appendWords_segment best.begin before (by omega) (.inl rfl), zero_add, drop_zero, nil_append]
      _ = appendWords words best (best.length - 1 + rest) (best.begin + best.length) (left ++ [0x3A, 0x3A]) := by
        rw [appendWords, getElem?_eq_getElem (by omega)]
        simp only [if_true]
      _ = left ++ [0x3A, 0x3A] ++ right := by
        rw [appendWords_segment rest after (by omega) (.inr (by simp)), appendWords_end (by omega),
          take_of_length_le (by rw [length_drop])]
    rw [whole]
    exact .compressed first (hex _) (hex _)

theorem IpAddress.isMapped_iff (a : IpAddress) : a.mapped = true ↔ a.IsMapped := by
  unfold mapped IsMapped
  obtain ⟨bytes, size⟩ := a.bytes
  match bytes, size with
  | [b0, b1, b2, b3, b4, b5, b6, b7, b8, b9, b10, b11, _, _, _, _], _ =>
    simp [and_assoc]

theorem IpAddress.output_canonical {a : IpAddress} (valid : a.isValid = true) : a.Canonical a.output := by
  have decimal (octets : Bytes) : Separated 10 0x2E (octets.map UInt8.toNat) (appendSeparated 0x2E (octets.map UInt8.toNat)) :=
    separated_toChars (by decide) (by decide) _ _
  cases family : a.family with
  | v4 =>
    rw [output, if_pos (by simp [isV4, family])]
    exact .v4 family (decimal _)
  | v6 =>
    rw [output, if_neg (by simp [isV4, family])]
    split
    case isTrue mapped => exact .mapped family (a.isMapped_iff.mp mapped) (decimal _)
    case isFalse plain => exact .words family (fun mapped => plain (a.isMapped_iff.mpr mapped)) (words_canonical _)
  | dualStack => simp [isValid, isV4, isV6, family] at valid

end

end NginBase.Net
