import NginBase.Hashing.Checksum

namespace NginBase.Hashing.Checksum

open List Nat Fletcher UInt16 Adler

section

variable {σ ω : Type} (algorithm : Algorithm σ ω) {holds : Bytes → σ → Prop}

theorem feeds_hold (start : holds [] algorithm.initial)
    (update : ∀ seen s data, holds seen s → holds (seen ++ data) (algorithm.update s data))
    (byte : ∀ seen s b, holds seen s → holds (seen ++ [b]) (algorithm.updateByte s b)) (feeds : List Feed) :
    holds (feeds.flatMap Feed.bytes) (feeds.foldl algorithm.feed algorithm.initial) := by
  have bytes (text : Bytes) : ∀ seen s, holds seen s → holds (seen ++ text) (text.foldl algorithm.updateByte s) := by
    induction text with
    | nil => exact fun seen s held => by rwa [append_nil]
    | cons b text ih =>
      intro seen s held
      have later := ih _ _ (byte seen s b held)
      rwa [append_assoc] at later
  have call (seen : Bytes) (s : σ) (feed : Feed) (held : holds seen s) : holds (seen ++ feed.bytes) (algorithm.feed s feed) := by
    cases feed with
    | span data => exact update seen s data held
    | pointer data =>
      cases data with
      | none =>
        rw [Feed.bytes, Option.getD_none, append_nil]
        exact held
      | some data =>
        rw [Feed.bytes, Option.getD_some, Algorithm.feed]
        split
        · rename_i empty
          rwa [length_eq_zero_iff.mp empty, append_nil]
        · exact update seen s data held
    | text text constant =>
      cases constant with
      | true => exact bytes text seen s held
      | false => exact update seen s text held
    | byte b => exact byte seen s b held
  have all (feeds : List Feed) : ∀ seen s, holds seen s → holds (seen ++ feeds.flatMap Feed.bytes) (feeds.foldl algorithm.feed s) := by
    induction feeds with
    | nil => exact fun seen s held => by rwa [flatMap_nil, append_nil]
    | cons feed feeds ih =>
      intro seen s held
      have later := ih _ _ (call seen s feed held)
      rwa [append_assoc] at later
  exact all feeds [] algorithm.initial start

end

/-- The sum of the sums of all beginnings, from `start` on. -/
def runningSum (start : Nat) (xs : List Nat) : Nat := ((range xs.length).map fun i => start + (xs.take (i + 1)).sum).sum

theorem runningSum_snoc (start : Nat) (xs : List Nat) (x : Nat) :
    runningSum start (xs ++ [x]) = runningSum start xs + (start + xs.sum + x) := by
  have earlier : (range xs.length).map (fun i => start + ((xs ++ [x]).take (i + 1)).sum) =
      (range xs.length).map fun i => start + (xs.take (i + 1)).sum := by
    apply map_congr_left
    intro i inside
    rw [take_append_of_le_length (mem_range.mp inside)]
  rw [runningSum, length_append, length_singleton, range_succ, map_append, sum_append, earlier, map_singleton,
    sum_singleton, take_of_length_le (by simp), sum_append, sum_singleton, runningSum, add_assoc start]

theorem remainder_snoc (m start x : Nat) (xs : List Nat) :
    ((start + xs.sum) % m + x) % m = (start + (xs ++ [x]).sum) % m ∧
      (runningSum start xs % m + ((start + xs.sum) % m + x) % m) % m = runningSum start (xs ++ [x]) % m := by
  rw [sum_append, sum_singleton, runningSum_snoc]
  constructor
  · rw [mod_add_mod, add_assoc]
  · rw [mod_add_mod, mod_add_mod, add_mod_mod]

section

theorem packed32 {high low : UInt32} (small : high.toNat < 2 ^ 16) (small' : low.toNat < 2 ^ 16) :
    ((high <<< 16) ||| low).toNat = 2 ^ 16 * high.toNat + low.toNat := by
  have shifted : (high <<< 16).toNat = 2 ^ 16 * high.toNat := by
    rw [UInt32.toNat_shiftLeft, shiftLeft_eq, mul_comm]
    exact mod_eq_of_lt (by simpa using by omega)
  rw [UInt32.toNat_or, shifted]
  exact Unicode.or_add high.toNat low.toNat 16 small'

theorem packed16 {high low : UInt16} (small : high.toNat < 2 ^ 8) (small' : low.toNat < 2 ^ 8) :
    ((high <<< 8) ||| low).toNat = 2 ^ 8 * high.toNat + low.toNat := by
  have shifted : (high <<< 8).toNat = 2 ^ 8 * high.toNat := by
    rw [UInt16.toNat_shiftLeft, shiftLeft_eq, mul_comm]
    exact mod_eq_of_lt (by simpa using by omega)
  rw [UInt16.toNat_or, shifted]
  exact Unicode.or_add high.toNat low.toNat 8 small'

def wordValues : Bytes → List Nat
  | first :: second :: rest => (2 ^ 8 * first.toNat + second.toNat) :: wordValues rest
  | [byte] => [2 ^ 8 * byte.toNat]
  | [] => []

def wordsOf : Bytes → List UInt16
  | first :: second :: rest => readBigEndianUInt16 first second :: wordsOf rest
  | [byte] => [oddWord byte]
  | [] => []

theorem readBigEndianUInt16_toNat (first second : UInt8) : (readBigEndianUInt16 first second).toNat = 2 ^ 8 * first.toNat + second.toNat := by
  have packed : ((first.toUInt16 <<< 8) ||| second.toUInt16).toNat = _ :=
    packed16 (by simpa using first.toNat_lt) (by simpa using second.toNat_lt)
  simpa [readBigEndianUInt16] using packed

theorem wordsOf_values (data : Bytes) : (wordsOf data).map toNat = wordValues data := by
  fun_induction wordsOf data with
  | case1 first second rest ih => rw [map_cons, ih, readBigEndianUInt16_toNat, wordValues]
  | case2 byte =>
    have packed := readBigEndianUInt16_toNat byte 0
    have zero : readBigEndianUInt16 byte 0 = oddWord byte := UInt16.or_zero
    rw [zero] at packed
    rw [map_singleton, packed]
    rfl
  | case3 => rfl

theorem wordsOf_append {full : Bytes} (even : full.length % 2 = 0) (data : Bytes) : wordsOf (full ++ data) = wordsOf full ++ wordsOf data := by
  fun_induction wordsOf full with
  | case1 first second rest ih =>
    rw [length_cons, length_cons] at even
    rw [cons_append, cons_append, wordsOf, ih (by omega), cons_append]
  | case2 byte => cases even
  | case3 => rfl

variable {σ : Type} (addWord : σ → UInt16 → σ) (initial : σ)

def Gathers (seen : Bytes) (s : WordState σ) : Prop :=
  ∃ full, full.length % 2 = 0 ∧ s.sum = (wordsOf full).foldl addWord initial ∧ seen = full ++ if s.hasOddByte then [s.oddByte] else []

variable {addWord initial}

theorem wordLoop_gathers {full : Bytes} (even : full.length % 2 = 0) {s : WordState σ} (sum : s.sum = (wordsOf full).foldl addWord initial)
    (none : s.hasOddByte = false) (data : Bytes) : Gathers addWord initial (full ++ data) (wordLoop addWord s data) := by
  fun_induction wordLoop addWord s data generalizing full with
  | case1 s first second rest ih =>
    have even' : (full ++ [first, second]).length % 2 = 0 := by
      rw [length_append, length_cons, length_singleton]
      omega
    have sum' : addWord s.sum (readBigEndianUInt16 first second) = (wordsOf (full ++ [first, second])).foldl addWord initial := by
      rw [wordsOf_append even, foldl_append, ← sum]
      rfl
    have later := ih even' sum' none
    rwa [append_assoc] at later
  | case2 s byte => exact ⟨full, even, sum, rfl⟩
  | case3 s => exact ⟨full, even, sum, by rw [none]; rfl⟩

theorem updateWords_gathers {seen : Bytes} {s : WordState σ} (gathers : Gathers addWord initial seen s) (data : Bytes) :
    Gathers addWord initial (seen ++ data) (updateWords addWord s data) := by
  obtain ⟨full, even, sum, rfl⟩ := gathers
  unfold updateWords
  cases odd : s.hasOddByte with
  | false =>
    rw [if_neg Bool.false_ne_true, append_nil]
    exact wordLoop_gathers even sum odd data
  | true =>
    cases data with
    | nil =>
      refine ⟨full, even, sum, ?_⟩
      show full ++ [s.oddByte] ++ [] = full ++ if s.hasOddByte then [s.oddByte] else []
      rw [odd, if_pos rfl, append_nil]
    | cons second rest =>
      have even' : (full ++ [s.oddByte, second]).length % 2 = 0 := by
        rw [length_append, length_cons, length_singleton]
        omega
      have sum' : addWord s.sum (readBigEndianUInt16 s.oddByte second) = (wordsOf (full ++ [s.oddByte, second])).foldl addWord initial := by
        rw [wordsOf_append even, foldl_append, ← sum]
        rfl
      have later : Gathers addWord initial ((full ++ [s.oddByte, second]) ++ rest) _ :=
        wordLoop_gathers (s := { sum := addWord s.sum (readBigEndianUInt16 s.oddByte second) }) even' sum' rfl rest
      simpa using later

theorem Gathers.total {seen : Bytes} {s : WordState σ} (gathers : Gathers addWord initial seen s) :
    (wordsOf seen).foldl addWord initial = if s.hasOddByte then addWord s.sum (oddWord s.oddByte) else s.sum := by
  obtain ⟨full, even, sum, rfl⟩ := gathers
  rw [wordsOf_append even, foldl_append, ← sum]
  split <;> rfl

theorem run_words {ω : Type} {finalize : WordState σ → ω} (feeds : List Feed) :
    let algorithm : Algorithm (WordState σ) ω :=
      { initial := { sum := initial }, update := updateWords addWord, updateByte := fun s byte => updateWords addWord s [byte], finalize }
    Gathers addWord initial (feeds.flatMap Feed.bytes) (feeds.foldl algorithm.feed algorithm.initial) := by
  intro algorithm
  apply feeds_hold algorithm
  · exact ⟨[], rfl, rfl, rfl⟩
  · exact fun seen s data gathers => updateWords_gathers gathers data
  · exact fun seen s b gathers => updateWords_gathers gathers [b]

end

namespace Internet

def onesAdd (x y : Nat) : Nat := if x + y < 2 ^ 16 then x + y else x + y - (2 ^ 16 - 1)

theorem folded_toNat (sum : UInt32) : ((sum &&& (0xFFFF : UInt32)) + (sum >>> 16)).toNat = sum.toNat % 2 ^ 16 + sum.toNat / 2 ^ 16 := by
  have low : (sum &&& (0xFFFF : UInt32)).toNat = sum.toNat % 2 ^ 16 := by
    exact and_two_pow_sub_one_eq_mod _ 16
  have high : (sum >>> 16).toNat = sum.toNat / 2 ^ 16 := by
    exact shiftRight_eq_div_pow _ 16
  have bound := sum.toNat_lt
  rw [UInt32.toNat_add, low, high, mod_eq_of_lt (by omega)]

def onesSum (words : List Nat) : Nat := words.foldl onesAdd 0

theorem word_lt (word : UInt16) : word.toNat < 2 ^ 16 := word.toNat_lt

theorem addWord_toNat {sum : UInt32} (small : sum.toNat < 2 ^ 16) (word : UInt16) :
    sum.toNat + word.toNat < 2 ^ 32 ∧ (addWord sum word).toNat = onesAdd sum.toNat word.toNat ∧ (addWord sum word).toNat < 2 ^ 16 := by
  have bound := word_lt word
  have added : (sum + word.toUInt32).toNat = sum.toNat + word.toNat := by
    rw [UInt32.toNat_add, toNat_toUInt32, mod_eq_of_lt (by omega)]
  have folded : (addWord sum word).toNat = _ := folded_toNat (sum + word.toUInt32)
  refine ⟨by omega, ?_, by omega⟩
  unfold onesAdd
  split <;> omega

theorem foldLoop_small {sum : UInt32} (small : sum.toNat < 2 ^ 16) (fuel : Nat) : (foldLoop fuel sum).toNat = sum.toNat := by
  have zero : sum >>> 16 = 0 := by
    apply UInt32.toNat.inj
    exact (shiftRight_eq_div_pow _ 16).trans (div_eq_of_lt small)
  have value : sum.toUInt16.toNat = sum.toNat := by
    exact mod_eq_of_lt small
  cases fuel with
  | zero => exact value
  | succ fuel => rw [foldLoop, zero, if_neg (not_not.mpr rfl), value]

theorem foldUInt32ToUInt16_add {sum : UInt32} (small : sum.toNat < 2 ^ 16) (word : UInt16) :
    (foldUInt32ToUInt16 (sum + word.toUInt32)).toNat = (addWord sum word).toNat := by
  have bound := word_lt word
  have added : (sum + word.toUInt32).toNat = sum.toNat + word.toNat := by
    rw [UInt32.toNat_add, toNat_toUInt32, mod_eq_of_lt (by omega)]
  obtain ⟨_, _, small'⟩ := addWord_toNat small word
  have folded : (addWord sum word).toNat = _ := folded_toNat (sum + word.toUInt32)
  rw [foldUInt32ToUInt16, added]
  by_cases carry : sum.toNat + word.toNat < 2 ^ 16
  · rw [foldLoop_small (by omega)]
    omega
  obtain ⟨fuel, more⟩ : ∃ n, sum.toNat + word.toNat = n + 1 := ⟨sum.toNat + word.toNat - 1, by omega⟩
  have high : (sum + word.toUInt32) >>> 16 ≠ 0 := by
    intro zero
    have value := congrArg UInt32.toNat zero
    rw [UInt32.toNat_shiftRight, added] at value
    have quotient : (sum.toNat + word.toNat) / 2 ^ 16 = 0 := (shiftRight_eq_div_pow _ 16).symm.trans value
    omega
  rw [more, foldLoop, if_pos high]
  exact foldLoop_small small' fuel

theorem sum_exact (words : List UInt16) :
    (words.foldl addWord 0).toNat = onesSum (words.map toNat) ∧ (words.foldl addWord 0).toNat < 2 ^ 16 := by
  induction words using reverseRecOn with
  | nil => exact ⟨rfl, by decide⟩
  | append_singleton words word ih =>
    obtain ⟨_, exact', small⟩ := addWord_toNat ih.2 word
    rw [foldl_append, map_append, onesSum, foldl_append]
    exact ⟨exact'.trans (congrArg (onesAdd · word.toNat) ih.1), small⟩

theorem reached_small {seen : Bytes} {s : WordState UInt32} (gathers : Gathers addWord 0 seen s) : s.sum.toNat < 2 ^ 16 := by
  obtain ⟨full, _, sum, _⟩ := gathers
  rw [sum]
  exact (sum_exact _).2

theorem finalize_exact {seen : Bytes} {s : WordState UInt32} (gathers : Gathers addWord 0 seen s) :
    (finalize s).toNat = 2 ^ 16 - 1 - onesSum (wordValues seen) := by
  have small := reached_small gathers
  have total := gathers.total
  have exact' := (sum_exact (wordsOf seen)).1
  rw [wordsOf_values] at exact'
  rw [← exact', total, finalize, toNat_not]
  show 2 ^ 16 - 1 - _ = _
  split
  · rw [foldUInt32ToUInt16_add small]
  · rw [foldUInt32ToUInt16, foldLoop_small small]

/-- Neither the addition of a word that comes after others wraps, nor the fold that follows, nor the last one. -/
def NoWrap (s : WordState UInt32) : Prop :=
  ∀ (words : List UInt16) (word : UInt16),
    let sum := words.foldl addWord s.sum
    sum.toNat + word.toNat < 2 ^ 32 ∧ (sum.toNat + word.toNat) % 2 ^ 16 + (sum.toNat + word.toNat) / 2 ^ 16 < 2 ^ 32

theorem reached_noWrap {seen : Bytes} {s : WordState UInt32} (gathers : Gathers addWord 0 seen s) : NoWrap s := by
  obtain ⟨full, _, sum, _⟩ := gathers
  intro words word
  have small := (sum_exact (wordsOf full ++ words)).2
  have bound := word_lt word
  rw [foldl_append, ← sum] at small
  omega

end Internet

namespace Fletcher

def Sums16 (seen : Bytes) (s : Fletcher16State) : Prop :=
  s.sum1.toNat = (0 + (seen.map UInt8.toNat).sum) % 255 ∧ s.sum2.toNat = runningSum 0 (seen.map UInt8.toNat) % 255

variable {seen : Bytes}

theorem updateByte16_sums {s : Fletcher16State} (sums : Sums16 seen s) (byte : UInt8) :
    Sums16 (seen ++ [byte]) (updateByte16 s byte) := by
  obtain ⟨first, second⟩ := sums
  obtain ⟨next, next'⟩ := remainder_snoc 255 0 byte.toNat (seen.map UInt8.toNat)
  have small (n : Nat) : (ofNat (n % 255)).toNat = n % 255 := by
    exact mod_eq_of_lt (by omega)
  unfold Sums16 updateByte16
  dsimp only
  rw [map_append, small, small, first, second]
  exact ⟨next, next'⟩

theorem feeds_sums16 (feeds : List Feed) : Sums16 (feeds.flatMap Feed.bytes) (feeds.foldl fletcher16.feed fletcher16.initial) := by
  apply feeds_hold fletcher16
  · exact ⟨rfl, rfl⟩
  · intro seen s data sums
    induction data generalizing seen s with
    | nil => rwa [append_nil]
    | cons byte data ih =>
      have later := ih _ _ (updateByte16_sums sums byte)
      rwa [append_assoc] at later
  · exact fun seen s b sums => updateByte16_sums sums b

theorem finalize16_exact {s : Fletcher16State} (sums : Sums16 seen s) :
    (fletcher16.finalize s).toNat = 2 ^ 8 * (runningSum 0 (seen.map UInt8.toNat) % 255) + (seen.map UInt8.toNat).sum % 255 := by
  obtain ⟨first, second⟩ := sums
  rw [zero_add] at first
  have packed : (fletcher16.finalize s).toNat = 2 ^ 8 * s.sum2.toNat + s.sum1.toNat := packed16 (by omega) (by omega)
  rw [packed, first, second]

def Sums32 (words : List UInt16) (s : Sums) : Prop :=
  s.sum1.toNat = (0 + (words.map toNat).sum) % 65535 ∧ s.sum2.toNat = runningSum 0 (words.map toNat) % 65535

theorem addWord_exact {s : Sums} (small : s.sum1.toNat < 65535) (small' : s.sum2.toNat < 65535) (word : UInt16) :
    s.sum1.toNat + word.toNat < 2 ^ 32 ∧ s.sum2.toNat + (addWord s word).sum1.toNat < 2 ^ 32 ∧
      (addWord s word).sum1.toNat = (s.sum1.toNat + word.toNat) % 65535 ∧
      (addWord s word).sum2.toNat = (s.sum2.toNat + (s.sum1.toNat + word.toNat) % 65535) % 65535 := by
  have bound := Internet.word_lt word
  have first : (addWord s word).sum1.toNat = (s.sum1.toNat + word.toNat) % 65535 := by
    show ((s.sum1 + word.toUInt32) % 65535).toNat = _
    rw [UInt32.toNat_mod, UInt32.toNat_add, toNat_toUInt32, mod_eq_of_lt (b := 2 ^ 32) (by omega)]
    rfl
  refine ⟨by omega, by omega, first, ?_⟩
  show ((s.sum2 + (addWord s word).sum1) % 65535).toNat = _
  rw [UInt32.toNat_mod, UInt32.toNat_add, first, mod_eq_of_lt (b := 2 ^ 32) (by omega)]
  rfl

theorem sums_exact (words : List UInt16) : Sums32 words (words.foldl addWord {}) := by
  induction words using reverseRecOn with
  | nil => exact ⟨rfl, rfl⟩
  | append_singleton words word ih =>
    obtain ⟨first, second⟩ := ih
    obtain ⟨next, next'⟩ := remainder_snoc 65535 0 word.toNat (words.map toNat)
    obtain ⟨_, _, sum1, sum2⟩ := addWord_exact (s := words.foldl addWord {}) (by omega) (by omega) word
    rw [foldl_append, Sums32, map_append]
    rw [first] at sum1 sum2
    rw [second] at sum2
    exact ⟨sum1.trans next, sum2.trans next'⟩

theorem finalize32_exact {s : WordState Sums} (gathers : Gathers addWord {} seen s) :
    (finalize32 s).toNat = 2 ^ 16 * (runningSum 0 (wordValues seen) % 65535) + (wordValues seen).sum % 65535 := by
  obtain ⟨first, second⟩ := sums_exact (wordsOf seen)
  rw [zero_add] at first
  rw [wordsOf_values] at first second
  have packed : (finalize32 s).toNat = 2 ^ 16 * ((wordsOf seen).foldl addWord {}).sum2.toNat + ((wordsOf seen).foldl addWord {}).sum1.toNat := by
    rw [gathers.total]
    apply packed32
    · rw [← gathers.total]
      omega
    · rw [← gathers.total]
      omega
  rw [packed, first, second]

def NoWrap (s : WordState Sums) : Prop :=
  ∀ (words : List UInt16) (word : UInt16),
    let t := words.foldl addWord s.sum
    t.sum1.toNat + word.toNat < 2 ^ 32 ∧ t.sum2.toNat + (t.sum1.toNat + word.toNat) % 65535 < 2 ^ 32

theorem reached_noWrap {s : WordState Sums} (gathers : Gathers addWord {} seen s) : NoWrap s := by
  obtain ⟨full, _, sum, _⟩ := gathers
  intro words word
  obtain ⟨first, second⟩ := sums_exact (wordsOf full ++ words)
  have bound := Internet.word_lt word
  rw [foldl_append, ← sum] at first second
  omega

end Fletcher

namespace Adler

/-- The bounds of the accumulators after `k` bytes of a block. -/
def Room (k : Nat) (s : Adler32State) : Prop := s.a.toNat ≤ 65520 + 255 * k ∧ 2 * s.b.toNat ≤ 2 * 65520 * (k + 1) + 255 * k * (k + 1)

variable {s : Adler32State}

theorem Room.addByte {k : Nat} (room : Room k s) (short : k < nMax) (byte : UInt8) :
    s.a.toNat + byte.toNat < 2 ^ 32 ∧ s.b.toNat + (s.a.toNat + byte.toNat) < 2 ^ 32 ∧
      (addByte s byte).a.toNat = s.a.toNat + byte.toNat ∧ (addByte s byte).b.toNat = s.b.toNat + (s.a.toNat + byte.toNat) ∧
      Room (k + 1) (addByte s byte) := by
  obtain ⟨first, second⟩ := room
  have value := byte.toNat_lt
  have most : k + 1 ≤ 5552 := short
  have square : 255 * (k + 1) * (k + 2) ≤ 255 * 5552 * 5553 := Nat.mul_le_mul (Nat.mul_le_mul_left 255 most) (Nat.succ_le_succ most)
  have twice : 2 * (s.b.toNat + (s.a.toNat + byte.toNat)) ≤ 2 * 65520 * (k + 2) + 255 * (k + 1) * (k + 2) := by
    have expanded : 255 * (k + 1) * (k + 2) = 255 * k * (k + 1) + 2 * (255 * (k + 1)) := by ring
    omega
  have fits : s.a.toNat + byte.toNat < 2 ^ 32 := by omega
  have fits' : s.b.toNat + (s.a.toNat + byte.toNat) < 2 ^ 32 := by omega
  have a : (Adler.addByte s byte).a.toNat = s.a.toNat + byte.toNat := by
    show (s.a + byte.toUInt32).toNat = _
    rw [UInt32.toNat_add, UInt8.toNat_toUInt32, mod_eq_of_lt fits]
  have b : (Adler.addByte s byte).b.toNat = s.b.toNat + (s.a.toNat + byte.toNat) := by
    show (s.b + (Adler.addByte s byte).a).toNat = _
    rw [UInt32.toNat_add, a, mod_eq_of_lt fits']
  have next : Room (k + 1) (Adler.addByte s byte) := by
    rw [Room, b]
    exact ⟨by omega, twice⟩
  exact ⟨fits, fits', a, b, next⟩

def Sums (seen : Bytes) (s : Adler32State) : Prop :=
  s.a.toNat % 65521 = (1 + (seen.map UInt8.toNat).sum) % 65521 ∧ s.b.toNat % 65521 = runningSum 1 (seen.map UInt8.toNat) % 65521

def Reduced (seen : Bytes) (s : Adler32State) : Prop := Sums seen s ∧ Room 0 s

variable {seen : Bytes}

theorem Sums.add {t : Adler32State} (sums : Sums seen s) {byte : UInt8}
    (a : t.a.toNat % 65521 = (s.a.toNat + byte.toNat) % 65521)
    (b : t.b.toNat % 65521 = (s.b.toNat + (s.a.toNat + byte.toNat)) % 65521) : Sums (seen ++ [byte]) t := by
  obtain ⟨first, second⟩ := sums
  obtain ⟨next, next'⟩ := remainder_snoc 65521 1 byte.toNat (seen.map UInt8.toNat)
  rw [Sums, map_append, map_singleton, ← next, ← next', ← first, ← second, a, b]
  constructor
  · rw [mod_add_mod]
  · rw [mod_add_mod, mod_add_mod, add_mod_mod]

theorem blockLoop_sums (reduced : Reduced seen s) {data : Bytes} (short : data.length ≤ nMax) :
    Sums (seen ++ data) (blockLoop s data) ∧ Room data.length (blockLoop s data) := by
  induction data using reverseRecOn with
  | nil =>
    rw [append_nil]
    exact reduced
  | append_singleton data byte ih =>
    rw [length_append, length_singleton] at short
    obtain ⟨sums, room⟩ := ih (by omega)
    obtain ⟨_, _, a, b, next⟩ := room.addByte (by omega) byte
    rw [← append_assoc, blockLoop, foldl_append, length_append]
    exact ⟨sums.add (congrArg (· % 65521) a) (congrArg (· % 65521) b), next⟩

theorem reduce_reduced (sums : Sums seen s) : Reduced seen (reduce s) := by
  have a : (reduce s).a.toNat = s.a.toNat % 65521 := UInt32.toNat_mod _ _
  have b : (reduce s).b.toNat = s.b.toNat % 65521 := UInt32.toNat_mod _ _
  constructor
  · rw [Sums, a, b, mod_mod, mod_mod]
    exact sums
  · rw [Room]
    omega

theorem updateLoop_reduced (reduced : Reduced seen s) (fuel : Nat) {data : Bytes} (enough : data.length ≤ fuel) :
    Reduced (seen ++ data) (updateLoop fuel s data) := by
  induction fuel generalizing seen s data with
  | zero =>
    rw [length_eq_zero_iff.mp (le_zero.mp enough), append_nil]
    exact reduced
  | succ fuel ih =>
    unfold updateLoop
    split
    · rename_i empty
      rwa [empty, append_nil]
    have block := (blockLoop_sums reduced (length_take_le nMax data)).1
    have rest : (data.drop nMax).length ≤ fuel := by
      rw [length_drop, nMax]
      omega
    have later := ih (reduce_reduced block) rest
    rwa [append_assoc, take_append_drop] at later

theorem updateByte_reduced (reduced : Reduced seen s) (byte : UInt8) :
    Reduced (seen ++ [byte]) (updateByte s byte) := by
  obtain ⟨sums, room⟩ := reduced
  obtain ⟨fits, fits', _⟩ := room.addByte (by decide) byte
  have a : (updateByte s byte).a.toNat = (s.a.toNat + byte.toNat) % 65521 := by
    show ((s.a + byte.toUInt32) % modulus).toNat = _
    rw [UInt32.toNat_mod, UInt32.toNat_add, UInt8.toNat_toUInt32, mod_eq_of_lt fits]
    rfl
  have b : (updateByte s byte).b.toNat = (s.b.toNat + (s.a.toNat + byte.toNat) % 65521) % 65521 := by
    have fits'' : s.b.toNat + (s.a.toNat + byte.toNat) % 65521 < 2 ^ 32 := by omega
    show ((s.b + (updateByte s byte).a) % modulus).toNat = _
    rw [UInt32.toNat_mod, UInt32.toNat_add, a, mod_eq_of_lt fits'']
    rfl
  constructor
  · apply sums.add
    · rw [a, mod_mod]
    · rw [b, mod_mod, add_mod_mod]
  · rw [Room]
    omega

theorem feeds_reduced (feeds : List Feed) : Reduced (feeds.flatMap Feed.bytes) (feeds.foldl adler32.feed adler32.initial) := by
  apply feeds_hold adler32
  · exact ⟨⟨rfl, rfl⟩, by decide, by decide⟩
  · exact fun seen s data reduced => updateLoop_reduced reduced data.length (le_refl _)
  · exact fun seen s b reduced => updateByte_reduced reduced b

theorem finalize_exact (reduced : Reduced seen s) :
    (adler32.finalize s).toNat =
      2 ^ 16 * (runningSum 1 (seen.map UInt8.toNat) % 65521) + (1 + (seen.map UInt8.toNat).sum) % 65521 := by
  obtain ⟨⟨first, second⟩, room, room'⟩ := reduced
  have packed : (adler32.finalize s).toNat = 2 ^ 16 * s.b.toNat + s.a.toNat := packed32 (by omega) (by omega)
  rw [packed, ← first, ← second, mod_eq_of_lt (by omega), mod_eq_of_lt (by omega)]

/-- In a call, after whole blocks and the beginning of another, no addition of the next byte wraps, and neither does one of `UpdateByte`. -/
def NoWrap (s : Adler32State) : Prop :=
  (∀ blocks before : Bytes, blocks.length % nMax = 0 → before.length < nMax → ∀ byte : UInt8,
      let t := blockLoop (adler32.update s blocks) before
      t.a.toNat + byte.toNat < 2 ^ 32 ∧ t.b.toNat + (t.a.toNat + byte.toNat) < 2 ^ 32) ∧
    ∀ byte : UInt8, s.a.toNat + byte.toNat < 2 ^ 32 ∧ s.b.toNat + (s.a.toNat + byte.toNat) % 65521 < 2 ^ 32

theorem Reduced.noWrap (reduced : Reduced seen s) : NoWrap s := by
  constructor
  · intro blocks before _ short byte
    have start : Reduced (seen ++ blocks) (adler32.update s blocks) := updateLoop_reduced reduced blocks.length (le_refl _)
    obtain ⟨_, room⟩ := blockLoop_sums start (le_of_lt short)
    obtain ⟨fits, fits', _⟩ := room.addByte short byte
    exact ⟨fits, fits'⟩
  · intro byte
    obtain ⟨fits, fits', _⟩ := reduced.2.addByte (by decide) byte
    exact ⟨fits, by omega⟩

end Adler

/-- Whatever calls the bytes come in, the checksums are those of the text, and no state that calls reach can wrap. -/
theorem checksums_exact (feeds : List Feed) :
    let data := feeds.flatMap Feed.bytes
    let bytes := data.map UInt8.toNat
    ((Internet.checksum16.run feeds).toNat = 2 ^ 16 - 1 - Internet.onesSum (wordValues data) ∧
        Internet.NoWrap (feeds.foldl Internet.checksum16.feed Internet.checksum16.initial)) ∧
      ((adler32.run feeds).toNat = 2 ^ 16 * (runningSum 1 bytes % 65521) + (1 + bytes.sum) % 65521 ∧
        NoWrap (feeds.foldl adler32.feed adler32.initial)) ∧
      (fletcher16.run feeds).toNat = 2 ^ 8 * (runningSum 0 bytes % 255) + bytes.sum % 255 ∧
      (fletcher32.run feeds).toNat = 2 ^ 16 * (runningSum 0 (wordValues data) % 65535) + (wordValues data).sum % 65535 ∧
        NoWrap (feeds.foldl fletcher32.feed fletcher32.initial) := by
  intro data bytes
  have internet : Gathers Internet.addWord 0 data (feeds.foldl Internet.checksum16.feed Internet.checksum16.initial) := run_words feeds
  have fletcher : Gathers addWord {} data (feeds.foldl fletcher32.feed fletcher32.initial) := run_words feeds
  have adler := feeds_reduced feeds
  have sums : Sums16 data (feeds.foldl fletcher16.feed fletcher16.initial) := feeds_sums16 feeds
  exact ⟨⟨Internet.finalize_exact internet, Internet.reached_noWrap internet⟩, ⟨finalize_exact adler, adler.noWrap⟩,
    finalize16_exact sums, finalize32_exact fletcher, reached_noWrap fletcher⟩

end NginBase.Hashing.Checksum
