import NginBase.Text.BasicStringLaws
import NginBase.Text.BasicStringSearch

namespace NginBase.Text

open Library List Nat Option SearchTraits

namespace Search

section

variable {C : Type} {haystack : List C}

def UnitAt (haystack : List C) (property : C → Prop) (index : Nat) : Prop := ∃ ch, haystack[index]? = some ch ∧ property ch

abbrev FirstFrom (pos : Nat) (property : Nat → Prop) (found : Option Nat) : Prop :=
  ∃ result, found = some result ∧ LeastOr npos (fun i => pos ≤ i ∧ property i) result

abbrev LastTo (pos : Nat) (property : Nat → Prop) (found : Option Nat) : Prop :=
  ∃ result, found = some result ∧ GreatestOr npos (fun i => i ≤ pos ∧ property i) result

theorem UnitAt.lt {property : C → Prop} {index : Nat} (h : UnitAt haystack property index) : index < haystack.length := by
  obtain ⟨ch, found, _⟩ := h
  exact (List.getElem?_eq_some_iff.mp found).1

theorem testChar_answers (test : C → Bool) {index : Nat} (inside : index < haystack.length) :
    Answers (testChar haystack test) (UnitAt haystack fun ch => test ch = true) index := by
  have found := getElem?_eq_getElem inside
  refine ⟨test haystack[index], by rw [testChar, found, map_some], ?_⟩
  constructor
  · exact fun yes => ⟨_, found, yes⟩
  · rintro ⟨ch, found', yes⟩
    rw [found] at found'
    cases found'
    exact yes

variable {toRawByte : C → UInt8}

theorem buildRawCharLookup_get (values : List C) (byte : UInt8) :
    (buildRawCharLookup toRawByte values)[byte.toNat]? = some (values.any fun value => decide (toRawByte value = byte)) := by
  have fold (lookup : List Bool) (length : lookup.length = 256) {before : Bool} (entry : lookup[byte.toNat]? = some before) :
      (values.foldl (fun lookup value => lookup.set (toRawByte value).toNat true) lookup)[byte.toNat]? =
        some (before || values.any fun value => decide (toRawByte value = byte)) := by
    induction values generalizing lookup before with
    | nil => rw [foldl_nil, entry, any_nil, Bool.or_false]
    | cons value values ih =>
      rw [any_cons, ← Bool.or_assoc]
      apply ih
      · rw [length_set, length]
      · have small := byte.toNat_lt
        rw [getElem?_set]
        by_cases same : toRawByte value = byte
        · rw [if_pos (congrArg UInt8.toNat same), if_pos (by rw [same, length]; exact small), decide_eq_true same, Bool.or_true]
        · rw [if_neg (fun equal => same (UInt8.toNat.inj equal)), entry, decide_eq_false same, Bool.or_false]
  have start : (replicate 256 false)[byte.toNat]? = some false := by
    rw [getElem?_replicate, if_pos byte.toNat_lt]
  have folded := fold (replicate 256 false) (length_replicate) start
  rwa [Bool.false_or] at folded

theorem memchr_spec (toRawByte : C → UInt8) {start count : Nat} (inside : start + count ≤ haystack.length) (byte : UInt8) :
    ∃ hit, memchr toRawByte haystack start count byte = some hit ∧
      match hit with
      | none => ∀ i, start ≤ i → i < start + count → ¬ UnitAt haystack (fun ch => toRawByte ch = byte) i
      | some candidate => start ≤ candidate ∧ candidate < start + count ∧ UnitAt haystack (fun ch => toRawByte ch = byte) candidate ∧
          ∀ i, start ≤ i → i < candidate → ¬ UnitAt haystack (fun ch => toRawByte ch = byte) i := by
  have window (i : Nat) (small : i < count) : ((haystack.drop start).take count)[i]? = haystack[start + i]? := by
    rw [getElem?_take_of_lt small, getElem?_drop]
  refine ⟨_, if_pos inside, ?_⟩
  cases found : ((haystack.drop start).take count).findIdx? fun ch => decide (toRawByte ch = byte) with
  | none =>
    intro i after before at_
    obtain ⟨ch, here, equal⟩ := at_
    have absent := findIdx?_eq_none_iff.mp found ch
    have mem : ch ∈ (haystack.drop start).take count := by
      apply mem_of_getElem? (i := i - start)
      rw [window _ (by omega), Nat.add_sub_cancel' after, here]
    exact of_decide_eq_false (absent mem) equal
  | some j =>
    obtain ⟨small, here, earlier⟩ := findIdx?_eq_some_iff_getElem.mp found
    have length : ((haystack.drop start).take count).length ≤ count := length_take_le _ _
    have entry := window j (by omega)
    rw [getElem?_eq_getElem small] at entry
    show start ≤ start + j ∧ start + j < start + count ∧ UnitAt haystack (fun ch => toRawByte ch = byte) (start + j) ∧
      ∀ i, start ≤ i → i < start + j → ¬ UnitAt haystack (fun ch => toRawByte ch = byte) i
    refine ⟨le_add_right _ _, by omega, ⟨_, entry.symm, of_decide_eq_true here⟩, ?_⟩
    rintro i after before ⟨ch, there, equal⟩
    have lower : i - start < j := by omega
    have none := earlier (i - start) lower
    have entry' := window (i - start) (by omega)
    rw [Nat.add_sub_cancel' after, there, List.getElem?_eq_getElem (by omega)] at entry'
    rw [some.inj entry'] at none
    exact none (decide_eq_true equal)

theorem findSingleRawChar_spec (injective : Function.Injective toRawByte) (ch : C) {pos : Nat} (most : pos ≤ haystack.length) :
    FirstFrom pos (UnitAt haystack (· = ch)) (findSingleRawChar toRawByte haystack ch pos) := by
  obtain ⟨hit, searched, meaning⟩ := memchr_spec toRawByte (Nat.le_of_eq (Nat.add_sub_cancel' most)) (toRawByte ch)
  rw [findSingleRawChar, searched]
  simp only [injective.eq_iff] at meaning
  cases hit with
  | none =>
    refine ⟨npos, rfl, .none ?_⟩
    rintro i ⟨after, at_⟩
    have inside := at_.lt
    exact meaning i after (by omega) at_
  | some candidate =>
    obtain ⟨after, _, at_, earlier⟩ := meaning
    refine ⟨candidate, rfl, .inl ⟨⟨after, at_⟩, ?_⟩⟩
    rintro i ⟨after', at'⟩
    exact Nat.le_of_not_lt fun before => earlier i after' before at'

end

variable {C : Type} [DecidableEq C] {traits : SearchTraits C} {haystack : List C}

def OccursAt (traits : SearchTraits C) (haystack value : List C) (index : Nat) : Prop :=
  index + value.length ≤ haystack.length ∧ traits.same ((haystack.drop index).take value.length) value = true

theorem compareAt_answers {value : List C} {index : Nat} (inside : index + value.length ≤ haystack.length) :
    Answers (compareAt traits haystack value) (OccursAt traits haystack value) index :=
  ⟨_, if_pos inside, fun yes => ⟨inside, yes⟩, fun occurs => occurs.2⟩

theorem lookup_contains {toRawByte : C → UInt8} (raw : traits.rawByte = some toRawByte) (values : List C) (ch : C) :
    (values.any fun value => decide (toRawByte value = toRawByte ch)) = containsChar traits values ch := by
  obtain ⟨injective, standard⟩ := traits.standard toRawByte raw
  congr 1
  funext value
  rw [standard]
  apply decide_eq_decide.mpr
  rw [injective.eq_iff, singleton_inj]

theorem testLookup_answers {toRawByte : C → UInt8} (raw : traits.rawByte = some toRawByte) (values : List C) (wanted : Bool) {index : Nat}
    (inside : index < haystack.length) :
    Answers (testLookup toRawByte haystack (buildRawCharLookup toRawByte values) wanted)
      (UnitAt haystack fun ch => containsChar traits values ch = wanted) index := by
  have found := getElem?_eq_getElem inside
  refine ⟨containsChar traits values haystack[index] == wanted, ?_, ?_⟩
  · rw [testLookup, found, bind_eq_bind, bind_some, buildRawCharLookup_get, lookup_contains raw]
    rfl
  · rw [beq_iff_eq]
    constructor
    · exact fun yes => ⟨_, found, yes⟩
    · rintro ⟨ch, found', yes⟩
      rw [found] at found'
      cases found'
      exact yes

section

def PairAt (haystack : List C) (first second : C) (index : Nat) : Prop := UnitAt haystack (· = first) index ∧ UnitAt haystack (· = second) (index + 1)

variable {toRawByte : C → UInt8}

theorem findTwoLoop_spec (injective : Function.Injective toRawByte) (first second : C) (rounds : Nat) : ∀ search ≤ haystack.length,
    haystack.length - search < rounds → ∃ result,
      findTwoLoop toRawByte haystack first second rounds search (haystack.length - search) = some result ∧
        LeastOr npos (fun i => search ≤ i ∧ PairAt haystack first second i) result := by
  induction rounds with
  | zero => exact fun search _ enough => absurd enough (not_lt_zero _)
  | succ rounds ih =>
    intro search most enough
    unfold findTwoLoop
    split
    · refine ⟨npos, rfl, .none ?_⟩
      rintro i ⟨after, _, second⟩
      have inside := second.lt
      omega
    · have fits : search + (haystack.length - search - 1) ≤ haystack.length := by omega
      obtain ⟨hit, searched, meaning⟩ := memchr_spec toRawByte fits (toRawByte first)
      rw [searched]
      simp only [injective.eq_iff] at meaning
      cases hit with
      | none =>
        refine ⟨npos, rfl, .none ?_⟩
        rintro i ⟨after, here, next⟩
        have inside := next.lt
        exact meaning i after (by omega) here
      | some candidate =>
        obtain ⟨after, before, here, earlier⟩ := meaning
        have inside : candidate + 1 < haystack.length := by omega
        have next := getElem?_eq_getElem inside
        dsimp only
        rw [next]
        dsimp only
        split
        · rename_i same
          refine ⟨candidate, rfl, .inl ⟨⟨after, here, _, next, same⟩, ?_⟩⟩
          rintro i ⟨after', here', _⟩
          exact Nat.le_of_not_lt fun before' => earlier i after' before' here'
        · rename_i other
          obtain ⟨result, looped, least⟩ := ih (candidate + 1) (le_of_lt inside) (by omega)
          refine ⟨result, looped, least.congr fun i => ?_⟩
          constructor
          · exact fun later => ⟨by omega, later.2⟩
          · rintro ⟨after', here', ch, found, equal⟩
            refine ⟨Nat.lt_of_not_le fun early => ?_, here', ch, found, equal⟩
            rcases Nat.eq_or_lt_of_le early with rfl | strictly
            · rw [next] at found
              exact other ((some.inj found).trans equal)
            · exact earlier i after' strictly here'

theorem rfindTwoRawChars_spec (first second : C) {pos : Nat} (long : 2 ≤ haystack.length) (most : pos ≤ haystack.length - 2) :
    LastTo pos (PairAt haystack first second) (rfindTwoRawChars haystack first second pos) := by
  rw [rfindTwoRawChars, if_neg (not_lt.mpr long), min_eq_left most]
  apply scanDown_spec
  intro i below
  have inside : i < haystack.length := by omega
  have found := getElem?_eq_getElem inside
  have step : testTwo haystack first second i =
      if haystack[i] = first then testChar haystack (fun c => decide (c = second)) (i + 1) else some false := by
    rw [testTwo, found]
  unfold Answers
  rw [step]
  split
  · rename_i same
    obtain ⟨answer, tested, meaning⟩ := testChar_answers (fun c => decide (c = second)) (show i + 1 < haystack.length by omega)
    simp only [decide_eq_true_eq] at meaning
    exact ⟨answer, tested, meaning.trans ⟨fun next => ⟨⟨_, found, same⟩, next⟩, fun pair => pair.2⟩⟩
  · rename_i other
    refine ⟨false, rfl, iff_of_false Bool.false_ne_true ?_⟩
    rintro ⟨⟨ch, found', equal⟩, _⟩
    rw [found] at found'
    exact other ((some.inj found').trans equal)

theorem occursAt_unit {raw : C → UInt8} (fast : traits.rawByte = some raw) (ch : C) (index : Nat) :
    OccursAt traits haystack [ch] index ↔ UnitAt haystack (· = ch) index := by
  obtain ⟨_, standard⟩ := traits.standard raw fast
  unfold OccursAt
  rw [standard, decide_eq_true_eq]
  constructor
  · rintro ⟨fits, window⟩
    have inside : index < haystack.length := fits
    rw [drop_eq_getElem_cons inside, length_singleton, take_succ_cons, take_zero, singleton_inj] at window
    exact ⟨_, getElem?_eq_getElem inside, window⟩
  · rintro ⟨_, found, rfl⟩
    obtain ⟨inside, found⟩ := List.getElem?_eq_some_iff.mp found
    refine ⟨inside, ?_⟩
    rw [drop_eq_getElem_cons inside, length_singleton, take_succ_cons, take_zero, found]

theorem occursAt_pair {raw : C → UInt8} (fast : traits.rawByte = some raw) (first second : C) (index : Nat) :
    OccursAt traits haystack [first, second] index ↔ PairAt haystack first second index := by
  obtain ⟨_, standard⟩ := traits.standard raw fast
  unfold OccursAt
  rw [standard, decide_eq_true_eq]
  constructor
  · rintro ⟨fits, window⟩
    have inside : index + 1 < haystack.length := fits
    rw [drop_eq_getElem_cons (lt_of_succ_lt inside), drop_eq_getElem_cons inside, length_cons, length_singleton,
      take_succ_cons, take_succ_cons, take_zero, cons.injEq, singleton_inj] at window
    exact ⟨⟨_, getElem?_eq_getElem (lt_of_succ_lt inside), window.1⟩, ⟨_, getElem?_eq_getElem inside, window.2⟩⟩
  · rintro ⟨⟨_, found, rfl⟩, _, found', rfl⟩
    obtain ⟨_, found⟩ := List.getElem?_eq_some_iff.mp found
    obtain ⟨inside, found'⟩ := List.getElem?_eq_some_iff.mp found'
    refine ⟨inside, ?_⟩
    rw [drop_eq_getElem_cons (lt_of_succ_lt inside), drop_eq_getElem_cons inside, length_cons, length_singleton,
      take_succ_cons, take_succ_cons, take_zero, found, found']

end

section

variable (bounded : haystack.length < npos)

include bounded

omit [DecidableEq C] in
theorem scanFrom_spec {test : Nat → Option Bool} {property : C → Prop}
    (answers : ∀ i < haystack.length, Answers test (UnitAt haystack property) i) {pos : Nat} (most : pos ≤ haystack.length) :
    FirstFrom pos (UnitAt haystack property) (scanFrom haystack test pos) := by
  have fits : haystack.length < 2 ^ 64 := lt_trans bounded (by decide)
  have more (index : Nat) : decide (index < haystack.length) = true ↔ index < haystack.length := decide_eq_true_iff
  obtain ⟨result, scanned, least⟩ := scanUp_spec npos fits more answers (haystack.length + 1) pos most (by omega)
  refine ⟨result, scanned, least.congr fun i => ?_⟩
  constructor
  · exact fun inside => ⟨inside.1, inside.2.2⟩
  · exact fun at_ => ⟨at_.1, at_.2.lt, at_.2⟩

theorem find_spec (value : List C) (pos : Nat) :
    FirstFrom pos (OccursAt traits haystack value) (find traits haystack value pos) := by
  unfold find
  split
  · rename_i empty
    rw [empty]
    have everywhere (i : Nat) : OccursAt traits haystack [] i ↔ i ≤ haystack.length := and_iff_left traits.empty
    split
    · rename_i inside
      exact ⟨pos, rfl, .inl ⟨⟨le_refl pos, (everywhere pos).mpr inside⟩, fun i at_ => at_.1⟩⟩
    refine ⟨npos, rfl, .none ?_⟩
    rintro i ⟨after, occurs⟩
    have inside := (everywhere i).mp occurs
    omega
  · split
    · refine ⟨npos, rfl, .none ?_⟩
      rintro i ⟨_, fits, _⟩
      omega
    · rename_i nonempty short
      split
      · refine ⟨npos, rfl, .none ?_⟩
        rintro i ⟨after, fits, _⟩
        omega
      · rename_i early
        have inside : pos ≤ haystack.length := by omega
        have loop : ∃ result, scanUp (compareAt traits haystack value) npos (fun index => decide (index ≤ haystack.length - value.length)) 64
            (haystack.length + 1) pos = some result ∧ LeastOr npos (fun i => pos ≤ i ∧ OccursAt traits haystack value i) result := by
          have stop : haystack.length - value.length + 1 < 2 ^ 64 := by
            have small : npos < 2 ^ 64 := by decide
            omega
          have more (index : Nat) : decide (index ≤ haystack.length - value.length) = true ↔ index < haystack.length - value.length + 1 :=
            decide_eq_true_iff.trans Nat.lt_succ_iff.symm
          have positive := length_pos_iff.mpr nonempty
          have answers (i : Nat) (before : i < haystack.length - value.length + 1) :
              Answers (compareAt traits haystack value) (OccursAt traits haystack value) i := compareAt_answers (by omega)
          obtain ⟨result, scanned, least⟩ := scanUp_spec npos stop more answers (haystack.length + 1) pos (by omega) (by omega)
          refine ⟨result, scanned, least.congr fun i => ?_⟩
          constructor
          · exact fun inside => ⟨inside.1, inside.2.2⟩
          · rintro ⟨after, fits, equal⟩
            exact ⟨after, by omega, fits, equal⟩
        split
        · rename_i raw ch fast
          obtain ⟨result, searched, least⟩ := findSingleRawChar_spec (traits.standard raw fast).1 ch inside
          exact ⟨result, searched, least.congr fun i => and_congr_right fun _ => (occursAt_unit fast ch i).symm⟩
        · rename_i raw first second fast
          obtain ⟨result, searched, least⟩ := findTwoLoop_spec (traits.standard raw fast).1 first second (haystack.length + 1) pos inside (by omega)
          exact ⟨result, searched, least.congr fun i => and_congr_right fun _ => (occursAt_pair fast first second i).symm⟩
        · exact loop

omit bounded in
theorem rfind_spec (value : List C) (pos : Nat) :
    LastTo pos (OccursAt traits haystack value) (rfind traits haystack value pos) := by
  unfold rfind
  split
  · rename_i empty
    rw [empty]
    have everywhere (i : Nat) : OccursAt traits haystack [] i ↔ i ≤ haystack.length := and_iff_left traits.empty
    refine ⟨_, rfl, .inl ⟨⟨min_le_left _ _, (everywhere _).mpr (min_le_right _ _)⟩, ?_⟩⟩
    rintro i ⟨before, occurs⟩
    exact Nat.le_min.mpr ⟨before, (everywhere i).mp occurs⟩
  · split
    · refine ⟨npos, rfl, .none ?_⟩
      rintro i ⟨_, fits, _⟩
      omega
    · rename_i nonempty short
      have positive := length_pos_iff.mpr nonempty
      have start (i : Nat) : i ≤ lastNeedleStart haystack.length value.length pos ∧ OccursAt traits haystack value i ↔
          i ≤ pos ∧ OccursAt traits haystack value i := by
        constructor
        · rintro ⟨before, occurs⟩
          exact ⟨(Nat.le_min.mp before).1, occurs⟩
        · rintro ⟨before, fits, equal⟩
          exact ⟨Nat.le_min.mpr ⟨before, by omega⟩, fits, equal⟩
      have last : lastNeedleStart haystack.length value.length pos ≤ haystack.length - value.length := min_le_right _ _
      have loop : LastTo pos (OccursAt traits haystack value) (scanDown (compareAt traits haystack value) npos (lastNeedleStart haystack.length value.length pos)) := by
        obtain ⟨result, scanned, greatest⟩ := scanDown_spec npos (lastNeedleStart haystack.length value.length pos) fun i below =>
          compareAt_answers (show i + value.length ≤ haystack.length by omega)
        exact ⟨result, scanned, greatest.congr start⟩
      split
      · rename_i raw ch fast
        have inside (i : Nat) (below : i ≤ lastNeedleStart haystack.length 1 pos) : i < haystack.length := by
          have before : i ≤ haystack.length - 1 := le_trans below last
          omega
        obtain ⟨result, searched, greatest⟩ := scanDown_spec npos (lastNeedleStart haystack.length 1 pos) fun i below =>
          testChar_answers (fun c => decide (c = ch)) (inside i below)
        simp only [decide_eq_true_eq, ← occursAt_unit fast] at greatest
        exact ⟨result, searched, greatest.congr start⟩
      · rename_i raw first second fast
        have long : 2 ≤ haystack.length := not_lt.mp short
        obtain ⟨result, searched, greatest⟩ := rfindTwoRawChars_spec first second long last
        simp only [← occursAt_pair fast] at greatest
        exact ⟨result, searched, greatest.congr start⟩
      · exact loop

omit bounded in
theorem contains_single {raw : C → UInt8} (fast : traits.rawByte = some raw) (ch c : C) : c = ch ↔ containsChar traits [ch] c = true := by
  obtain ⟨_, standard⟩ := traits.standard raw fast
  rw [containsChar, any_cons, any_nil, Bool.or_false, standard, decide_eq_true_eq, singleton_inj, eq_comm]

def InSet (traits : SearchTraits C) (haystack values : List C) : Nat → Prop := UnitAt haystack fun ch => containsChar traits values ch = true

def OutsideSet (traits : SearchTraits C) (haystack values : List C) : Nat → Prop := UnitAt haystack fun ch => containsChar traits values ch = false

omit bounded in
theorem not_inSet_nil (index : Nat) : ¬ InSet traits haystack [] index := by
  rintro ⟨ch, _, inside⟩
  cases inside

omit bounded in
theorem outsideSet_nil {index : Nat} : OutsideSet traits haystack [] index ↔ index < haystack.length :=
  ⟨UnitAt.lt, fun inside => ⟨_, getElem?_eq_getElem inside, rfl⟩⟩

omit bounded in
theorem outside_answers (traits : SearchTraits C) (values : List C) {index : Nat} (inside : index < haystack.length) :
    Answers (testChar haystack fun ch => !containsChar traits values ch) (OutsideSet traits haystack values) index := by
  have answers := testChar_answers (fun ch => !containsChar traits values ch) inside
  simp only [Bool.not_eq_true'] at answers
  exact answers

variable (values : List C) (pos : Nat)

theorem findFirstOf_spec :
    FirstFrom pos (InSet traits haystack values) (findFirstOf traits haystack values pos) := by
  unfold findFirstOf
  split
  · rename_i nowhere
    refine ⟨npos, rfl, .none ?_⟩
    rintro i ⟨after, inside⟩
    rcases nowhere with late | rfl
    · have before := inside.lt
      omega
    · exact not_inSet_nil i inside
  · rename_i somewhere
    obtain ⟨early, nonempty⟩ := not_or.mp somewhere
    have most : pos ≤ haystack.length := by omega
    have loop := scanFrom_spec bounded (fun i inside => testChar_answers (containsChar traits values) inside) most
    cases fast : traits.rawByte with
    | none => exact loop
    | some raw =>
      have table := scanFrom_spec bounded (fun i inside => testLookup_answers fast values true inside) most
      rcases values with _ | ⟨ch, _ | ⟨second, rest⟩⟩
      · exact absurd rfl nonempty
      · obtain ⟨result, searched, least⟩ := findSingleRawChar_spec (traits.standard raw fast).1 ch most
        simp only [contains_single fast ch] at least
        exact ⟨result, searched, least⟩
      · dsimp only
        split
        · exact table
        · exact loop

theorem findFirstNotOf_spec :
    FirstFrom pos (OutsideSet traits haystack values) (findFirstNotOf traits haystack values pos) := by
  unfold findFirstNotOf
  split
  · refine ⟨npos, rfl, .none ?_⟩
    rintro i ⟨after, inside⟩
    have before := inside.lt
    omega
  · rename_i early
    split
    · rename_i empty
      rw [empty]
      exact ⟨pos, rfl, .inl ⟨⟨le_refl pos, outsideSet_nil.mpr (not_le.mp early)⟩, fun i at_ => at_.1⟩⟩
    · have most : pos ≤ haystack.length := by omega
      have loop := scanFrom_spec bounded (fun i inside => outside_answers traits values inside) most
      split
      · rename_i raw fast
        split
        · exact scanFrom_spec bounded (fun i inside => testLookup_answers fast values false inside) most
        · exact loop
      · exact loop

omit [DecidableEq C] bounded in
theorem scanLast_spec {test : Nat → Option Bool} {property : C → Prop} (nonempty : haystack ≠ [])
    (answers : ∀ i < haystack.length, Answers test (UnitAt haystack property) i) (pos : Nat) :
    LastTo pos (UnitAt haystack property) (scanDown test npos (min pos (haystack.length - 1))) := by
  have positive := length_pos_iff.mpr nonempty
  obtain ⟨result, scanned, greatest⟩ := scanDown_spec npos (min pos (haystack.length - 1)) fun i below => answers i (by omega)
  refine ⟨result, scanned, greatest.congr fun i => ?_⟩
  constructor
  · exact fun inside => ⟨(Nat.le_min.mp inside.1).1, inside.2⟩
  · rintro ⟨before, at_⟩
    have inside := at_.lt
    exact ⟨Nat.le_min.mpr ⟨before, by omega⟩, at_⟩

omit bounded in
theorem findLastOf_spec :
    LastTo pos (InSet traits haystack values) (findLastOf traits haystack values pos) := by
  unfold findLastOf
  split
  · rename_i nowhere
    refine ⟨npos, rfl, .none ?_⟩
    rintro i ⟨_, inside⟩
    rcases nowhere with rfl | rfl
    · exact not_lt_zero i inside.lt
    · exact not_inSet_nil i inside
  · rename_i somewhere
    obtain ⟨nonempty, some⟩ := not_or.mp somewhere
    have loop := scanLast_spec nonempty (fun i inside => testChar_answers (containsChar traits values) inside) pos
    cases fast : traits.rawByte with
    | none => exact loop
    | some raw =>
      have table := scanLast_spec nonempty (fun i inside => testLookup_answers fast values true inside) pos
      rcases values with _ | ⟨ch, _ | ⟨second, rest⟩⟩
      · exact absurd rfl some
      · obtain ⟨result, searched, greatest⟩ := scanLast_spec nonempty (fun i inside => testChar_answers (fun c => decide (c = ch)) inside) pos
        simp only [decide_eq_true_eq, contains_single fast ch] at greatest
        exact ⟨result, searched, greatest⟩
      · dsimp only
        split
        · exact table
        · exact loop

omit bounded in
theorem findLastNotOf_spec :
    LastTo pos (OutsideSet traits haystack values) (findLastNotOf traits haystack values pos) := by
  unfold findLastNotOf
  split
  · rename_i empty
    refine ⟨npos, rfl, .none ?_⟩
    rintro i ⟨_, inside⟩
    rw [empty] at inside
    exact not_lt_zero i inside.lt
  · rename_i nonempty
    have positive := length_pos_iff.mpr nonempty
    split
    · rename_i empty
      rw [empty]
      refine ⟨_, rfl, .inl ⟨⟨min_le_left _ _, outsideSet_nil.mpr (by omega)⟩, ?_⟩⟩
      rintro i ⟨before, inside⟩
      have last := inside.lt
      exact Nat.le_min.mpr ⟨before, by omega⟩
    · have loop := scanLast_spec nonempty (fun i inside => outside_answers traits values inside) pos
      split
      · rename_i raw fast
        split
        · exact scanLast_spec nonempty (fun i inside => testLookup_answers fast values false inside) pos
        · exact loop
      · exact loop

end

section

def Occurs (traits : SearchTraits C) (haystack : List C) (needle : Needle C) (index : Nat) : Prop :=
  ∃ units, needle.units = some units ∧ OccursAt traits haystack units index

/-- The code unit at an index is in the set of a needle. One code unit is compared as `Find` compares it. -/
def Belongs (traits : SearchTraits C) (haystack : List C) : Needle C → Nat → Prop
  | .char ch, index => OccursAt traits haystack [ch] index
  | needle, index => ∃ units, needle.units = some units ∧ InSet traits haystack units index

def Avoids (traits : SearchTraits C) (haystack : List C) (needle : Needle C) (index : Nat) : Prop :=
  ∃ units, needle.units = some units ∧ OutsideSet traits haystack units index

omit [DecidableEq C] in
theorem overload_least {search : List C → Nat → Option Nat} {property : List C → Nat → Prop}
    (spec : ∀ units pos, FirstFrom pos (property units) (search units pos)) (needle : Needle C) (pos : Nat) :
    FirstFrom pos (fun i => ∃ units, needle.units = some units ∧ property units i) (overload search needle pos) := by
  unfold overload
  cases shown : needle.units with
  | none =>
    refine ⟨npos, rfl, .none ?_⟩
    rintro i ⟨_, units, null, _⟩
    cases null
  | some units =>
    obtain ⟨result, searched, least⟩ := spec units pos
    refine ⟨result, searched, least.congr fun i => and_congr_right fun _ => ?_⟩
    exact ⟨fun holds => ⟨units, rfl, holds⟩, fun ⟨_, same, holds⟩ => some.inj same ▸ holds⟩

omit [DecidableEq C] in
theorem overload_greatest {search : List C → Nat → Option Nat} {property : List C → Nat → Prop}
    (spec : ∀ units pos, LastTo pos (property units) (search units pos)) (needle : Needle C) (pos : Nat) :
    LastTo pos (fun i => ∃ units, needle.units = some units ∧ property units i) (overload search needle pos) := by
  unfold overload
  cases shown : needle.units with
  | none =>
    refine ⟨npos, rfl, .none ?_⟩
    rintro i ⟨_, units, null, _⟩
    cases null
  | some units =>
    obtain ⟨result, searched, greatest⟩ := spec units pos
    refine ⟨result, searched, greatest.congr fun i => and_congr_right fun _ => ?_⟩
    exact ⟨fun holds => ⟨units, rfl, holds⟩, fun ⟨_, same, holds⟩ => some.inj same ▸ holds⟩

structure Searched (traits : SearchTraits C) (search : (SearchTraits C → List C → Needle C → Nat → Option Nat) → Option Nat)
    (haystack : List C) (needle : Needle C) (pos : Nat) : Prop where
  find : ∃ result, search findNeedle = some result ∧ LeastOr npos (fun i => pos ≤ i ∧ Occurs traits haystack needle i) result
  rfind : ∃ result, search rfindNeedle = some result ∧ GreatestOr npos (fun i => i ≤ pos ∧ Occurs traits haystack needle i) result
  findFirstOf : ∃ result, search findFirstOfNeedle = some result ∧ LeastOr npos (fun i => pos ≤ i ∧ Belongs traits haystack needle i) result
  findLastOf : ∃ result, search findLastOfNeedle = some result ∧ GreatestOr npos (fun i => i ≤ pos ∧ Belongs traits haystack needle i) result
  findFirstNotOf : ∃ result, search findFirstNotOfNeedle = some result ∧ LeastOr npos (fun i => pos ≤ i ∧ Avoids traits haystack needle i) result
  findLastNotOf : ∃ result, search findLastNotOfNeedle = some result ∧ GreatestOr npos (fun i => i ≤ pos ∧ Avoids traits haystack needle i) result

theorem searched (traits : SearchTraits C) (bounded : haystack.length < npos) (needle : Needle C) (pos : Nat) :
    Searched traits (fun search => search traits haystack needle pos) haystack needle pos where
  find := overload_least (find_spec bounded) needle pos
  rfind := overload_greatest rfind_spec needle pos
  findFirstOf := by
    cases needle with
    | char ch => exact find_spec bounded [ch] pos
    | view units => exact overload_least (findFirstOf_spec bounded) (.view units) pos
    | cstr units => exact overload_least (findFirstOf_spec bounded) (.cstr units) pos
  findLastOf := by
    cases needle with
    | char ch => exact rfind_spec [ch] pos
    | view units => exact overload_greatest findLastOf_spec (.view units) pos
    | cstr units => exact overload_greatest findLastOf_spec (.cstr units) pos
  findFirstNotOf := overload_least (findFirstNotOf_spec bounded) needle pos
  findLastNotOf := overload_greatest findLastNotOf_spec needle pos

/-- The searches of a string return what they are specified to return, the same without the fast paths. -/
theorem searches_exact {Alloc : Type} {L : StringLayout C} {v : BasicString C Alloc} (holds : BasicString.Holds L v haystack)
    (traits : SearchTraits C) (needle : Needle C) (pos : Nat) :
    Searched traits (fun search => searchIn (search traits) v needle pos) haystack needle pos ∧
      ∀ search ∈ [findNeedle, rfindNeedle, findFirstOfNeedle, findLastOfNeedle, findFirstNotOfNeedle, findLastNotOfNeedle],
        searchIn (search traits) v needle pos = searchIn (search traits.generic) v needle pos := by
  have bounded : haystack.length < npos := by
    have size := le_trans holds.length_le L.maxCapacity_le_sizeMask
    have small : sizeMask < npos := by decide
    omega
  have shown (search : List C → Needle C → Nat → Option Nat) : searchIn search v needle pos = search haystack needle pos := by
    rw [searchIn, holds.content]
    rfl
  have fast := searched traits bounded needle pos
  have slow := searched traits.generic bounded needle pos
  simp only [shown]
  refine ⟨fast, ?_⟩
  have least {x y : Option Nat} {property : Nat → Prop} (spec : FirstFrom pos property x) (spec' : FirstFrom pos property y) : x = y := by
    obtain ⟨result, rfl, least⟩ := spec
    obtain ⟨result', rfl, least'⟩ := spec'
    rw [least.unique least']
  have greatest {x y : Option Nat} {property : Nat → Prop} (spec : LastTo pos property x) (spec' : LastTo pos property y) : x = y := by
    obtain ⟨result, rfl, greatest⟩ := spec
    obtain ⟨result', rfl, greatest'⟩ := spec'
    rw [greatest.unique greatest']
  simp only [forall_mem_cons, not_mem_nil, false_imp_iff, implies_true, and_true]
  exact ⟨least fast.find slow.find, greatest fast.rfind slow.rfind, least fast.findFirstOf slow.findFirstOf,
    greatest fast.findLastOf slow.findLastOf, least fast.findFirstNotOf slow.findFirstNotOf, greatest fast.findLastNotOf slow.findLastNotOf⟩

theorem byteLayout_addressable : 16 < 2 ^ 64 := by decide

def byteLayout : StringLayout UInt8 where
  zero := 0
  charBytes := 1
  sboBytes := 16
  grow := DefaultGrowthPolicy.grow
  charPositive := Nat.one_pos
  room := by decide
  addressable := byteLayout_addressable
  packed := by decide

def abab : BasicString UInt8 Unit := { sizeAndFlags := 4, storage := .small ([0x61, 0x62, 0x61, 0x62] ++ 0 :: replicate 11 0), alloc := () }

theorem searches_exact_abab :
    Searched char (fun search => searchIn (search char) abab (.view [0x61, 0x62]) npos) [0x61, 0x62, 0x61, 0x62]
      (.view [0x61, 0x62]) npos :=
  have holds : BasicString.Holds byteLayout abab [0x61, 0x62, 0x61, 0x62] := ⟨_, BasicString.holdsIn_small rfl rfl rfl⟩
  (searches_exact holds char (.view [0x61, 0x62]) npos).1

example : searchIn (rfindNeedle char) abab (.view [0x61, 0x62]) npos = some 2 := by decide

end

end Search

end NginBase.Text
