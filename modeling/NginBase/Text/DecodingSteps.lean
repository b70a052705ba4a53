import NginBase.Text.Convert

namespace NginBase.Unicode

open List Nat

section

variable {α β : Type} (decode : List α → DecodeResult)

def advance (input : List α) : Nat :=
  if (decode input).error = .none then (decode input).unitsConsumed else clampConsumed (decode input).unitsConsumed input.length

def stepsLoop : Nat → Nat → List α → List (Nat × DecodeResult)
  | 0, _, _ => []
  | _ + 1, _, [] => []
  | fuel + 1, offset, input => (offset, decode input) :: stepsLoop fuel (offset + advance decode input) (input.drop (advance decode input))

def steps (offset : Nat) (input : List α) : List (Nat × DecodeResult) := stepsLoop decode input.length offset input

def taken (policy : ErrorPolicy) (decoded : DecodeResult) : List Nat :=
  if decoded.error = .none then [decoded.codePoint] else if policy = .replace then [replacementCharacter] else []

def collect (policy : ErrorPolicy) : List (Nat × DecodeResult) → Except ConversionError (List Nat)
  | [] => .ok []
  | (offset, decoded) :: rest =>
    if decoded.error ≠ .none ∧ policy = .strict then .error ⟨decoded.error, offset⟩
    else (collect policy rest).map (taken policy decoded ++ ·)

variable {decode} {encode : Nat → List α} (exact : Exact decode encode)

include exact

theorem advance_pos {input : List α} (some : input ≠ []) : 0 < advance decode input := by
  unfold advance
  split
  · rename_i ok
    obtain ⟨c, rest, _, _, decoded⟩ := exact.encoded ok
    rw [decoded]
    exact exact.positive c
  · have positive := length_pos_iff.mpr some
    unfold clampConsumed
    split <;> omega

theorem advance_le {input : List α} (some : input ≠ []) : advance decode input ≤ input.length := by
  unfold advance
  split
  · rename_i ok
    obtain ⟨c, rest, _, shape, decoded⟩ := exact.encoded ok
    rw [decoded, shape, length_append]
    exact le_add_right _ _
  · have positive := length_pos_iff.mpr some
    unfold clampConsumed
    split <;> omega

theorem drop_advance_lt {input : List α} (some : input ≠ []) : (input.drop (advance decode input)).length < input.length := by
  have moves := advance_pos exact some
  have positive := length_pos_iff.mpr some
  rw [length_drop]
  omega

theorem stepsLoop_enough (fuel : Nat) : ∀ (fuel' offset : Nat) (input : List α), input.length ≤ fuel → input.length ≤ fuel' →
    stepsLoop decode fuel offset input = stepsLoop decode fuel' offset input := by
  induction fuel with
  | zero =>
    intro fuel' offset input small _
    rw [length_eq_zero_iff.mp (le_zero.mp small)]
    cases fuel' <;> rfl
  | succ fuel ih =>
    intro fuel' offset input small small'
    cases input with
    | nil => cases fuel' <;> rfl
    | cons unit input =>
      have less := drop_advance_lt exact (cons_ne_nil unit input)
      cases fuel' with
      | zero => cases small'
      | succ fuel' =>
        unfold stepsLoop
        rw [ih fuel' _ _ (by omega) (by omega)]

theorem steps_cons (offset : Nat) {input : List α} (some : input ≠ []) : steps decode offset input =
      (offset, decode input) :: steps decode (offset + advance decode input) (input.drop (advance decode input)) := by
  have less := drop_advance_lt exact some
  cases input with
  | nil => exact absurd rfl some
  | cons unit input =>
    unfold steps
    rw [List.length_cons, stepsLoop, stepsLoop_enough exact input.length _ _ _ (Nat.lt_succ_iff.mp less) (Nat.le_refl _)]
    exact fun empty => cons_ne_nil unit input empty

theorem convertLoop_collect (append : Nat → List β) (policy : ErrorPolicy) (rounds : Nat) :
    ∀ (input : List α) (offset : Nat) (output : List β), input.length ≤ rounds →
      convertLoop decode append policy rounds input offset output =
        some ((collect policy (steps decode offset input)).map fun codePoints => output ++ codePoints.flatMap append) := by
  have mapped (x : Except ConversionError (List Nat)) (first : List Nat) (output : List β) :
      (x.map (first ++ ·)).map (fun codePoints => output ++ codePoints.flatMap append) =
        x.map fun codePoints => output ++ first.flatMap append ++ codePoints.flatMap append := by
    cases x with
    | error failure => rfl
    | ok codePoints => simp [Except.map]
  induction rounds with
  | zero =>
    intro input offset output small
    rw [length_eq_zero_iff.mp (le_zero.mp small)]
    simp [convertLoop, steps, stepsLoop, collect, Except.map]
  | succ rounds ih =>
    intro input offset output small
    cases input with
    | nil => simp [convertLoop, steps, stepsLoop, collect, Except.map]
    | cons unit input =>
      have less := drop_advance_lt exact (cons_ne_nil unit input)
      have later := fun output => ih _ (offset + advance decode (unit :: input)) output (Nat.lt_succ_iff.mp (Nat.lt_of_lt_of_le less small))
      rw [steps_cons exact offset (cons_ne_nil unit input), collect]
      unfold convertLoop
      by_cases ok : (decode (unit :: input)).error = .none
      · rw [advance, if_pos ok] at later
        rw [if_pos ok, if_neg (fun bad => bad.1 ok), mapped, later, taken, if_pos ok, flatMap_singleton, advance, if_pos ok]
      rw [advance, if_neg ok] at later
      rw [if_neg ok, taken, if_neg ok, advance, if_neg ok]
      cases policy with
      | strict => rw [if_pos ⟨ok, rfl⟩]; rfl
      | replace =>
        rw [if_neg (by simp), mapped, if_pos rfl, later, flatMap_singleton]
      | skip =>
        dsimp only
        rw [if_neg (by simp), mapped, if_neg (by simp), later, flatMap_nil, append_nil]

omit exact in
theorem steps_nil (offset : Nat) : steps decode offset ([] : List α) = [] := rfl

theorem steps_induct {motive : List α → Prop} (nil : motive [])
    (step : ∀ input, input ≠ [] → motive (input.drop (advance decode input)) → motive input) (input : List α) : motive input := by
  induction size : input.length using Nat.strong_induction_on generalizing input with
  | _ n ih =>
    by_cases empty : input = []
    · rwa [empty]
    · have less := drop_advance_lt exact empty
      exact step input empty (ih _ (size ▸ less) _ rfl)

theorem steps_offset_le (input : List α) : ∀ offset, ∀ step ∈ steps decode offset input, offset ≤ step.1 := by
  induction input using steps_induct exact with
  | nil =>
    intro offset step mem
    cases mem
  | step input some ih =>
    intro offset step mem
    rw [steps_cons exact offset some] at mem
    rcases mem_cons.mp mem with rfl | later
    · exact le_refl offset
    · exact le_trans (le_add_right _ _) (ih _ step later)

end

def visited (policy : ErrorPolicy) (list : List (Nat × DecodeResult)) : List Nat :=
  (if policy = .strict then list.takeWhile fun step => step.2.error = .none else list).flatMap fun step => taken policy step.2

def firstError (list : List (Nat × DecodeResult)) : Option ConversionError :=
  (list.find? fun step => step.2.error ≠ .none).map fun step => ⟨step.2.error, step.1⟩

theorem collect_lenient {policy : ErrorPolicy} (lenient : policy ≠ .strict) (list : List (Nat × DecodeResult)) :
    collect policy list = .ok (visited policy list) := by
  unfold visited
  rw [if_neg lenient]
  induction list with
  | nil => rfl
  | cons step list ih =>
    rw [collect, if_neg fun bad => lenient bad.2, ih]
    rfl

theorem firstError_cons (step : Nat × DecodeResult) (list : List (Nat × DecodeResult)) :
    firstError (step :: list) = if step.2.error = .none then firstError list else some ⟨step.2.error, step.1⟩ := by
  unfold firstError
  split
  · rename_i ok
    rw [find?_cons_of_neg (by simpa using ok)]
  · rename_i bad
    rw [find?_cons_of_pos (by simpa using bad)]
    rfl

theorem visited_strict_cons (step : Nat × DecodeResult) (list : List (Nat × DecodeResult)) :
    visited .strict (step :: list) = if step.2.error = .none then step.2.codePoint :: visited .strict list else [] := by
  unfold visited
  rw [if_pos rfl, if_pos rfl]
  split
  · rename_i ok
    rw [takeWhile_cons_of_pos (by simpa using ok), flatMap_cons, taken, if_pos ok]
    rfl
  · rename_i bad
    rw [takeWhile_cons_of_neg (by simpa using bad)]
    rfl

theorem collect_strict (list : List (Nat × DecodeResult)) : collect .strict list = match firstError list with
      | some error => .error error
      | none => .ok (visited .strict list) := by
  induction list with
  | nil => rfl
  | cons step list ih =>
    rw [firstError_cons, visited_strict_cons]
    by_cases ok : step.2.error = .none
    · rw [collect, if_neg fun bad => bad.1 ok, ih, if_pos ok, if_pos ok, taken, if_pos ok]
      cases firstError list <;> rfl
    · rw [collect, if_pos ⟨ok, rfl⟩, if_neg ok]

theorem countLoop_collect (policy : ErrorPolicy) (rounds : Nat) : ∀ (input : Bytes) (offset count : Nat), input.length ≤ rounds →
    countLoop policy rounds input offset count =
      some ((collect policy (steps decodeUtf8 offset input)).map fun codePoints => count + codePoints.length) := by
  have mapped (x : Except ConversionError (List Nat)) (first : List Nat) (count : Nat) :
      (x.map (first ++ ·)).map (fun codePoints => count + codePoints.length) = x.map fun codePoints => count + first.length + codePoints.length := by
    cases x with
    | error failure => rfl
    | ok codePoints =>
      show Except.ok (count + (first ++ codePoints).length) = Except.ok (count + first.length + codePoints.length)
      rw [length_append, add_assoc]
  induction rounds with
  | zero =>
    intro input offset count small
    rw [length_eq_zero_iff.mp (le_zero.mp small)]
    rfl
  | succ rounds ih =>
    intro input offset count small
    cases input with
    | nil => rfl
    | cons unit input =>
      have less := drop_advance_lt exactUtf8 (cons_ne_nil unit input)
      have later := fun count => ih _ (offset + advance decodeUtf8 (unit :: input)) count (Nat.lt_succ_iff.mp (Nat.lt_of_lt_of_le less small))
      rw [steps_cons exactUtf8 offset (cons_ne_nil unit input), collect]
      unfold countLoop
      by_cases ok : (decodeUtf8 (unit :: input)).error = .none
      · rw [advance, if_pos ok] at later
        rw [if_pos ok, if_neg (fun bad => bad.1 ok), mapped, later, taken, if_pos ok, advance, if_pos ok]
        rfl
      · rw [advance, if_neg ok] at later
        rw [if_neg ok, taken, if_neg ok, advance, if_neg ok]
        cases policy with
        | strict => rw [if_pos ⟨ok, rfl⟩]; rfl
        | replace =>
          rw [if_neg (fun bad => nomatch bad.2), mapped, if_pos rfl, later]
          rfl
        | skip =>
          dsimp only
          rw [if_neg (fun bad => nomatch bad.2), mapped, if_neg (fun bad => nomatch bad), later]
          rfl

end NginBase.Unicode
