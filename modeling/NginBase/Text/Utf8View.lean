import NginBase.Text.DecodingSteps

namespace NginBase.Unicode

open List Nat Option UInt32 ConversionError

structure Utf8View where
  input : Bytes
  policy : ErrorPolicy
  endOffset : Nat
  error : ConversionError := ⟨.none, 0⟩
  hasError : Bool := false

/-- The scan of the constructor under the strict policy, up to the first error. -/
def scanLoop : Nat → Bytes → Nat → Option (Option ConversionError)
  | _, [], _ => some none
  | 0, _ :: _, _ => none
  | rounds + 1, input, offset =>
    let decoded := decodeUtf8 input
    if decoded.error ≠ .none then some (some ⟨decoded.error, offset⟩)
    else scanLoop rounds (input.drop decoded.unitsConsumed) (offset + decoded.unitsConsumed)

def utf8View (input : Bytes) (policy : ErrorPolicy) : Option Utf8View :=
  if policy = .strict then
    (scanLoop input.length input 0).map fun
      | some error => { input, policy, error, hasError := true, endOffset := error.inputOffset }
      | none => { input, policy, endOffset := input.length }
  else some { input, policy, endOffset := input.length }

namespace Utf8View

variable (view : Utf8View)

def decodeAt (offset : Nat) : DecodeResult := decodeUtf8 (view.input.drop offset)

def normalizeLoop : Nat → Nat → Option Nat
  | rounds, offset =>
    if offset < view.endOffset then
      let decoded := view.decodeAt offset
      if decoded.error = .none then some offset
      else
        match rounds with
        | 0 => none
        | rounds + 1 => normalizeLoop rounds (offset + clampConsumed decoded.unitsConsumed (view.endOffset - offset))
    else some view.endOffset

def normalizeOffset (offset : Nat) : Option Nat :=
  if view.policy ≠ .skip then some offset else view.normalizeLoop (view.endOffset - offset) offset

def dereference (offset : Nat) : Nat :=
  let decoded := view.decodeAt offset
  if decoded.error = .none then decoded.codePoint else replacementCharacter

def increment (offset : Nat) : Option Nat :=
  if view.endOffset ≤ offset then some offset
  else
    let decoded := view.decodeAt offset
    if decoded.error = .none then view.normalizeOffset (offset + decoded.unitsConsumed)
    else if view.policy = .strict then view.normalizeOffset view.endOffset
    else view.normalizeOffset (offset + clampConsumed decoded.unitsConsumed (view.endOffset - offset))

def first : Option Nat := view.normalizeOffset 0

/-- The code points from an iterator to the end; nothing where the increments do not suffice. -/
def visit : Nat → Nat → Option (List Nat)
  | increments, offset =>
    if offset = view.endOffset then some []
    else
      match increments with
      | 0 => none
      | increments + 1 => do
        let next ← view.increment offset
        let codePoints ← visit increments next
        return view.dereference offset :: codePoints

def Visits (codePoints : List Nat) : Prop := ∃ start increments, view.first = some start ∧ view.visit increments start = some codePoints

theorem visit_unique (increments : Nat) : ∀ (increments' offset : Nat) {codePoints codePoints' : List Nat},
    view.visit increments offset = some codePoints → view.visit increments' offset = some codePoints' → codePoints = codePoints' := by
  induction increments with
  | zero =>
    intro increments' offset codePoints codePoints' h h'
    unfold visit at h h'
    split at h
    · rename_i done
      rw [if_pos done] at h'
      exact some.inj (h.symm.trans h')
    · cases h
  | succ increments ih =>
    intro increments' offset codePoints codePoints' h h'
    unfold visit at h h'
    split at h
    · rename_i done
      rw [if_pos done] at h'
      exact some.inj (h.symm.trans h')
    · rename_i more
      rw [if_neg more] at h'
      cases increments' with
      | zero => cases h'
      | succ increments' =>
        obtain ⟨next, moved, h⟩ := bind_eq_some_iff.mp h
        obtain ⟨rest, visited, h⟩ := bind_eq_some_iff.mp h
        obtain ⟨next', moved', h'⟩ := bind_eq_some_iff.mp h'
        obtain ⟨rest', visited', h'⟩ := bind_eq_some_iff.mp h'
        cases h
        cases h'
        rw [moved] at moved'
        cases moved'
        rw [ih increments' next visited visited']

variable {view} in
theorem Visits.unique {codePoints codePoints' : List Nat} (visits : view.Visits codePoints) (visits' : view.Visits codePoints') :
    codePoints = codePoints' := by
  obtain ⟨start, increments, first, seen⟩ := visits
  obtain ⟨start', increments', first', seen'⟩ := visits'
  rw [first] at first'
  cases first'
  exact view.visit_unique increments increments' start seen seen'

section

def stepsFrom (offset : Nat) : List (Nat × DecodeResult) := steps decodeUtf8 offset (view.input.drop offset)

variable {view}

theorem stepsFrom_cons {offset : Nat} (inside : offset < view.input.length) :
    view.stepsFrom offset = (offset, view.decodeAt offset) :: view.stepsFrom (offset + advance decodeUtf8 (view.input.drop offset)) := by
  have some : view.input.drop offset ≠ [] := by
    intro empty
    have none := drop_eq_nil_iff.mp empty
    omega
  rw [stepsFrom, steps_cons exactUtf8 offset some, drop_drop]
  rfl

theorem stepsFrom_end : view.stepsFrom view.input.length = [] := by
  rw [stepsFrom, drop_length]
  rfl

theorem advance_inside {offset : Nat} (inside : offset < view.input.length) :
    0 < advance decodeUtf8 (view.input.drop offset) ∧ offset + advance decodeUtf8 (view.input.drop offset) ≤ view.input.length := by
  have some : view.input.drop offset ≠ [] := by
    intro empty
    have none := drop_eq_nil_iff.mp empty
    omega
  have most := advance_le exactUtf8 some
  rw [length_drop] at most
  exact ⟨advance_pos exactUtf8 some, by omega⟩

theorem advance_ok {offset : Nat} (ok : (view.decodeAt offset).error = .none) :
    (view.decodeAt offset).unitsConsumed = advance decodeUtf8 (view.input.drop offset) := (if_pos ok).symm

end

section

variable {view : Utf8View} (lenient : view.policy ≠ .strict) (whole : view.endOffset = view.input.length)

include whole

theorem advance_error {offset : Nat} (bad : (view.decodeAt offset).error ≠ .none) :
    clampConsumed (view.decodeAt offset).unitsConsumed (view.endOffset - offset) = advance decodeUtf8 (view.input.drop offset) := by
  rw [whole, ← length_drop]
  exact (if_neg bad).symm

theorem normalizeLoop_steps (skip : view.policy = .skip) (rounds : Nat) : ∀ offset ≤ view.input.length, view.input.length - offset ≤ rounds →
    ∃ next, view.normalizeLoop rounds offset = some next ∧ next ≤ view.input.length ∧ offset ≤ next ∧
      visited view.policy (view.stepsFrom offset) = visited view.policy (view.stepsFrom next) ∧
      (next = view.input.length ∨ (view.decodeAt next).error = .none) := by
  induction rounds with
  | zero =>
    intro offset most enough
    have done : offset = view.input.length := by omega
    refine ⟨offset, ?_, most, le_refl _, rfl, .inl done⟩
    rw [normalizeLoop, whole, if_neg (by omega), done]
  | succ rounds ih =>
    intro offset most enough
    unfold normalizeLoop
    split
    · rename_i inside
      rw [whole] at inside
      dsimp only
      split
      · rename_i ok
        exact ⟨offset, rfl, most, le_refl _, rfl, .inr ok⟩
      rename_i bad
      obtain ⟨moves, fits⟩ := advance_inside inside
      obtain ⟨next, normalized, most', later, same, settled⟩ := ih (offset + advance decodeUtf8 (view.input.drop offset)) fits (by omega)
      refine ⟨next, ?_, most', by omega, ?_, settled⟩
      · rw [advance_error whole bad]
        exact normalized
      · rw [← same, stepsFrom_cons inside, skip]
        simp [visited, taken, bad]
    · have done : offset = view.input.length := by omega
      exact ⟨offset, by rw [whole, done], most, le_refl _, rfl, .inl done⟩

include lenient

theorem normalizeOffset_steps {offset : Nat} (most : offset ≤ view.input.length) :
    ∃ next, view.normalizeOffset offset = some next ∧ next ≤ view.input.length ∧ offset ≤ next ∧
      visited view.policy (view.stepsFrom offset) = visited view.policy (view.stepsFrom next) ∧
      (next = view.input.length ∨ view.policy = .replace ∨ (view.decodeAt next).error = .none) := by
  unfold normalizeOffset
  split
  · rename_i other
    have replace : view.policy = .replace := by
      cases policy : view.policy with
      | strict => exact absurd policy lenient
      | replace => rfl
      | skip => exact absurd policy other
    exact ⟨offset, rfl, most, le_refl _, rfl, .inr (.inl replace)⟩
  · rename_i skip
    obtain ⟨next, normalized, most', later, same, settled⟩ :=
      normalizeLoop_steps whole (not_not.mp skip) (view.endOffset - offset) offset most (by rw [whole])
    exact ⟨next, normalized, most', later, same, settled.imp_right .inr⟩

theorem increment_steps {offset : Nat} (inside : offset < view.input.length)
    (settled : view.policy = .replace ∨ (view.decodeAt offset).error = .none) :
    view.increment offset = view.normalizeOffset (offset + advance decodeUtf8 (view.input.drop offset)) ∧
      visited view.policy (view.stepsFrom offset) =
        view.dereference offset :: visited view.policy (view.stepsFrom (offset + advance decodeUtf8 (view.input.drop offset))) := by
  have one : taken view.policy (view.decodeAt offset) = [view.dereference offset] := by
    unfold taken dereference
    dsimp only
    split
    · rfl
    · rename_i bad
      rw [if_pos (settled.resolve_right bad)]
  constructor
  · unfold increment
    rw [if_neg (by omega)]
    by_cases ok : (view.decodeAt offset).error = .none
    · rw [if_pos ok, advance_ok ok]
    · rw [if_neg ok, if_neg lenient, advance_error whole ok]
  · rw [stepsFrom_cons inside, visited, if_neg lenient, flatMap_cons, one, visited, if_neg lenient]
    rfl

theorem visit_lenient (increments : Nat) : ∀ offset ≤ view.input.length, view.input.length - offset ≤ increments →
    (offset = view.input.length ∨ view.policy = .replace ∨ (view.decodeAt offset).error = .none) →
    view.visit increments offset = some (visited view.policy (view.stepsFrom offset)) := by
  induction increments with
  | zero =>
    intro offset most enough _
    have done : offset = view.input.length := by omega
    rw [visit, whole, if_pos done, done, stepsFrom_end, visited, if_neg lenient]
    rfl
  | succ increments ih =>
    intro offset most enough settled
    by_cases done : offset = view.input.length
    · rw [visit, whole, if_pos done, done, stepsFrom_end, visited, if_neg lenient]
      rfl
    have inside : offset < view.input.length := by omega
    obtain ⟨incremented, shape⟩ := increment_steps lenient whole inside (settled.resolve_left done)
    obtain ⟨moves, fits⟩ := advance_inside inside
    obtain ⟨next, normalized, most', later, same, settled'⟩ := normalizeOffset_steps lenient whole fits
    rw [visit, whole, if_neg done, incremented, normalized, shape, same, bind_eq_bind, bind_some, ih next most' (by omega) settled']
    rfl

theorem visits_lenient : view.Visits (visited view.policy (view.stepsFrom 0)) := by
  obtain ⟨next, normalized, most, _, same, settled⟩ := normalizeOffset_steps lenient whole (zero_le view.input.length)
  refine ⟨next, view.input.length, normalized, ?_⟩
  rw [same]
  exact visit_lenient lenient whole _ next most (sub_le _ _) settled

end

section

variable {view : Utf8View} (strict : view.policy = .strict)

include strict

theorem visit_strict (increments : Nat) : ∀ offset ≤ view.input.length, view.input.length - offset ≤ increments →
    view.endOffset = ((firstError (view.stepsFrom offset)).map inputOffset).getD view.input.length →
    view.visit increments offset = some (visited .strict (view.stepsFrom offset)) := by
  induction increments with
  | zero =>
    intro offset most enough stop
    have done : offset = view.input.length := by omega
    rw [done, stepsFrom_end] at stop
    have atEnd : view.input.length = view.endOffset := stop.symm
    rw [visit, done, stepsFrom_end, if_pos atEnd]
    rfl
  | succ increments ih =>
    intro offset most enough stop
    by_cases done : offset = view.input.length
    · rw [done, stepsFrom_end] at stop
      have atEnd : view.input.length = view.endOffset := stop.symm
      rw [visit, done, stepsFrom_end, if_pos atEnd]
      rfl
    · have inside : offset < view.input.length := by omega
      obtain ⟨moves, fits⟩ := advance_inside inside
      rw [stepsFrom_cons inside, firstError_cons] at stop
      rw [stepsFrom_cons inside, visited_strict_cons]
      by_cases ok : (view.decodeAt offset).error = .none
      · rw [if_pos ok] at stop ⊢
        have later : offset < view.endOffset := by
          rw [stop]
          cases error : firstError (view.stepsFrom (offset + advance decodeUtf8 (view.input.drop offset))) with
          | none => exact inside
          | some error =>
            obtain ⟨step, found, rfl⟩ := map_eq_some_iff.mp error
            have after := steps_offset_le exactUtf8 _ _ step (mem_of_find?_eq_some found)
            exact Nat.lt_of_lt_of_le (Nat.lt_add_of_pos_right moves) after
        have incremented : view.increment offset = some (offset + advance decodeUtf8 (view.input.drop offset)) := by
          rw [increment, if_neg (not_le.mpr later)]
          rw [if_pos ok, normalizeOffset, strict, if_pos (fun same => nomatch same), advance_ok ok]
        have seen : view.dereference offset = (view.decodeAt offset).codePoint := if_pos ok
        rw [visit, if_neg (Nat.ne_of_lt later), incremented, Option.bind_eq_bind, Option.bind_some, ih _ fits (by omega) stop, seen]
        rfl
      · rw [if_neg ok] at stop ⊢
        rw [visit, if_pos (by rw [stop]; rfl)]

theorem visits_strict (stop : view.endOffset = ((firstError (view.stepsFrom 0)).map inputOffset).getD view.input.length) :
    view.Visits (visited .strict (view.stepsFrom 0)) := by
  refine ⟨0, view.input.length, ?_, visit_strict strict _ 0 (zero_le _) (sub_le _ _) stop⟩
  rw [first, normalizeOffset, strict, if_pos (fun same => nomatch same)]

end

end Utf8View

theorem scanLoop_steps (rounds : Nat) : ∀ (input : Bytes) (offset : Nat), input.length ≤ rounds →
    scanLoop rounds input offset = some (firstError (steps decodeUtf8 offset input)) := by
  induction rounds with
  | zero =>
    intro input offset small
    rw [length_eq_zero_iff.mp (le_zero.mp small)]
    rfl
  | succ rounds ih =>
    intro input offset small
    cases input with
    | nil => rfl
    | cons unit input =>
      have less := drop_advance_lt exactUtf8 (cons_ne_nil unit input)
      rw [steps_cons exactUtf8 offset (cons_ne_nil unit input), firstError_cons]
      unfold scanLoop
      by_cases ok : (decodeUtf8 (unit :: input)).error = .none
      · rw [advance, if_pos ok] at less ⊢
        rw [if_neg (not_not.mpr ok), if_pos ok, ih _ _ (by omega)]
      · rw [if_pos ok, if_neg ok]

section

variable {α : Type} {decode : List α → DecodeResult} {encode : Nat → List α} (exact : Exact decode encode)

include exact

theorem strict_split (input : List α) : ∀ offset, ∃ rest, (∀ c ∈ visited .strict (steps decode offset input), IsScalar c) ∧
    input = (visited .strict (steps decode offset input)).flatMap encode ++ rest ∧
    ((firstError (steps decode offset input) = none ∧ rest = []) ∨
      ∃ error, firstError (steps decode offset input) = some ⟨error, offset + ((visited .strict (steps decode offset input)).flatMap encode).length⟩ ∧
        (decode rest).error ≠ .none) := by
  induction input using steps_induct exact with
  | nil =>
    intro offset
    refine ⟨[], ?_, rfl, .inl ⟨rfl, rfl⟩⟩
    intro c mem
    cases mem
  | step input some ih =>
    intro offset
    rw [steps_cons exact offset some, visited_strict_cons, firstError_cons]
    by_cases ok : (decode input).error = .none
    · obtain ⟨c, tail, scalar, shape, decoded⟩ := exact.encoded ok
      have moves : advance decode input = (encode c).length := by rw [advance, if_pos ok, decoded]
      have dropped : input.drop (advance decode input) = tail := by rw [moves, shape, drop_left]
      have point : (decode input).codePoint = c := by rw [decoded]
      obtain ⟨rest, scalars, apart, stop⟩ := ih (offset + advance decode input)
      rw [dropped, moves] at scalars apart stop
      rw [if_pos ok, if_pos ok, dropped, moves, point, flatMap_cons, length_append, ← add_assoc]
      refine ⟨rest, forall_mem_cons.mpr ⟨scalar, scalars⟩, ?_, stop⟩
      rw [append_assoc, ← apart]
      exact shape
    · rw [if_neg ok, if_neg ok]
      refine ⟨input, ?_, rfl, .inr ⟨_, rfl, ok⟩⟩
      intro c mem
      cases mem

theorem encoded_le {cs cs' : List Nat} (scalars : ∀ c ∈ cs, IsScalar c) (scalars' : ∀ c ∈ cs', IsScalar c) {rest rest' : List α}
    (same : cs'.flatMap encode ++ rest' = cs.flatMap encode ++ rest) (bad : (decode rest).error ≠ .none) :
    (cs'.flatMap encode).length ≤ (cs.flatMap encode).length := by
  induction cs generalizing cs' with
  | nil =>
    cases cs' with
    | nil => exact le_refl _
    | cons c' cs' =>
      have decoded := exact.decodes (scalars' c' (mem_cons_self)) (cs'.flatMap encode ++ rest')
      rw [← append_assoc, ← flatMap_cons, same, flatMap_nil, nil_append] at decoded
      rw [decoded] at bad
      exact absurd rfl bad
  | cons c cs ih =>
    cases cs' with
    | nil => exact zero_le _
    | cons c' cs' =>
      obtain ⟨scalar, scalars⟩ := forall_mem_cons.mp scalars
      obtain ⟨scalar', scalars'⟩ := forall_mem_cons.mp scalars'
      rw [flatMap_cons, flatMap_cons, append_assoc, append_assoc] at same
      have decoded := exact.decodes scalar (cs.flatMap encode ++ rest)
      rw [← same, exact.decodes scalar' _] at decoded
      have first : c' = c := congrArg DecodeResult.codePoint decoded
      rw [first] at same ⊢
      have shorter := ih scalars scalars' (append_cancel_left same)
      rw [flatMap_cons, flatMap_cons, length_append, length_append]
      omega

end

section

variable (policy : ErrorPolicy) (input : Bytes)

theorem toUtf32FromUtf8_collect :
    toUtf32FromUtf8 policy input = some ((collect policy (steps decodeUtf8 0 input)).map fun codePoints => codePoints.flatMap encodeUtf32) :=
  convertLoop_collect exactUtf8 encodeUtf32 policy input.length input 0 [] (le_refl _)

theorem countCodePoints_collect :
    countCodePoints policy input = some ((collect policy (steps decodeUtf8 0 input)).map length) := by
  have counted := countLoop_collect policy input.length input 0 0 (le_refl _)
  simp only [zero_add] at counted
  exact counted

theorem encodeUtf32_scalars {codePoints : List Nat} (scalars : ∀ c ∈ codePoints, IsScalar c) :
    codePoints.flatMap encodeUtf32 = codePoints.map ofNat := by
  induction codePoints with
  | nil => rfl
  | cons c codePoints ih =>
    obtain ⟨scalar, scalars⟩ := forall_mem_cons.mp scalars
    rw [flatMap_cons, ih scalars, encodeUtf32, sanitize_scalar scalar]
    rfl

theorem visited_scalars : ∀ offset, ∀ c ∈ visited policy (steps decodeUtf8 offset input), IsScalar c := by
  have one (input : Bytes) : ∀ c ∈ taken policy (decodeUtf8 input), IsScalar c := by
    intro c mem
    unfold taken at mem
    split at mem
    · rename_i ok
      obtain ⟨c', rest, scalar, shape, decoded⟩ := decodeUtf8_ok ok
      rw [mem_singleton.mp mem, decoded]
      exact scalar
    · split at mem
      · rw [mem_singleton.mp mem]
        exact scalar_replacement
      · cases mem
  induction input using steps_induct exactUtf8 with
  | nil =>
    intro offset c mem
    unfold visited at mem
    split at mem <;> cases mem
  | step input some ih =>
    intro offset c mem
    rw [steps_cons exactUtf8 offset some] at mem
    cases policy with
    | strict =>
      rw [visited_strict_cons] at mem
      split at mem
      · rename_i ok
        rcases mem_cons.mp mem with rfl | later
        · apply one input
          rw [taken, if_pos ok]
          exact mem_cons_self
        · exact ih _ c later
      · cases mem
    | replace =>
      rcases mem_append.mp mem with now | later
      · exact one input c now
      · exact ih _ c later
    | skip =>
      rcases mem_append.mp mem with now | later
      · exact one input c now
      · exact ih _ c later

/-- The longest beginning of a text that converts without an error, and the code points of it. -/
def LongestPrefix (input : Bytes) (size : Nat) (codePoints : List Nat) : Prop :=
  size ≤ input.length ∧ toUtf32FromUtf8 .strict (input.take size) = some (.ok (codePoints.map ofNat)) ∧
    ∀ size' ≤ input.length, (∃ output, toUtf32FromUtf8 .strict (input.take size') = some (.ok output)) → size' ≤ size

theorem toUtf32_strict_encoded {input : Bytes} {output : List UInt32} (h : toUtf32FromUtf8 .strict input = some (.ok output)) :
    ∃ codePoints : List Nat, (∀ c ∈ codePoints, IsScalar c) ∧ input = codePoints.flatMap encodeUtf8 := by
  obtain ⟨rest, scalars, apart, stop⟩ := strict_split exactUtf8 input 0
  rw [toUtf32FromUtf8_collect, collect_strict] at h
  rcases stop with ⟨none, rfl⟩ | ⟨error, found, _⟩
  · rw [append_nil] at apart
    exact ⟨_, scalars, apart⟩
  · rw [found] at h
    cases h

theorem longestPrefix : LongestPrefix input (((firstError (steps decodeUtf8 0 input)).map inputOffset).getD input.length)
      (visited .strict (steps decodeUtf8 0 input)) := by
  obtain ⟨rest, scalars, apart, stop⟩ := strict_split exactUtf8 input 0
  have sum := congrArg length apart
  rw [length_append] at sum
  have size : ((firstError (steps decodeUtf8 0 input)).map inputOffset).getD input.length =
      ((visited .strict (steps decodeUtf8 0 input)).flatMap encodeUtf8).length := by
    rcases stop with ⟨none, rfl⟩ | ⟨error, found, _⟩
    · rw [none, sum]
      rfl
    · rw [found, zero_add]
      rfl
  rw [size]
  refine ⟨by omega, ?_, ?_⟩
  · have whole := convertLoop_converts exactUtf8 encodeUtf32 _ scalars
    rw [encodeUtf32_scalars scalars] at whole
    have beginning : input.take ((visited .strict (steps decodeUtf8 0 input)).flatMap encodeUtf8).length =
        (visited .strict (steps decodeUtf8 0 input)).flatMap encodeUtf8 := by
      have left : ((visited .strict (steps decodeUtf8 0 input)).flatMap encodeUtf8 ++ rest).take
          ((visited .strict (steps decodeUtf8 0 input)).flatMap encodeUtf8).length = _ := take_left
      rwa [← apart] at left
    rw [beginning]
    exact whole
  · rintro size' most ⟨output, converted⟩
    obtain ⟨codePoints, scalars', shape⟩ := toUtf32_strict_encoded converted
    have length := congrArg length shape
    rw [length_take, min_eq_left most] at length
    rcases stop with ⟨_, rfl⟩ | ⟨error, _, bad⟩
    · rw [length_nil] at sum
      omega
    rw [length]
    have same : codePoints.flatMap encodeUtf8 ++ input.drop size' =
        (visited .strict (steps decodeUtf8 0 input)).flatMap encodeUtf8 ++ rest := by
      rw [← shape, take_append_drop]
      exact apart
    exact encoded_le exactUtf8 scalars scalars' same bad

/-- The view, the conversion and the count take the same code points, and stop at the same error. -/
theorem utf8View_agrees (input : Bytes) :
    (∀ policy, policy ≠ .strict → ∃ view codePoints, utf8View input policy = some view ∧ view.Visits codePoints ∧
      toUtf32FromUtf8 policy input = some (.ok (codePoints.map ofNat)) ∧ countCodePoints policy input = some (.ok codePoints.length)) ∧
    ∃ view codePoints, utf8View input .strict = some view ∧ view.Visits codePoints ∧ LongestPrefix input view.endOffset codePoints ∧
      (view.hasError = true ↔ ∃ error, toUtf32FromUtf8 .strict input = some (.error error)) ∧
      (view.hasError = true → toUtf32FromUtf8 .strict input = some (.error view.error) ∧ countCodePoints .strict input = some (.error view.error)) ∧
      (view.hasError = false →
        toUtf32FromUtf8 .strict input = some (.ok (codePoints.map ofNat)) ∧ countCodePoints .strict input = some (.ok codePoints.length)) := by
  constructor
  · intro policy lenient
    let view : Utf8View := { input, policy, endOffset := input.length }
    have visits : view.Visits (visited policy (steps decodeUtf8 0 input)) := Utf8View.visits_lenient lenient rfl
    have scalars := visited_scalars policy input 0
    refine ⟨view, _, if_neg lenient, visits, ?_, ?_⟩
    · rw [toUtf32FromUtf8_collect, collect_lenient lenient, Except.map, encodeUtf32_scalars scalars]
    · rw [countCodePoints_collect, collect_lenient lenient, Except.map]
  · have scalars := visited_scalars .strict input 0
    have longest := longestPrefix input
    have converted := toUtf32FromUtf8_collect .strict input
    have counted := countCodePoints_collect .strict input
    have scanned := scanLoop_steps input.length input 0 (le_refl _)
    rw [collect_strict] at converted counted
    cases found : firstError (steps decodeUtf8 0 input) with
    | none =>
      rw [found] at longest converted counted scanned
      let view : Utf8View := { input, policy := .strict, endOffset := input.length }
      have visits : view.Visits (visited .strict (steps decodeUtf8 0 input)) := by
        apply Utf8View.visits_strict rfl
        show _ = ((firstError (steps decodeUtf8 0 input)).map inputOffset).getD input.length
        rw [found]
        rfl
      have made : utf8View input .strict = some view := by
        rw [utf8View, scanned]
        rfl
      have points : toUtf32FromUtf8 .strict input = some (.ok ((visited .strict (steps decodeUtf8 0 input)).map ofNat)) := by
        rw [converted, ← encodeUtf32_scalars scalars]
        rfl
      have fine : view.hasError = true ↔ ∃ error, toUtf32FromUtf8 .strict input = some (.error error) := by
        constructor
        · intro has
          cases has
        · rintro ⟨error, failed⟩
          rw [points] at failed
          cases failed
      have unset : view.hasError ≠ true := Bool.false_ne_true
      exact ⟨view, _, made, visits, longest, fine, fun has => absurd has unset, fun _ => ⟨points, counted⟩⟩
    | some error =>
      rw [found] at longest converted counted scanned
      let view : Utf8View := { input, policy := .strict, error, hasError := true, endOffset := error.inputOffset }
      have visits : view.Visits (visited .strict (steps decodeUtf8 0 input)) := by
        apply Utf8View.visits_strict rfl
        show _ = ((firstError (steps decodeUtf8 0 input)).map inputOffset).getD input.length
        rw [found]
        rfl
      have made : utf8View input .strict = some view := by
        rw [utf8View, scanned]
        rfl
      exact ⟨view, _, made, visits, longest, ⟨fun _ => ⟨error, converted⟩, fun _ => rfl⟩, fun _ => ⟨converted, counted⟩, fun none => nomatch none⟩

theorem utf8View_agrees_lone : ∃ view codePoints, utf8View [0xE2, 0x41] .replace = some view ∧ view.Visits codePoints ∧
    toUtf32FromUtf8 .replace [0xE2, 0x41] = some (.ok (codePoints.map ofNat)) ∧
    countCodePoints .replace [0xE2, 0x41] = some (.ok codePoints.length) :=
  (utf8View_agrees [0xE2, 0x41]).1 .replace (fun same => nomatch same)

end

end NginBase.Unicode
