import Mathlib

namespace Library

open List

/-- Cells `at`, `at + 1`, … of a fixed-size buffer replaced by `cells`; what would fall past the
    end is dropped. -/
def overwrite {α : Type*} (buffer : List α) (start : Nat) (cells : List α) : List α :=
  buffer.mapIdx fun i x => if start ≤ i then (cells[i - start]?).getD x else x

section

variable {α : Type*} (buffer : List α) (start : Nat)

variable (cells : List α)

@[simp] theorem overwrite_length : (overwrite buffer start cells).length = buffer.length := by
  simp [overwrite]

theorem overwrite_get (i : Nat) : (overwrite buffer start cells)[i]? =
      (buffer[i]?).map fun x => if start ≤ i then (cells[i - start]?).getD x else x := by
  simp [overwrite]

@[simp] theorem overwrite_nil : overwrite buffer start [] = buffer := by
  apply ext_getElem?
  intro i
  rw [overwrite_get]
  cases buffer[i]? <;> simp

theorem overwrite_append (first second : List α) : overwrite (overwrite buffer start first) (start + first.length) second =
      overwrite buffer start (first ++ second) := by
  apply ext_getElem?
  intro i
  simp only [overwrite_get, Option.map_map]
  congr 1
  funext x
  by_cases before : start ≤ i
  · by_cases inside : i - start < first.length
    · have short : ¬ start + first.length ≤ i := by omega
      simp [short, getElem?_append_left inside]
    · have long : start + first.length ≤ i := by omega
      have past : first[i - start]? = none := getElem?_eq_none (by omega)
      have index : i - (start + first.length) = i - start - first.length := by omega
      simp [before, long, past, index, getElem?_append_right (Nat.le_of_not_lt inside)]
  · have short : ¬ start + first.length ≤ i := by omega
    simp [before, short]

theorem overwrite_drop (after : Nat) (past : start + cells.length ≤ after) :
    (overwrite buffer start cells).drop after = buffer.drop after := by
  apply ext_getElem?
  intro i
  have beyond : cells[after + i - start]? = none := getElem?_eq_none (by omega)
  simp only [getElem?_drop, overwrite_get, beyond]
  cases buffer[after + i]? <;> simp

theorem overwrite_take (before : Nat) (ahead : before ≤ start) :
    (overwrite buffer start cells).take before = buffer.take before := by
  apply ext_getElem?
  intro i
  by_cases inside : i < before
  · have low : ¬ start ≤ i := by omega
    simp only [getElem?_take, overwrite_get, low]
    cases buffer[i]? <;> simp
  · simp [getElem?_take, inside]

theorem overwrite_read (fits : start + cells.length ≤ buffer.length) :
    ((overwrite buffer start cells).drop start).take cells.length = cells := by
  apply ext_getElem?
  intro i
  by_cases inside : i < cells.length
  · have present : start + i < buffer.length := by omega
    have value : cells[i]? = some cells[i] := getElem?_eq_getElem inside
    have low : start ≤ start + i := Nat.le_add_right _ _
    simp only [getElem?_take, inside, if_true, getElem?_drop, overwrite_get, low,
      Nat.add_sub_cancel_left, value, getElem?_eq_getElem present, Option.map_some, Option.getD_some]
  · simp [getElem?_take, inside]

end

section

variable {σ α ε : Type*} (input : σ → List α) (store : σ → Nat → List α → σ)
  (step : Nat → List α → Except ε (List α × Nat))

/-- Read the input from `read` up to `stop`, one step at a time, and store what each step puts out
    at the moving position `write`. The input is read again from the current state at every step,
    so the output may be stored over it. A failure comes with the state it leaves behind. -/
def transduce : Nat → σ → Nat → Nat → Nat → Except (ε × σ) (σ × Nat)
  | 0, s, _, _, write => .ok (s, write)
  | fuel + 1, s, read, stop, write =>
    if stop ≤ read then .ok (s, write)
    else
      match step read (((input s).drop read).take (stop - read)) with
      | .error e => .error (e, s)
      | .ok (out, n) => transduce fuel (store s write out) (read + n) stop (write + out.length)

def translate : Nat → Nat → List α → Except ε (List α)
  | 0, _, _ => .ok []
  | fuel + 1, read, text =>
    if text = [] then .ok []
    else
      match step read text with
      | .error e => .error e
      | .ok (out, n) => (translate fuel (read + n) (text.drop n)).map (out ++ ·)

/-- A step consumes something, consumes no more than there is and puts out no more than it consumes. -/
def Shrinking : Prop :=
  ∀ read text out n, text ≠ [] → step read text = .ok (out, n) →
    0 < n ∧ n ≤ text.length ∧ out.length ≤ n

variable {step}

theorem translate_step {fuel read n : Nat} {text out rest : List α} (enough : 0 < fuel) (nonempty : text ≠ [])
    (stepped : step read text = .ok (out, n)) (next : translate step (fuel - 1) (read + n) (text.drop n) = .ok rest) :
    translate step fuel read text = .ok (out ++ rest) := by
  cases fuel with
  | zero => omega
  | succ fuel =>
    rw [Nat.add_sub_cancel] at next
    simp [translate, nonempty, stepped, next, Except.map]

theorem translate_ok {fuel read : Nat} {text result : List α} (nonempty : text ≠ [])
    (h : translate step (fuel + 1) read text = .ok result) :
    ∃ out n rest, step read text = .ok (out, n) ∧ translate step fuel (read + n) (text.drop n) = .ok rest ∧ result = out ++ rest := by
  unfold translate at h
  rw [if_neg nonempty] at h
  split at h
  · cases h
  rename_i out n stepped
  cases rest : translate step fuel (read + n) (text.drop n) with
  | error e =>
    rw [rest] at h
    cases h
  | ok tail =>
    rw [rest] at h
    cases h
    exact ⟨out, n, tail, stepped, rest, rfl⟩

theorem translate_length (shrinks : Shrinking step) (fuel read : Nat) (text result : List α)
    (h : translate step fuel read text = .ok result) : result.length ≤ text.length := by
  induction fuel generalizing read text result with
  | zero => cases h; simp
  | succ fuel ih =>
    unfold translate at h
    split at h
    · cases h; simp
    rename_i nonempty
    split at h
    · cases h
    rename_i out n stepped
    obtain ⟨positive, inside, small⟩ := shrinks _ _ _ _ nonempty stepped
    cases rest : translate step fuel (read + n) (text.drop n) with
    | error e => rw [rest] at h; cases h
    | ok tail =>
      rw [rest] at h
      cases h
      have bound := ih _ _ _ rest
      simp only [length_drop] at bound
      simp only [length_append]
      omega

/-- In-place translation: storing each output over input that has already been read gives the same
    result as translating a copy, and the stored text is one contiguous write. -/
theorem transduce_eq (shrinks : Shrinking step) (origin : Nat) (store_nil : ∀ s w, store s w [] = s)
    (store_append : ∀ s w a b, store (store s w a) (w + a.length) b = store s w (a ++ b))
    (keeps : ∀ s w out r, origin + w + out.length ≤ r → (input (store s w out)).drop r = (input s).drop r)
    (same : ∀ s w out, (input (store s w out)).length = (input s).length)
    (fuel : Nat) (s : σ) (read stop write : Nat) (behind : origin + write ≤ read) (size : stop ≤ (input s).length) :
    match translate step fuel read (((input s).drop read).take (stop - read)) with
    | .error e => ∃ left, transduce input store step fuel s read stop write = .error (e, left)
    | .ok text => transduce input store step fuel s read stop write = .ok (store s write text, write + text.length) := by
  induction fuel generalizing s read write with
  | zero => simp [transduce, translate, store_nil]
  | succ fuel ih =>
    unfold transduce translate
    by_cases done : stop ≤ read
    · simp [done, store_nil]
    have length : (((input s).drop read).take (stop - read)).length = stop - read := by
      simp only [length_take, length_drop]
      omega
    have nonempty : ((input s).drop read).take (stop - read) ≠ [] := by
      intro empty
      rw [empty] at length
      simp only [length_nil] at length
      omega
    simp only [done, if_false, nonempty]
    cases stepped : step read (((input s).drop read).take (stop - read)) with
    | error e => exact ⟨s, rfl⟩
    | ok result =>
      obtain ⟨out, n⟩ := result
      obtain ⟨positive, inside, small⟩ := shrinks _ _ _ _ nonempty stepped
      have unread : ((input (store s write out)).drop (read + n)).take (stop - (read + n)) =
          (((input s).drop read).take (stop - read)).drop n := by
        rw [keeps s write out (read + n) (by omega), drop_take, drop_drop]
        congr 1
        omega
      have next := ih (store s write out) (read + n) (write + out.length) (by omega) (by rw [same]; exact size)
      rw [unread] at next
      cases rest : translate step fuel (read + n) ((((input s).drop read).take (stop - read)).drop n) with
      | error e =>
        simpa [rest, Except.map] using next
      | ok tail =>
        rw [rest] at next
        simp only [store_append] at next
        simp only [rest, Except.map, length_append, next, Nat.add_assoc]

end

end Library
