import NginBase.Library.Simulation

namespace Library

open List

/-! Writing to an output of limited length. -/

section

variable {ε α : Type} {limit : Nat}

/-- `write` appends `text` when its condition holds and there is room, and does nothing else when it
    succeeds. -/
structure Writes (limit : Nat) (write : List α → Except ε (List α)) (text : List α) (fine : Prop) : Prop where
  ok : ∀ out, fine → out.length + text.length ≤ limit → write out = .ok (out ++ text)
  only : ∀ out out', out.length ≤ limit → write out = .ok out' → fine ∧ out' = out ++ text ∧ out'.length ≤ limit

namespace Writes

variable {write write' : List α → Except ε (List α)} {text text' : List α} {fine fine' : Prop}

theorem nothing (limit : Nat) : Writes limit (Except.ok : List α → Except ε (List α)) [] True where
  ok out _ _ := by rw [append_nil]
  only out out' small h := by
    cases h
    exact ⟨trivial, by rw [append_nil], small⟩

theorem append (limit : Nat) (refused : ε) (text : List α) : Writes limit
      (fun out => if limit < out.length ∨ limit - out.length < text.length then .error refused else .ok (out ++ text))
      text True where
  ok out _ room := if_neg (by omega)
  only out out' small h := by
    split at h
    · cases h
    cases h
    refine ⟨trivial, rfl, ?_⟩
    rw [length_append]
    omega

theorem refuse (limit : Nat) (refused : ε) (text : List α) : Writes limit (fun _ => .error refused) text False where
  ok _ never := never.elim
  only _ _ _ h := by cases h

theorem seq (first : Writes limit write text fine) (second : Writes limit write' text' fine') :
    Writes limit (fun out => write out >>= write') (text ++ text') (fine ∧ fine') where
  ok out both room := by
    rw [length_append] at room
    rw [first.ok out both.1 (by omega), ok_bind, second.ok _ both.2 (by rw [length_append]; omega),
      append_assoc]
  only out out' small h := by
    obtain ⟨middle, h₁, h₂⟩ := bind_ok h
    obtain ⟨good, rfl, small'⟩ := first.only out middle small h₁
    obtain ⟨good', rfl, small''⟩ := second.only _ out' small' h₂
    exact ⟨⟨good, good'⟩, by rw [append_assoc], small''⟩

theorem mono (writes : Writes limit write text fine) (same : fine ↔ fine') : Writes limit write text fine' where
  ok out good room := writes.ok out (same.mpr good) room
  only out out' small h := by
    obtain ⟨good, rest⟩ := writes.only out out' small h
    exact ⟨same.mp good, rest⟩

theorem guard (check : Prop) [Decidable check] (refused : ε) (writes : Writes limit write text fine) :
    Writes limit (fun out => if check then .error refused else write out) text (¬ check ∧ fine) where
  ok out good room := by rw [if_neg good.1, writes.ok out good.2 room]
  only out out' small h := by
    split at h
    · cases h
    rename_i passed
    obtain ⟨good, rest⟩ := writes.only out out' small h
    exact ⟨⟨passed, good⟩, rest⟩

theorem all {put : List α → List α → Except ε (List α)} (each : ∀ text, Writes limit (fun out => put out text) text True)
    (texts : List (List α)) : Writes limit (fun out => texts.foldlM put out) texts.flatten True := by
  induction texts with
  | nil => exact nothing limit
  | cons first rest ih => exact ((each first).seq ih).mono (by simp)

end Writes

end

end Library

namespace Library.Lines

/-! Texts of lines, of which each may end in its own way. -/

inductive LineEnd
  | lf
  | cr
  | crlf

def LineEnd.bytes : LineEnd → List UInt8
  | lf => [0x0A]
  | cr => [0x0D]
  | crlf => [0x0D, 0x0A]

def Whole (line : List UInt8) : Prop := ∀ c ∈ line, c ≠ 0x0D ∧ c ≠ 0x0A

/-- The lines of a text. Where `unended` allows it, the last of them may stand without an end. -/
inductive Written (unended : Prop) : List (List UInt8) → List UInt8 → Prop
  | nil : Written unended [] []
  | cons (line : List UInt8) (ending : LineEnd) {rest : List (List UInt8)} {text : List UInt8}
      (more : Written unended rest text) : Written unended (line :: rest) (line ++ (ending.bytes ++ text))
  | last (line : List UInt8) (allowed : unended) (filled : line ≠ []) : Written unended [line] line

inductive Thinned : List (List UInt8) → List (List UInt8) → Prop
  | nil : Thinned [] []
  | keep (line : List UInt8) {lines fewer : List (List UInt8)} (rest : Thinned lines fewer) :
      Thinned (line :: lines) (line :: fewer)
  | drop {lines fewer : List (List UInt8)} (rest : Thinned lines fewer) : Thinned ([] :: lines) fewer

variable {unended : Prop} {lines fewer : List (List UInt8)} {text : List UInt8}

theorem Written.getLast (written : Written False lines text) (filled : text ≠ []) :
    text.getLast? = some 0x0A ∨ text.getLast? = some 0x0D := by
  induction written with
  | nil => exact absurd rfl filled
  | cons line ending more ih =>
    rename_i rest text
    by_cases none : text = []
    · subst none
      cases ending with
      | lf => simp [LineEnd.bytes]
      | cr => simp [LineEnd.bytes]
      | crlf => simp [LineEnd.bytes]
    · rw [← List.append_assoc, List.getLast?_append_of_ne_nil _ none]
      exact ih none
  | last line allowed => exact allowed.elim

theorem Thinned.foldlM {ε σ : Type} {accept : σ → List UInt8 → Except ε σ} {state final : σ}
    (blank : ∀ state next, accept state [] = .ok next → next = state) (thin : Thinned lines fewer)
    (run : lines.foldlM accept state = .ok final) : fewer.foldlM accept state = .ok final := by
  induction thin generalizing state with
  | nil => exact run
  | keep line rest ih =>
    rw [List.foldlM_cons] at run ⊢
    have ⟨next, first, then_⟩ := bind_ok run
    rw [first]
    exact ih then_
  | drop rest ih =>
    have ⟨next, first, then_⟩ := bind_ok run
    rw [blank state next first] at then_
    exact ih then_

end Library.Lines
