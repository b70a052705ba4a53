import NginBase.Json.Admission

namespace NginBase.Json

open Library Audited Cursor Nat Reference List

/-- The cost of `values` values read from `n` bytes at a depth. -/
structure Modest (depth values n : Nat) (k : Cost) : Prop where
  nodes : k.nodes ≤ n
  elements : k.elements + values ≤ n
  members : k.members + values ≤ n
  deepest : k.deepest ≤ depth + n
  raw : (k.strings.map Prod.fst).sum ≤ n
  shrinks : ∀ string ∈ k.strings, string.2 ≤ string.1

namespace Modest

variable {depth values values' n n' : Nat} {k k' : Cost}

theorem zero (depth n : Nat) : Modest depth 0 n 0 :=
  ⟨zero_le _, zero_le _, zero_le _, zero_le _, zero_le _, by simp⟩

theorem mono (modest : Modest depth values n k) (larger : n ≤ n') : Modest depth values n' k where
  nodes := modest.nodes.trans larger
  elements := modest.elements.trans larger
  members := modest.members.trans larger
  deepest := modest.deepest.trans (Nat.add_le_add_left larger _)
  raw := modest.raw.trans larger
  shrinks := modest.shrinks

theorem add (first : Modest depth values n k) (second : Modest depth values' n' k') :
    Modest depth (values + values') (n + n') (k + k') where
  nodes := Nat.add_le_add first.nodes second.nodes
  elements := by
    have := first.elements
    have := second.elements
    simp only [Cost.add_elements]
    omega
  members := by
    have := first.members
    have := second.members
    simp only [Cost.add_members]
    omega
  deepest := by
    have := first.deepest
    have := second.deepest
    simp only [Cost.add_deepest]
    omega
  raw := by
    rw [Cost.add_strings, map_append, sum_append]
    exact Nat.add_le_add first.raw second.raw
  shrinks := by
    intro string member
    rcases mem_append.mp member with left | right
    · exact first.shrinks string left
    · exact second.shrinks string right

theorem one (depth : Nat) (positive : 0 < n) : Modest depth 1 n { nodes := 1 } :=
  ⟨positive, by dsimp only; omega, by dsimp only; omega, zero_le _, zero_le _, by simp⟩

theorem container (inside : Modest (depth + 1) values n k)
    (counts : ∃ n ≤ values, k' = { elements := n } ∨ k' = { members := n }) :
    Modest depth 1 (n + 2) ({ deepest := depth + 1 } + (k + (k' + ({ nodes := 1 } + 0)))) := by
  have nodes := inside.nodes
  have elements := inside.elements
  have members := inside.members
  have deepest := inside.deepest
  have raw := inside.raw
  have shrinks : ∀ a b, (a, b) ∈ k.strings → b ≤ a := fun a b => inside.shrinks (a, b)
  rcases counts with ⟨count, few, rfl | rfl⟩ <;> constructor <;> simp <;> first | omega | assumption

theorem admits (limit decoded : Nat) {strings : List (Nat × Nat)} (shrinks : ∀ string ∈ strings, string.2 ≤ string.1)
    (small : decoded + (strings.map Prod.fst).sum ≤ limit) : Admits limit decoded strings := by
  induction strings generalizing decoded with
  | nil => trivial
  | cons string rest ih =>
    have shrink := shrinks string (by simp)
    simp only [map_cons, sum_cons] at small
    exact ⟨by omega, ih _ (fun string member => shrinks string (by simp [member])) (by omega)⟩

end Modest

namespace Syntax

variable {profile : Profile} {c c' : Cursor} {k : Cost}

variable {parse : Cursor → Audited Cost (SpannedValue × Cursor)} {depth : Nat}

theorem keep_length {policy : DuplicateKeyPolicy} {members kept : List Member} {member : Member}
    (h : keep policy members member = some kept) : kept.length ≤ members.length + 1 := by
  unfold keep at h
  repeat' split at h
  all_goals cases h
  all_goals simp

end Syntax

def Exceeds (profile : Profile) (input : Bytes) : Prop :=
  profile.limits.maxInputBytes < input.length ∨ ∃ tree k, Syntax.parse profile input = .done tree k ∧
    (profile.limits.maxNodes < k.nodes ∨ 2 ^ 32 - 1 < k.nodes ∨ profile.limits.maxMembers < k.members ∨
      profile.limits.maxMembers < k.elements ∨ profile.limits.maxDepth < k.deepest ∨
      ¬ Admits profile.limits.maxDecodedStringBytes 0 k.strings)

theorem exceeds_of_not_fits {profile : Profile} {input : Bytes} {tree : SpannedValue} {k : Cost}
    (parsed : Syntax.parse profile input = .done tree k) (distinct : k.repeated = 0)
    (exceeds : ¬ (documentBudget profile).fits {} k) : Exceeds profile input := by
  refine .inr ⟨tree, k, parsed, ?_⟩
  by_contra within
  push Not at within
  rcases within with ⟨nodes, ids, members, elements, deepest, strings⟩
  apply exceeds
  refine ⟨⟨?_, ?_, deepest, strings, distinct⟩, ?_, ?_⟩ <;> dsimp only <;> omega

end NginBase.Json
