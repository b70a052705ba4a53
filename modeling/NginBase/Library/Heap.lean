import NginBase.Library.Tables

namespace Library

open List Function

/-! Objects at addresses that are given out again after the object there was destroyed. Address 0 is never given
    out. The allocations are numbered, so that two objects at one address can be told apart. -/

structure Heap (α : Type) where
  object : Nat → α
  serial : Nat → Nat
  live : Nat → Bool
  allocations : Nat
  destroyed : List Nat

namespace Heap

variable {α : Type}

def allocate (h : Heap α) (a : Nat) (x : α) : Heap α :=
  { h with
    object := update h.object a x
    serial := update h.serial a h.allocations
    live := update h.live a true
    allocations := h.allocations + 1 }

def destroy (h : Heap α) (a : Nat) : Heap α :=
  { h with live := update h.live a false, destroyed := h.serial a :: h.destroyed }

def assign (h : Heap α) (a : Nat) (x : α) : Heap α := { h with object := update h.object a x }

def Free (h : Heap α) (a : Nat) : Prop := a ≠ 0 ∧ h.live a = false

instance (h : Heap α) (a : Nat) : Decidable (h.Free a) := inferInstanceAs (Decidable (_ ∧ _))

section

variable (h : Heap α) (a : Nat) (x : α)

@[simp] theorem allocate_object_self : (h.allocate a x).object a = x := by simp [allocate]

theorem allocate_object {b : Nat} (other : b ≠ a) : (h.allocate a x).object b = h.object b := by
  simp [allocate, other]

@[simp] theorem allocate_live_self : (h.allocate a x).live a = true := by simp [allocate]

theorem allocate_live {b : Nat} (other : b ≠ a) : (h.allocate a x).live b = h.live b := by simp [allocate, other]

@[simp] theorem allocate_serial_self : (h.allocate a x).serial a = h.allocations := by simp [allocate]

theorem allocate_serial {b : Nat} (other : b ≠ a) : (h.allocate a x).serial b = h.serial b := by
  simp [allocate, other]

@[simp] theorem allocate_allocations : (h.allocate a x).allocations = h.allocations + 1 := rfl

@[simp] theorem destroy_live_self : (h.destroy a).live a = false := by simp [destroy]

theorem destroy_live {b : Nat} (other : b ≠ a) : (h.destroy a).live b = h.live b := by simp [destroy, other]

@[simp] theorem assign_object_self : (h.assign a x).object a = x := by simp [assign]

theorem assign_object {b : Nat} (other : b ≠ a) : (h.assign a x).object b = h.object b := by simp [assign, other]

end

structure Sound (h : Heap α) : Prop where
  null : h.live 0 = false
  numbered : ∀ a, h.live a = true → h.serial a < h.allocations
  distinct : ∀ a b, h.live a = true → h.live b = true → h.serial a = h.serial b → a = b
  undestroyed : ∀ a, h.live a = true → h.serial a ∉ h.destroyed
  past : ∀ n ∈ h.destroyed, n < h.allocations
  once : h.destroyed.Nodup

variable {h : Heap α} {a b : Nat} {x : α}

theorem Sound.allocate (sound : h.Sound) (free : h.Free a) : (h.allocate a x).Sound where
  null := by
    rw [allocate_live _ _ _ free.1.symm]
    exact sound.null
  numbered := by
    intro b living
    by_cases same : b = a
    · subst same
      simp
    · rw [allocate_live _ _ _ same] at living
      rw [allocate_serial _ _ _ same]
      exact Nat.lt_succ_of_lt (sound.numbered b living)
  distinct := by
    intro b c first second same
    by_cases left : b = a <;> by_cases right : c = a
    · rw [left, right]
    · rw [allocate_live _ _ _ right] at second
      rw [left, allocate_serial_self, allocate_serial _ _ _ right] at same
      have small := sound.numbered c second
      omega
    · rw [allocate_live _ _ _ left] at first
      rw [right, allocate_serial_self, allocate_serial _ _ _ left] at same
      have small := sound.numbered b first
      omega
    · rw [allocate_live _ _ _ left] at first
      rw [allocate_live _ _ _ right] at second
      rw [allocate_serial _ _ _ left, allocate_serial _ _ _ right] at same
      exact sound.distinct b c first second same
  undestroyed := by
    intro b living mem
    by_cases same : b = a
    · rw [same, allocate_serial_self] at mem
      exact absurd (sound.past _ mem) (Nat.lt_irrefl _)
    · rw [allocate_live _ _ _ same] at living
      rw [allocate_serial _ _ _ same] at mem
      exact sound.undestroyed b living mem
  past := fun n mem => Nat.lt_succ_of_lt (sound.past n mem)
  once := sound.once

theorem Sound.destroy (sound : h.Sound) (living : h.live a = true) : (h.destroy a).Sound := by
  have stays : ∀ b, (h.destroy a).live b = true → b ≠ a ∧ h.live b = true := by
    intro b alive
    by_cases same : b = a
    · rw [same, destroy_live_self] at alive
      cases alive
    · exact ⟨same, by rwa [destroy_live _ _ same] at alive⟩
  constructor
  · by_cases same : 0 = a
    · rw [← same, destroy_live_self]
    · rw [destroy_live _ _ same]
      exact sound.null
  · exact fun b alive => sound.numbered b (stays b alive).2
  · exact fun b c first second => sound.distinct b c (stays b first).2 (stays c second).2
  · intro b alive mem
    obtain ⟨other, old⟩ := stays b alive
    rcases mem_cons.mp mem with same | earlier
    · exact other (sound.distinct b a old living same)
    · exact sound.undestroyed b old earlier
  · intro n mem
    rcases mem_cons.mp mem with rfl | earlier
    · exact sound.numbered a living
    · exact sound.past n earlier
  · exact nodup_cons.mpr ⟨sound.undestroyed a living, sound.once⟩

theorem Sound.assign (sound : h.Sound) : (h.assign a x).Sound :=
  ⟨sound.null, sound.numbered, sound.distinct, sound.undestroyed, sound.past, sound.once⟩

structure Extends (h g : Heap α) : Prop where
  live : ∀ a, h.live a = true → g.live a = true
  object : ∀ a, h.live a = true → g.object a = h.object a
  serial : ∀ a, h.live a = true → g.serial a = h.serial a

theorem Extends.refl (h : Heap α) : h.Extends h := ⟨fun _ living => living, fun _ _ => rfl, fun _ _ => rfl⟩

theorem Extends.trans {g k : Heap α} (first : h.Extends g) (second : g.Extends k) : h.Extends k where
  live a living := second.live a (first.live a living)
  object a living := (second.object a (first.live a living)).trans (first.object a living)
  serial a living := (second.serial a (first.live a living)).trans (first.serial a living)

theorem Free.ne_of_live (free : h.Free a) (living : h.live b = true) : b ≠ a := by
  rintro rfl
  rw [free.2] at living
  cases living

theorem Free.extends (free : h.Free a) : h.Extends (h.allocate a x) where
  live b living := by rwa [allocate_live h a x (free.ne_of_live living)]
  object b living := allocate_object h a x (free.ne_of_live living)
  serial b living := allocate_serial h a x (free.ne_of_live living)

inductive Root
  | leaf (address : Nat)
  | node (address start : Nat)

@[simp] def Root.address : Root → Nat
  | leaf a => a
  | node a _ => a

variable (parts : α → List Nat)

def partsFrom (h : Heap α) (a start : Nat) : List Nat := ((parts (h.object a)).drop start).filter (· ≠ 0)

def footprint (h : Heap α) : Root → List Nat
  | .leaf a => [a]
  | .node a start => a :: h.partsFrom parts a start

def owned (h : Heap α) (roots : List Root) : List Nat := roots.flatMap (h.footprint parts)

structure Owns (h : Heap α) (roots : List Root) : Prop where
  nodup : (h.owned parts roots).Nodup
  alive : ∀ a ∈ h.owned parts roots, h.live a = true

def leaves (a : Nat) : List Root := if a = 0 then [] else [.leaf a]

@[simp] theorem leaves_null : leaves 0 = [] := rfl

theorem leaves_of_ne (nonzero : a ≠ 0) : leaves a = [.leaf a] := if_neg nonzero

theorem mem_leaves {root : Root} : root ∈ leaves a ↔ a ≠ 0 ∧ root = .leaf a := by
  by_cases zero : a = 0 <;> simp [leaves]

variable {parts} {roots others : List Root} {root : Root} {start : Nat}

@[simp] theorem owned_nil : h.owned parts [] = [] := rfl

@[simp] theorem owned_cons : h.owned parts (root :: roots) = h.footprint parts root ++ h.owned parts roots := rfl

@[simp] theorem owned_append : h.owned parts (roots ++ others) = h.owned parts roots ++ h.owned parts others := by
  simp [owned]

theorem owned_leaves : h.owned parts (leaves a) = [a].filter (· ≠ 0) := by
  by_cases zero : a = 0 <;> simp [leaves, zero, footprint]

theorem mem_owned : a ∈ h.owned parts roots ↔ ∃ root ∈ roots, a ∈ h.footprint parts root := by simp [owned]

theorem address_mem_footprint (root : Root) : root.address ∈ h.footprint parts root := by
  cases root <;> simp [footprint]

theorem address_mem_owned (mem : root ∈ roots) : root.address ∈ h.owned parts roots :=
  mem_owned.mpr ⟨root, mem, address_mem_footprint root⟩

theorem mem_partsFrom : b ∈ h.partsFrom parts a start ↔ b ∈ (parts (h.object a)).drop start ∧ b ≠ 0 := by
  simp [partsFrom]

theorem footprint_congr {g : Heap α} (same : g.object root.address = h.object root.address) :
    g.footprint parts root = h.footprint parts root := by
  cases root with
  | leaf a => rfl
  | node a start =>
    simp only [Root.address] at same
    simp only [footprint, partsFrom, same]

theorem owned_congr {g : Heap α} (same : ∀ root ∈ roots, g.object root.address = h.object root.address) :
    g.owned parts roots = h.owned parts roots := by
  apply flatMap_congr
  exact fun root mem => footprint_congr (same root mem)

theorem owned_perm (same : roots.Perm others) : (h.owned parts roots).Perm (h.owned parts others) :=
  same.flatMap_right _

theorem owned_sublist (part : roots.Sublist others) : (h.owned parts roots).Sublist (h.owned parts others) :=
  part.flatMap _

namespace Owns

theorem perm (owns : h.Owns parts roots) (same : roots.Perm others) : h.Owns parts others where
  nodup := (owned_perm same).nodup_iff.mp owns.nodup
  alive := fun a mem => owns.alive a ((owned_perm same).mem_iff.mpr mem)

theorem sublist (owns : h.Owns parts others) (part : roots.Sublist others) : h.Owns parts roots where
  nodup := owns.nodup.sublist (owned_sublist part)
  alive := fun a mem => owns.alive a ((owned_sublist part).subset mem)

theorem congr {g : Heap α} (owns : h.Owns parts roots)
    (same : ∀ root ∈ roots, g.object root.address = h.object root.address)
    (alive : ∀ a ∈ h.owned parts roots, g.live a = true) : g.Owns parts roots where
  nodup := by
    rw [owned_congr same]
    exact owns.nodup
  alive := by
    rw [owned_congr same]
    exact alive

theorem root_alive (owns : h.Owns parts roots) (mem : root ∈ roots) : h.live root.address = true :=
  owns.alive _ (address_mem_owned mem)

theorem apart (owns : h.Owns parts (root :: roots)) (inside : a ∈ h.footprint parts root)
    (other : b ∈ h.owned parts roots) : a ≠ b :=
  fun same => disjoint_of_nodup_append owns.nodup inside (same ▸ other)

theorem extend {g : Heap α} (owns : h.Owns parts roots) (more : h.Extends g) : g.Owns parts roots := by
  apply owns.congr
  · exact fun root mem => more.object _ (owns.root_alive mem)
  · exact fun a mem => more.live a (owns.alive a mem)

theorem free_not_owned (owns : h.Owns parts roots) (free : h.Free a) : a ∉ h.owned parts roots :=
  fun mem => free.ne_of_live (owns.alive a mem) rfl

theorem allocate_leaf (owns : h.Owns parts roots) (free : h.Free a) : (h.allocate a x).Owns parts (.leaf a :: roots) := by
  have after : (h.allocate a x).Owns parts _ := owns.extend free.extends
  constructor
  · apply nodup_cons.mpr ⟨?_, after.nodup⟩
    rw [owned_congr (fun root mem => allocate_object h a x ?_)]
    · exact owns.free_not_owned free
    · exact fun same => owns.free_not_owned free (same ▸ address_mem_owned mem)
  · intro b mem
    rcases mem_cons.mp mem with rfl | rest
    · simp
    · exact after.alive b rest

theorem allocate_node (owns : h.Owns parts (((parts x).filter (· ≠ 0)).map .leaf ++ roots)) (free : h.Free a) :
    (h.allocate a x).Owns parts (.node a 0 :: roots) := by
  have after : (h.allocate a x).Owns parts _ := owns.extend free.extends
  have leaf : ∀ l : List Nat, (h.allocate a x).owned parts (l.map .leaf) = l := by
    intro l
    simp [owned, footprint, flatMap_map]
  have same : (h.allocate a x).owned parts (.node a 0 :: roots)
      = a :: (h.allocate a x).owned parts (((parts x).filter (· ≠ 0)).map .leaf ++ roots) := by
    rw [owned_append, leaf]
    simp [footprint, partsFrom]
  constructor
  · rw [same]
    apply nodup_cons.mpr ⟨?_, after.nodup⟩
    rw [owned_congr (fun root mem => allocate_object h a x ?_)]
    · exact owns.free_not_owned free
    · exact fun same => owns.free_not_owned free (same ▸ address_mem_owned mem)
  · rw [same]
    intro b mem
    rcases mem_cons.mp mem with rfl | rest
    · simp
    · exact after.alive b rest

theorem apart_of_node (owns : h.Owns parts (.node a start :: roots)) (mem : root ∈ roots) : root.address ≠ a :=
  fun same => owns.apart (by simp [footprint]) (address_mem_owned mem) same.symm

theorem part_ne_root (owns : h.Owns parts roots) (owner : .node a start ∈ roots) (part : b ∈ h.partsFrom parts a start)
    (mem : root ∈ roots) : root.address ≠ b := by
  obtain ⟨before, after, rfl⟩ := append_of_mem owner
  have front : h.Owns parts (.node a start :: (before ++ after)) := owns.perm perm_middle
  rcases mem_cons.mp (perm_middle.mem_iff.mp mem) with rfl | other
  · intro same
    have repeated := front.nodup
    simp only [owned_cons, footprint, cons_append, nodup_cons] at repeated
    obtain rfl : a = b := same
    exact repeated.1 (mem_append_left _ part)
  · exact fun same => front.apart (by simp [footprint, part]) (address_mem_owned other) same.symm

theorem assign {i c d : Nat} (owns : h.Owns parts (leaves d ++ .node a 0 :: roots))
    (old : (parts (h.object a))[i]? = some c) (new : parts x = (parts (h.object a)).set i d) :
    (h.assign a x).Owns parts (leaves c ++ .node a 0 :: roots) := by
  have inner : h.Owns parts (.node a 0 :: roots) := owns.sublist (sublist_append_right _ _)
  have rest : (h.assign a x).owned parts roots = h.owned parts roots :=
    owned_congr fun root mem => assign_object h a x (inner.apart_of_node mem)
  have exchange : ([c].filter (· ≠ 0) ++ (parts x).filter (· ≠ 0)).Perm
      ([d].filter (· ≠ 0) ++ (parts (h.object a)).filter (· ≠ 0)) := by
    rw [← filter_append, ← filter_append, new]
    exact (set_perm old d).filter _
  have same : ((h.assign a x).owned parts (leaves c ++ .node a 0 :: roots)).Perm
      (h.owned parts (leaves d ++ .node a 0 :: roots)) := by
    simp only [owned_append, owned_cons, rest, owned_leaves, footprint, partsFrom, assign_object_self, drop_zero,
      cons_append]
    apply perm_middle.trans
    apply List.Perm.trans _ perm_middle.symm
    apply List.Perm.cons
    rw [← append_assoc, ← append_assoc]
    exact exchange.append_right _
  constructor
  · exact same.nodup_iff.mpr owns.nodup
  · exact fun b mem => owns.alive b (same.mem_iff.mp mem)

theorem destroy_leaf (owns : h.Owns parts (.leaf a :: roots)) : (h.destroy a).Owns parts roots := by
  apply (owns.sublist (sublist_cons_self _ _)).congr
  · exact fun _ _ => rfl
  · intro b mem
    have other : a ≠ b := owns.apart (by simp [footprint]) mem
    rw [destroy_live h a other.symm]
    exact owns.alive b (mem_append_right _ mem)

theorem partsFrom_of_get {c : Nat} (found : (parts (h.object a))[start]? = some c) :
    h.partsFrom parts a start = [c].filter (· ≠ 0) ++ h.partsFrom parts a (start + 1) := by
  obtain ⟨inside, rfl⟩ := List.getElem?_eq_some_iff.mp found
  unfold partsFrom
  rw [drop_eq_getElem_cons inside, ← filter_append]
  rfl

theorem next_part {c : Nat} (owns : h.Owns parts (.node a start :: roots))
    (found : (parts (h.object a))[start]? = some c) : h.Owns parts (leaves c ++ .node a (start + 1) :: roots) := by
  have same : (h.owned parts (.node a start :: roots)).Perm
      (h.owned parts (leaves c ++ .node a (start + 1) :: roots)) := by
    simp only [owned_append, owned_cons, owned_leaves, footprint, partsFrom_of_get found, cons_append,
      append_assoc]
    exact perm_middle.symm
  constructor
  · exact same.nodup_iff.mp owns.nodup
  · exact fun b mem => owns.alive b (same.mem_iff.mpr mem)

theorem destroy_node (owns : h.Owns parts (.node a start :: roots)) : (h.destroy a).Owns parts roots := by
  apply (owns.sublist (sublist_cons_self _ _)).congr
  · exact fun _ _ => rfl
  · intro b mem
    have other : a ≠ b := owns.apart (by simp [footprint]) mem
    rw [destroy_live h a other.symm]
    exact owns.alive b (mem_append_right _ mem)

end Owns

end Heap

end Library
