import NginBase.Containers.FlatHashMapCalls

namespace NginBase.Containers

open Library Command Function

variable {Key Value : Type}

inductive Operation (Key Value : Type)
  | construct (x initialCapacity : Nat)
  | copyConstruct (x y : Nat)
  | moveConstruct (x y : Nat)
  | copyAssign (x y : Nat)
  | moveAssign (x y : Nat)
  | insert (x : Nat) (key : Key) (value : Value)
  | remove (x : Nat) (key : Key)
  | index (x : Nat) (key : Key) (write : Value → Value)
  | clear (x : Nat)
  | reserve (x count : Nat)
  | rehash (x newBucketCount : Nat)

structure Call (Key Value : Type) where
  operation : Operation Key Value
  grants : Nat → Bool := fun _ => true

abbrev Maps (Key Value : Type) := Nat → FlatHashMap Key Value

namespace FlatHashMap

section

variable (policy : Policy Key)

def onMap (x : Nat) (action : Action Key Value Unit) : Command Exception (Maps Key Value) Unit := fun maps =>
  ((action ⟨maps x, 0⟩).1, update maps x (action ⟨maps x, 0⟩).2.map)

/-- The table of `y` goes to `x`, and `y` is left without one. -/
def transfer (x y : Nat) : Command Exception (Maps Key Value) Unit :=
  modify fun maps => update (update maps y {}) x (maps y)

def moveAssign (grants : Nat → Bool) (x y : Nat) : Command Exception (Maps Key Value) Unit := do
  if x = y then return ()
  else
    match policy.move with
    | .propagates => transfer x y
    | .alwaysEqual => transfer x y
    | .relocates =>
      let maps ← get
      onMap x (relocateFrom policy grants (maps y))
      onMap y clear

def run [Inhabited Value] (call : Call Key Value) : Command Exception (Maps Key Value) Unit := do
  let maps ← get
  match call.operation with
  | .construct x initialCapacity => onMap x (construct call.grants initialCapacity)
  | .copyConstruct x y => onMap x (copyFrom policy call.grants (maps y))
  | .moveConstruct x y => transfer x y
  | .copyAssign x y => if x = y then return () else onMap x (copyFrom policy call.grants (maps y))
  | .moveAssign x y => moveAssign policy call.grants x y
  | .insert x key value => onMap x (insert policy call.grants key value)
  | .remove x key => onMap x (remove policy key)
  | .index x key write => onMap x (index policy call.grants key write)
  | .clear x => onMap x clear
  | .reserve x count => onMap x (reserve policy call.grants count)
  | .rehash x newBucketCount => onMap x (rehash policy call.grants newBucketCount)

end

abbrev Contents (Key Value : Type) := Nat → Key → Option Value

def specify [Inhabited Value] (policy : Policy Key) (contents : Contents Key Value) : Operation Key Value → Contents Key Value
  | .construct x _ => update contents x fun _ => none
  | .copyConstruct x y => update contents x (contents y)
  | .moveConstruct x y => update (update contents y fun _ => none) x (contents y)
  | .copyAssign x y => update contents x (contents y)
  | .moveAssign x y =>
    if x = y then contents else update (update contents y fun _ => none) x (contents y)
  | .insert x key value => update contents x (put policy key value (contents x))
  | .remove x key => update contents x (erase policy key (contents x))
  | .index x key write =>
    update contents x (put policy key (write ((contents x key).getD default)) (contents x))
  | .clear x => update contents x fun _ => none
  | .reserve _ _ => contents
  | .rehash _ _ => contents

def Provided (maps : Maps Key Value) (call : Call Key Value) : Prop :=
  (∀ request, call.grants request = true) ∧
    ∀ x newBucketCount, call.operation = .rehash x newBucketCount → (maps x).size ≤ targetCapacity newBucketCount

section

variable {policy : Policy Key} {maps : Maps Key Value} {contents : Contents Key Value}

theorem ensures_onMap (x : Nat) (action : Action Key Value Unit) {post : Unit → Maps Key Value → Prop}
    {failed : Exception → Maps Key Value → Prop} : (onMap x action).Ensures maps post failed ↔
      action.Ensures ⟨maps x, 0⟩ (fun a s => post a (update maps x s.map)) fun e s => failed e (update maps x s.map) := by
  unfold onMap Command.Ensures
  dsimp only
  rcases action ⟨maps x, 0⟩ with ⟨result, s⟩
  cases result <;> rfl

section

variable (all : ∀ z, Represents policy (maps z) (contents z))

include all

theorem represents_update {x : Nat} {m : FlatHashMap Key Value} {f : Key → Option Value} (rep : Represents policy m f) :
    ∀ z, Represents policy (update maps x m z) (update contents x f z) := by
  intro z
  by_cases here : z = x
  · rw [here, update_self, update_self]
    exact rep
  · rw [update_of_ne here, update_of_ne here]
    exact all z

theorem represents_transfer (x y : Nat) :
    ∀ z, Represents policy (update (update maps y {}) x (maps y) z)
      (update (update contents y fun _ => none) x (contents y) z) :=
  represents_update (represents_update all (represents_empty sound_empty rfl)) (all y)

theorem sound_update {x : Nat} {m : FlatHashMap Key Value} (sound : Sound policy m) :
    ∀ z, Sound policy (update maps x m z) := by
  intro z
  by_cases here : z = x
  · rw [here, update_self]
    exact sound
  · rw [update_of_ne here]
    exact (all z).sound

end

theorem not_provided {call : Call Key Value} {request : Nat} (refused : call.grants request = false) :
    ¬ Provided maps call := by
  intro provided
  rw [provided.1 request] at refused
  cases refused

theorem ensures_lost (call : Call Key Value) (all : ∀ z, Represents policy (maps z) (contents z)) {x : Nat}
    {action : Action Key Value Unit} {f : Key → Option Value}
    (spec : action.Ensures ⟨maps x, 0⟩ (fun _ s => Represents policy s.map f)
      fun failure s => failure = .badAlloc ∧ s.map = {} ∧ ∃ request, call.grants request = false) :
    (onMap x action).Ensures maps (fun _ maps' => ∀ z, Represents policy (maps' z) (update contents x f z))
      fun failure maps' => failure = .badAlloc ∧ (∀ z, Sound policy (maps' z)) ∧ ¬ Provided maps call := by
  rw [ensures_onMap]
  apply spec.mono
  · intro _ s rep
    exact represents_update all rep
  · rintro _ s ⟨bad, lost, request, refused⟩
    rw [lost]
    exact ⟨bad, sound_update all sound_empty, not_provided refused⟩

variable (lawful : policy.Lawful)

include lawful

theorem run_spec [Inhabited Value] (all : ∀ z, Represents policy (maps z) (contents z)) (call : Call Key Value) :
    (run policy call).Ensures maps
      (fun _ maps' => ∀ z, Represents policy (maps' z) (specify policy contents call.operation z))
      fun failure maps' => failure = .badAlloc ∧ (∀ z, Sound policy (maps' z)) ∧ ¬ Provided maps call := by
  rcases call with ⟨operation, grants⟩
  unfold run
  simp only [ensures_bind, ensures_get]
  cases operation with
  | construct x initialCapacity =>
    apply ensures_lost _ all
    exact (construct_spec initialCapacity).mono (fun _ _ h => h)
      fun _ _ h => ⟨h.1, h.2.1, _, h.2.2⟩
  | copyConstruct x y =>
    apply ensures_lost _ all
    exact (copyFrom_spec lawful (all y)).mono (fun _ _ h => h) fun _ _ h => ⟨h.1, h.2.1, _, h.2.2⟩
  | moveConstruct x y => exact represents_transfer all x y
  | copyAssign x y =>
    dsimp only [specify]
    by_cases self : x = y
    · rw [if_pos self, self, update_eq_self]
      exact all
    rw [if_neg self]
    apply ensures_lost _ all
    exact (copyFrom_spec lawful (all y)).mono (fun _ _ h => h)
      fun _ _ h => ⟨h.1, h.2.1, _, h.2.2⟩
  | moveAssign x y =>
    dsimp only [specify, moveAssign]
    by_cases self : x = y
    · rw [if_pos self, if_pos self]
      exact all
    rw [if_neg self, if_neg self]
    cases policy.move with
    | propagates => exact represents_transfer all x y
    | alwaysEqual => exact represents_transfer all x y
    | relocates =>
      simp only [ensures_bind]
      apply (ensures_lost ⟨.moveAssign x y, grants⟩ all (relocateFrom_spec lawful (all x) (all y))).mono
      · intro _ maps₁ all₁
        rw [ensures_onMap]
        apply (clear_spec (all₁ y)).mono
        · intro _ s rep
          have both := represents_update (x := y) all₁ rep
          rwa [update_comm self] at both
        · exact fun _ _ h => h.elim
      · exact fun _ _ h => h
  | insert x key value =>
    apply ensures_lost _ all
    exact (insert_spec lawful (all x) key value).mono (fun _ _ h => h.1)
      fun _ _ h => ⟨h.1, h.2.1, _, h.2.2.1⟩
  | remove x key =>
    apply ensures_lost _ all
    exact (remove_spec lawful (all x) key).mono (fun _ _ h => h) fun _ _ h => h.elim
  | index x key write =>
    apply ensures_lost _ all
    exact (index_spec lawful (all x) key write).mono (fun _ _ h => h)
      fun _ _ h => ⟨h.1, h.2.1, _, h.2.2⟩
  | clear x =>
    apply ensures_lost _ all
    exact (clear_spec (all x)).mono (fun _ _ h => h) fun _ _ h => h.elim
  | reserve x count =>
    rw [← update_eq_self x contents]
    apply ensures_lost _ all
    exact (reserve_spec lawful (all x) count).mono (fun _ _ h => h.1)
      fun _ _ h => ⟨h.1, h.2.1, _, h.2.2.1⟩
  | rehash x newBucketCount =>
    rw [ensures_onMap]
    apply (rehash_spec lawful (all x).sound newBucketCount).mono
    · rintro _ s ⟨sound, _, order, _⟩
      have both := represents_update (x := x) all ((all x).reorder sound order)
      rwa [update_eq_self] at both
    · rintro _ s ⟨bad, _, sound, ⟨refused, _⟩ | ⟨short, _⟩⟩
      · exact ⟨bad, sound_update all sound, not_provided refused⟩
      · refine ⟨bad, sound_update all sound, fun provided => ?_⟩
        exact absurd (provided.2 x newBucketCount rfl) (Nat.not_le.mpr short)

end

section

variable [Inhabited Value] {policy : Policy Key} (lawful : policy.Lawful)

def reached (policy : Policy Key) (calls : List (Call Key Value)) : Maps Key Value :=
  attempt (run policy) calls fun _ => {}

include lawful

end

section

inductive Growing (Key Value : Type)
  | rehash (newBucketCount : Nat)
  | reserve (count : Nat)
  | insert (key : Key) (value : Value)

def Growing.run (policy : Policy Key) (grants : Nat → Bool) : Growing Key Value → Action Key Value Unit
  | .rehash newBucketCount => FlatHashMap.rehash policy grants newBucketCount
  | .reserve count => FlatHashMap.reserve policy grants count
  | .insert key value => FlatHashMap.insert policy grants key value

def Growing.result (policy : Policy Key) (f : Key → Option Value) : Growing Key Value → Key → Option Value
  | .rehash _ => f
  | .reserve _ => f
  | .insert key value => put policy key value f

def Growing.demand (policy : Policy Key) (m : FlatHashMap Key Value) : Growing Key Value → Option Nat
  | .rehash newBucketCount =>
    if targetCapacity newBucketCount = m.capacity then none else some (targetCapacity newBucketCount)
  | .reserve count =>
    if reserveBuckets policy count ≤ m.capacity then none else some (reserveBuckets policy count)
  | .insert _ _ =>
    if withinLoadFactor m = false then some (m.capacity * 2) else if m.capacity = 0 then some kInitialCapacity else none

def Safe (policy : Policy Key) (grants : Nat → Bool) (m : FlatHashMap Key Value) (call : Growing Key Value) : Prop :=
  ∀ capacity, call.demand policy m = some capacity → m.size = 0 ∨ grants 0 = true ∧ m.size ≤ capacity

variable {policy : Policy Key} (lawful : policy.Lawful) {grants : Nat → Bool} {m : FlatHashMap Key Value}

include lawful

section

variable (sound : Sound policy m)

include sound

end

end

def crowded : List (Call Nat Nat) :=
  ⟨.construct 0 32, fun _ => true⟩ :: (List.range 17).map fun i => ⟨.insert 0 i i, fun _ => true⟩

end FlatHashMap

end NginBase.Containers
