import NginBase.Json.Acceptance
import NginBase.Json.Builder
import NginBase.Json.RenderGrammar

namespace NginBase.Json

open Library BuilderState Command List NodeRange Document SpannedValue Unicode

section

variable {α : Type}

def NodeRange.of (range : NodeRange) (xs : List α) : List α := (xs.drop range.first).take range.count

theorem NodeRange.of_prefix {range : NodeRange} {xs ys : List α} (extends' : xs <+: ys)
    (inside : range.first + range.count ≤ xs.length) : range.of ys = range.of xs := by
  rcases extends' with ⟨more, rfl⟩
  unfold of
  rw [drop_append_of_le_length (by omega), take_append_of_le_length]
  rw [length_drop]
  omega

theorem NodeRange.of_append (xs new : List α) : of ⟨xs.length, new.length⟩ (xs ++ new) = new := by
  simp [of]

end

namespace BuilderState

structure Text (s : BuilderState) (ref : StringRef) : Prop where
  region : ref.region = .arena
  inside : ref.start + ref.size ≤ s.arena.length
  valid : isValidUtf8 (s.memory.view ref) = true

def Node (s : BuilderState) (id : NodeId) : NodePayload → Prop
  | .plain value => ∀ text, value ≠ .string text
  | .string ref => s.Text ref
  | .array range => range.first + range.count ≤ s.elements.length ∧ ∀ child ∈ range.of s.elements, child < id
  | .object range => range.first + range.count ≤ s.members.length ∧
      (∀ member ∈ range.of s.members, s.Text member.key ∧ member.value < id) ∧
      ((range.of s.members).map fun member => s.memory.view member.key).Nodup

def Sound (s : BuilderState) : Prop := ∀ id node, s.nodes[id]? = some node → s.Node id node.payload

structure Extends (s s' : BuilderState) : Prop where
  arena : s.arena <+: s'.arena
  elements : s.elements <+: s'.elements
  members : s.members <+: s'.members

variable {s s' : BuilderState}

theorem Extends.view (extends' : s.Extends s') {ref : StringRef} (text : s.Text ref) :
    s'.memory.view ref = s.memory.view ref := by
  have same : of ⟨ref.start, ref.size⟩ s'.arena = of ⟨ref.start, ref.size⟩ s.arena :=
    of_prefix extends'.arena text.inside
  unfold Memory.view
  rw [text.region]
  exact same

theorem Extends.text (extends' : s.Extends s') {ref : StringRef} (text : s.Text ref) : s'.Text ref where
  region := text.region
  inside := text.inside.trans extends'.arena.length_le
  valid := by rw [extends'.view text]; exact text.valid

theorem Extends.node (extends' : s.Extends s') {id : NodeId} {payload : NodePayload} (node : s.Node id payload) :
    s'.Node id payload := by
  cases payload with
  | plain value => exact node
  | string ref => exact extends'.text node
  | array range =>
    rcases node with ⟨inside, children⟩
    refine ⟨inside.trans extends'.elements.length_le, ?_⟩
    rw [ of_prefix extends'.elements inside]
    exact children
  | object range =>
    rcases node with ⟨inside, children, distinct⟩
    refine ⟨inside.trans extends'.members.length_le, ?_⟩
    rw [ of_prefix extends'.members inside]
    refine ⟨fun member found => ⟨extends'.text (children member found).1, (children member found).2⟩, ?_⟩
    rwa [map_congr_left fun member found => extends'.view (children member found).1]

theorem Sound.grow (sound : s.Sound) (extends' : s.Extends s') (same : s'.nodes = s.nodes) : s'.Sound := by
  intro id node found
  rw [same] at found
  exact extends'.node (sound id node found)

theorem Sound.push (sound : s.Sound) {payload : NodePayload} {requests : Nat} (node : s.Node s.nodes.length payload) :
    Sound { s with nodes := s.nodes ++ [⟨payload, {}⟩], requests } := by
  have extends' : s.Extends { s with nodes := s.nodes ++ [⟨payload, {}⟩], requests } :=
    ⟨prefix_refl _, prefix_refl _, prefix_refl _⟩
  intro id record found
  rcases Nat.lt_or_ge id s.nodes.length with old | new
  · rw [getElem?_append_left old] at found
    exact extends'.node (sound id record found)
  rw [getElem?_append_right new, getElem?_singleton] at found
  by_cases last : id - s.nodes.length = 0
  · rw [if_pos last] at found
    cases found
    have same : id = s.nodes.length := Nat.le_antisymm (Nat.sub_eq_zero_iff_le.mp last) new
    subst same
    exact extends'.node node
  · rw [if_neg last] at found
    cases found

section

variable (limits : ParseLimits) (resources : Resources)

@[simp] theorem request_ensures {post : Bool → BuilderState → Prop} {failed : BuildDiagnostic → BuilderState → Prop}
    (s : BuilderState) : (request resources).Ensures s post failed ↔
      post (resources.grants s.requests) { s with requests := s.requests + 1 } := Iff.rfl

theorem add_ensures (payload : NodePayload) (s : BuilderState) : (add limits resources payload).Ensures s
      (fun _ s' => ∃ requests, s' = { s with nodes := s.nodes ++ [⟨payload, {}⟩], requests })
      fun _ s' => ∃ requests, s' = { s with requests } := by
  unfold add
  simp only [ensures_bind, ensures_get]
  split
  · exact ⟨s.requests, rfl⟩
  simp only [ensures_bind, request_ensures]
  split
  · exact ⟨_, rfl⟩
  simp only [ensures_bind, ensures_get, ensures_modify]
  split
  · refine ⟨s.requests + 1, ?_⟩
    simp
  · exact ⟨s.requests + 1, rfl⟩

theorem copyString_ensures (value : Bytes) (refused : String) (s : BuilderState) :
    (copyString resources value refused).Ensures s
      (fun ref s' => ∃ arena requests, s' = { s with arena, requests } ∧ s.arena <+: arena ∧
        ref.region = .arena ∧ ref.start + ref.size ≤ arena.length ∧ s'.memory.view ref = value)
      fun _ s' => ∃ requests, s' = { s with requests } := by
  unfold copyString
  split
  · rename_i empty
    exact ⟨s.arena, s.requests, rfl, prefix_refl _, rfl, Nat.zero_le _, by simp [Memory.view, empty]⟩
  simp only [ensures_bind, request_ensures]
  split
  · exact ⟨_, rfl⟩
  · refine ⟨s.arena ++ value, s.requests + 1, rfl, prefix_append _ _, rfl, ?_, ?_⟩
    · simp
    · simp [Memory.view, Memory.bytes, memory]

structure KeysFine (members : List ObjectMember) : Prop where
  valid : ∀ member ∈ members, isValidUtf8 member.key = true
  distinct : (members.map ObjectMember.key).Nodup

theorem checkKeys_ensures (members : List ObjectMember) (s : BuilderState) :
    (checkKeys members).Ensures s (fun _ s' => s' = s ∧ KeysFine members) fun _ s' => s' = s := by
  induction members with
  | nil => exact ⟨rfl, by simp, by simp⟩
  | cons member rest ih =>
    unfold checkKeys
    split
    · rfl
    rename_i valid
    split
    · rfl
    rename_i new
    refine ih.mono ?_ fun _ _ same => same
    rintro _ s' ⟨same, fine⟩
    refine ⟨same, ?_, ?_⟩
    · rw [forall_mem_cons]
      exact ⟨by simpa using valid, fine.valid⟩
    · rw [map_cons, nodup_cons]
      refine ⟨?_, fine.distinct⟩
      intro again
      rcases mem_map.mp again with ⟨other, found, equal⟩
      exact new ⟨other, found, equal.symm⟩

/-- The state after some members were stored: `new` are their records. -/
structure Stored (s : BuilderState) (given : List ObjectMember) (new : List MemberRecord) (s' : BuilderState) :
    Prop where
  nodes : s'.nodes = s.nodes
  elements : s'.elements = s.elements
  arena : s.arena <+: s'.arena
  members : s'.members = s.members ++ new
  texts : ∀ member ∈ new, s'.Text member.key ∧ member.value < s.nodes.length
  keys : (new.map fun member => s'.memory.view member.key) = given.map ObjectMember.key

structure Abandoned (s s' : BuilderState) : Prop where
  nodes : s'.nodes = s.nodes
  elements : s'.elements = s.elements
  arena : s.arena <+: s'.arena
  members : s.members <+: s'.members

theorem Stored.extends {members : List ObjectMember} {new : List MemberRecord} (stored : s.Stored members new s') :
    s.Extends s' :=
  ⟨stored.arena, by rw [stored.elements], by rw [stored.members]; exact prefix_append _ _⟩

theorem storeMembers_ensures (members : List ObjectMember) (s : BuilderState)
    (valid : ∀ member ∈ members, isValidUtf8 member.key = true) :
    (storeMembers resources members).Ensures s (fun _ s' => ∃ new, s.Stored members new s') fun _ s' => s.Abandoned s' := by
  induction members generalizing s with
  | nil => exact ⟨[], rfl, rfl, prefix_refl _, by simp, by simp, rfl⟩
  | cons member rest ih =>
    unfold storeMembers
    simp only [ensures_bind, ensures_get]
    split
    · exact ⟨rfl, rfl, prefix_refl _, prefix_refl _⟩
    rename_i handle
    have handle : s.Valid member.value := not_not.mp handle
    simp only [ensures_bind]
    refine (copyString_ensures resources member.key _ s).mono ?_ ?_
    · rintro key _ ⟨arena, requests, rfl, longer, region, inside, view⟩
      simp only [ensures_modify]
      generalize entered : ({ s with arena, requests, members := s.members ++ [⟨key, member.value, {}⟩] } : BuilderState) = s₁
      have view' : s₁.memory.view key = member.key := by
        rw [← entered]
        exact view
      have text : s₁.Text key := by
        refine ⟨region, ?_, ?_⟩
        · rw [← entered]
          exact inside
        · rw [view']
          exact valid member mem_cons_self
      refine (ih s₁ fun member found => valid member (mem_cons_of_mem _ found)).mono ?_ ?_
      · rintro _ s' ⟨new, stored⟩
        refine ⟨⟨key, member.value, {}⟩ :: new, ?_, ?_, ?_, ?_, ?_, ?_⟩
        · rw [stored.nodes, ← entered]
        · rw [stored.elements, ← entered]
        · refine List.IsPrefix.trans ?_ stored.arena
          rw [← entered]
          exact longer
        · rw [stored.members, ← entered]
          simp
        · have texts := stored.texts
          rw [show s₁.nodes = s.nodes by rw [← entered]] at texts
          rw [forall_mem_cons]
          exact ⟨⟨stored.extends.text text, handle.2⟩, texts⟩
        · rw [map_cons, stored.keys, map_cons]
          rw [stored.extends.view text, view']
      · intro _ s' left
        refine ⟨?_, ?_, ?_, ?_⟩
        · rw [left.nodes, ← entered]
        · rw [left.elements, ← entered]
        · refine List.IsPrefix.trans ?_ left.arena
          rw [← entered]
          exact longer
        · refine List.IsPrefix.trans ?_ left.members
          rw [← entered]
          exact prefix_append _ _
    · rintro _ _ ⟨requests, rfl⟩
      exact ⟨rfl, rfl, prefix_refl _, prefix_refl _⟩

abbrev KeepsSound (step : Step NodeId) (s : BuilderState) : Prop :=
  step.Ensures s (fun _ s' => s'.Sound) fun _ s' => s'.Sound

theorem Sound.requests (sound : s.Sound) (requests : Nat) : Sound { s with requests } :=
  sound.grow ⟨prefix_refl _, prefix_refl _, prefix_refl _⟩ rfl

theorem add_sound {payload : NodePayload} (sound : s.Sound) (node : s.Node s.nodes.length payload) :
    KeepsSound (add limits resources payload) s := by
  refine (add_ensures limits resources payload s).mono ?_ ?_
  · rintro _ _ ⟨requests, rfl⟩
    exact sound.push node
  · rintro _ _ ⟨requests, rfl⟩
    exact sound.requests requests

theorem string_sound (value : Bytes) (sound : s.Sound) : KeepsSound (string limits resources value) s := by
  unfold string
  split
  · exact sound
  split
  · exact sound
  rename_i valid
  have valid : isValidUtf8 value = true := by simpa using valid
  simp only [ensures_bind]
  refine (copyString_ensures resources value _ s).mono ?_ ?_
  · rintro ref _ ⟨arena, requests, rfl, longer, region, inside, view⟩
    have grown : Sound { s with arena, requests } := sound.grow ⟨longer, prefix_refl _, prefix_refl _⟩ rfl
    exact add_sound limits resources grown ⟨region, inside, by rw [view]; exact valid⟩
  · rintro _ _ ⟨requests, rfl⟩
    exact sound.requests requests

theorem array_sound (values : List NodeId) (sound : s.Sound) : KeepsSound (array limits resources values) s := by
  unfold array
  simp only [ensures_bind, ensures_get]
  split
  · exact sound
  rename_i handles
  have handles := not_not.mp handles
  simp only [ensures_bind, request_ensures]
  split
  · exact sound.requests _
  simp only [ensures_bind, ensures_onFailure]
  refine (add_ensures limits resources _ _).mono ?_ ?_
  · rintro _ _ ⟨requests, rfl⟩
    refine Sound.push (s := { s with elements := s.elements ++ values, requests := s.requests + 1 }) ?_ ?_
    · exact sound.grow ⟨prefix_refl _, prefix_append _ _, prefix_refl _⟩ rfl
    · refine ⟨by simp, ?_⟩
      rw [of_append]
      exact fun child member => (handles child member).2
  · rintro _ _ ⟨requests, rfl⟩
    simp only [take_left]
    exact sound.requests requests

theorem storeObject_ensures {members : List ObjectMember} (fine : KeysFine members) (sound : s.Sound) :
    (storeObject limits resources s.members.length members).Ensures s (fun _ s' => s'.Sound) fun _ s' => s.Abandoned s' := by
  unfold storeObject
  simp only [ensures_bind, request_ensures]
  split
  · exact ⟨rfl, rfl, prefix_refl _, prefix_refl _⟩
  simp only [ensures_bind]
  refine (storeMembers_ensures resources members _ fine.valid).mono ?_ ?_
  · rintro _ s₁ ⟨new, stored⟩
    have length : new.length = members.length := by
      simpa using congrArg length stored.keys
    have range : of ⟨s.members.length, members.length⟩ s₁.members = new := by
      rw [stored.members, ← length]
      exact of_append _ _
    refine (add_ensures limits resources _ s₁).mono ?_ ?_
    · rintro _ _ ⟨requests, rfl⟩
      refine Sound.push (sound.grow ⟨stored.arena, ?_, ?_⟩ stored.nodes) ⟨?_, ?_, ?_⟩
      · rw [stored.elements]
      · rw [stored.members]
        exact prefix_append _ _
      · rw [stored.members, length_append, length]
      · rw [range, stored.nodes]
        exact stored.texts
      · rw [range, stored.keys]
        exact fine.distinct
    · rintro _ _ ⟨requests, rfl⟩
      refine ⟨stored.nodes, stored.elements, stored.arena, ?_⟩
      rw [stored.members]
      exact prefix_append _ _
  · intro _ s' left
    exact ⟨left.nodes, left.elements, left.arena, left.members⟩

theorem object_sound (members : List ObjectMember) (sound : s.Sound) : KeepsSound (object limits resources members) s := by
  unfold object
  simp only [ensures_bind, ensures_get]
  split
  · exact sound
  simp only [ensures_bind, ensures_onFailure]
  refine (checkKeys_ensures members s).mono ?_ ?_
  · rintro _ _ ⟨rfl, fine⟩
    refine (storeObject_ensures limits resources fine sound).mono (fun _ _ kept => kept) ?_
    intro _ s' left
    refine sound.grow ⟨left.arena, ?_, ?_⟩ left.nodes
    · rw [left.elements]
    · rcases left.members with ⟨more, same⟩
      rw [← same, take_left]
  · rintro _ _ rfl
    exact sound

end

end BuilderState

namespace Builder

variable {limits : ParseLimits} {resources : Resources}

theorem step_sound (call : Call) {s : BuilderState} (sound : s.Sound) : (step limits resources call s).2.Sound := by
  apply Ensures.state
  cases call with
  | null => exact add_sound limits resources sound fun _ => nofun
  | bool value => exact add_sound limits resources sound fun _ => nofun
  | int value => exact add_sound limits resources sound fun _ => nofun
  | uint value => exact add_sound limits resources sound fun _ => nofun
  | double value => exact add_sound limits resources sound fun _ => nofun
  | string value => exact string_sound limits resources value sound
  | array values => exact array_sound limits resources values sound
  | object members => exact object_sound limits resources members sound

theorem finish_ensures (root : NodeId) (s : BuilderState) : (BuilderState.finish limits resources root).Ensures s
      (fun doc _ => doc = ⟨s.memory, s.nodes, s.elements, s.members, root⟩ ∧ root < s.nodes.length)
      fun _ s' => ∃ requests, s' = { s with requests } := by
  unfold BuilderState.finish
  simp only [ensures_bind, ensures_get]
  split
  · exact ⟨s.requests, rfl⟩
  rename_i handle
  simp only [ensures_bind, BuilderState.request_ensures]
  split
  · exact ⟨_, rfl⟩
  simp only [ensures_bind, ensures_get]
  split
  · exact ⟨_, rfl⟩
  · exact ⟨rfl, (not_not.mp handle).2⟩

theorem reachable_sound {builder : Builder} (reachable : Reachable limits resources builder) :
    ∀ s, builder = some s → s.Sound := by
  induction reachable with
  | fresh =>
    rintro _ ⟨⟩ id node found
    cases found
  | @made builder _ call ih =>
    intro s after
    unfold make at after
    split at after
    · exact ih s after
    · cases after
    · cases after
      exact step_sound call (ih _ rfl)
  | @finished builder _ root ih =>
    intro s after
    unfold finish at after
    split at after
    · cases after
    split at after
    · cases after
    rename_i e s₁ failed
    cases after
    rcases (finish_ensures root _).error failed with ⟨requests, rfl⟩
    exact (ih _ rfl).requests requests

end Builder

theorem eraseElements_map (elements : List SpannedValue) : eraseElements elements = elements.map erase := by
  induction elements with
  | nil => rfl
  | cons element rest ih => rw [eraseElements, ih, map_cons]

theorem eraseMembers_map (members : List (Bytes × SourceSpan × SpannedValue)) :
    eraseMembers members = members.map fun member => (member.1, member.2.2.erase) := by
  induction members with
  | nil => rfl
  | cons member rest ih => rw [eraseMembers, ih, map_cons]

def Value.WellBuilt (value : Value) : Prop :=
  value.Holds (fun scalar => ∀ text, scalar = .string text → isValidUtf8 text = true)
    fun keys => (∀ key ∈ keys, isValidUtf8 key = true) ∧ keys.Nodup

theorem BuilderState.Sound.treeAt {s : BuilderState} (sound : s.Sound) (root : NodeId) (fuel id : Nat) :
    ((Document.mk s.memory s.nodes s.elements s.members root).treeAt fuel id).erase.WellBuilt := by
  have plain : (scalar {} .null).erase.WellBuilt := fun _ => nofun
  induction fuel generalizing id with
  | zero => exact plain
  | succ fuel ih =>
    unfold Document.treeAt
    split
    · exact plain
    rename_i node found
    have fine := sound id node found
    rcases node with ⟨payload, span⟩
    cases payload with
    | plain value => exact fun text same => absurd same (fine text)
    | string ref =>
      rintro text ⟨⟩
      exact fine.valid
    | array range =>
      simp only [present, erase, eraseElements_map]
      refine (Value.holds_array _ _ _).mpr ?_
      simp only [forall_mem_map]
      exact fun child _ => ih child
    | object range =>
      rcases fine with ⟨_, texts, distinct⟩
      simp only [present, erase, eraseMembers_map]
      refine (Value.holds_object _ _ _).mpr ⟨⟨?_, ?_⟩, ?_⟩
      · simp only [forall_mem_map]
        exact fun member found => (texts member found).1.valid
      · simp only [map_map]
        exact distinct
      · simp only [forall_mem_map]
        exact fun member _ => ih member.value

theorem BuilderState.Sound.treeAt_enough {s : BuilderState} (sound : s.Sound) (root : NodeId) {fuel more id : Nat}
    (enough : id < fuel) (enough' : id < more) : (Document.mk s.memory s.nodes s.elements s.members root).treeAt fuel id =
      (Document.mk s.memory s.nodes s.elements s.members root).treeAt more id := by
  induction fuel generalizing id more with
  | zero => omega
  | succ fuel ih =>
    rcases more with _ | more
    · omega
    unfold Document.treeAt
    split
    · rfl
    rename_i node found
    have fine := sound id node found
    rcases node with ⟨payload, span⟩
    cases payload with
    | plain value => rfl
    | string ref => rfl
    | array range =>
      simp only [present]
      rw [map_congr_left]
      intro child member
      have smaller := fine.2 child member
      exact ih (smaller.trans_le (Nat.le_of_lt_succ enough)) (smaller.trans_le (Nat.le_of_lt_succ enough'))
    | object range =>
      simp only [present]
      rw [map_congr_left]
      intro child member
      have smaller := (fine.2.1 child member).2
      rw [ih (smaller.trans_le (Nat.le_of_lt_succ enough)) (smaller.trans_le (Nat.le_of_lt_succ enough'))]

theorem Builder.finish_sound {limits : ParseLimits} {resources : Resources} {builder builder' : Builder} {root : NodeId}
    {doc : Document} (reachable : Reachable limits resources builder)
    (finished : finish limits resources root builder = (.ok doc, builder')) :
    ∃ s : BuilderState, s.Sound ∧ root < s.nodes.length ∧ doc = ⟨s.memory, s.nodes, s.elements, s.members, root⟩ := by
  unfold finish at finished
  split at finished
  · cases finished
  split at finished
  · rename_i ok
    cases finished
    rcases (finish_ensures root _).ok ok with ⟨same, inside⟩
    exact ⟨_, reachable_sound reachable _ rfl, inside, same⟩
  · cases finished

theorem Builder.finish_wellBuilt {limits : ParseLimits} {resources : Resources} {builder builder' : Builder} {root : NodeId}
    {doc : Document} (reachable : Reachable limits resources builder)
    (finished : finish limits resources root builder = (.ok doc, builder')) :
    doc.tree.erase.WellBuilt ∧ ∀ levels, doc.nodes.length ≤ levels → doc.treeAt levels doc.root = doc.tree := by
  rcases finish_sound reachable finished with ⟨s, sound, inside, rfl⟩
  exact ⟨sound.treeAt root _ _, fun levels enough => sound.treeAt_enough root (Nat.lt_of_lt_of_le inside enough) inside⟩

end NginBase.Json
