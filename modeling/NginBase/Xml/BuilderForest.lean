import NginBase.Xml.Builder

namespace NginBase.Xml

open Library Command List Option

section

variable {nodes nodes' : List NodeRecord}

theorem Chain.congr {first : Nat} {ids : List NodeId} (chain : Chain nodes first ids)
    (same : ∀ id ∈ ids, (nodeAt nodes' id).map NodeRecord.nextSibling = (nodeAt nodes id).map NodeRecord.nextSibling) :
    Chain nodes' first ids := by
  induction ids generalizing first with
  | nil => exact chain
  | cons id rest ih =>
    rcases chain with ⟨here, node, found, onward⟩
    have link := same id (by simp)
    rw [found, map_some, map_eq_some_iff] at link
    rcases link with ⟨node', found', link⟩
    refine ⟨here, node', found', ?_⟩
    rw [link]
    apply ih onward
    intro id mem
    exact same id (mem_cons_of_mem _ mem)

theorem nodeAt_some {id : NodeId} {node : NodeRecord} (found : nodeAt nodes id = some node) :
    id ≠ sentinel ∧ nodes[id]? = some node := by
  unfold nodeAt at found
  split at found
  · cases found
  rename_i real
  exact ⟨real, found⟩

theorem nodeAt_lt {id : NodeId} (found : nodeAt nodes id ≠ none) : id < nodes.length := by
  obtain ⟨node, found⟩ := ne_none_iff_exists'.mp found
  exact (List.getElem?_eq_some_iff.mp (nodeAt_some found).2).1

theorem Chain.extend {first : Nat} {ids : List NodeId} (chain : Chain nodes first ids) (more : List NodeRecord) :
    Chain (nodes ++ more) first ids := by
  induction ids generalizing first with
  | nil => exact chain
  | cons id rest ih =>
    rcases chain with ⟨here, node, found, onward⟩
    obtain ⟨real, present⟩ := nodeAt_some found
    refine ⟨here, node, ?_, ih onward⟩
    rw [nodeAt, if_neg real, List.getElem?_append_left (List.getElem?_eq_some_iff.mp present).1]
    exact present

theorem getElem?_snoc {α : Type} {xs : List α} {x y : α} {i : Nat} :
    (xs ++ [x])[i]? = some y ↔ xs[i]? = some y ∨ i = xs.length ∧ x = y := by
  rcases Nat.lt_trichotomy i xs.length with before | here | after
  · rw [getElem?_append_left before]
    simp [before.ne]
  · subst here
    simp
  · rw [getElem?_append_right after.le, getElem?_eq_none after.le,
      getElem?_eq_none (by rw [length_singleton]; omega)]
    simp [after.ne']

end

namespace BuilderState

def linkNodes : List NodeId → List NodeRecord → List NodeRecord
  | [], nodes => nodes
  | child :: rest, nodes =>
    linkNodes rest (nodes.modify child fun node => { node with nextSibling := rest.headD sentinel })

def mark (children : List NodeId) (attached : List Bool) : List Bool :=
  children.foldl (fun attached child => attached.set child true) attached

theorem linkChildren_eq (children : List NodeId) (s : BuilderState) : linkChildren children s =
      { s with nodes := linkNodes children s.nodes, attached := mark children s.attached } := by
  induction children generalizing s with
  | nil => rfl
  | cons child rest ih =>
    rw [linkChildren, ih]
    rfl

section

variable {children : List NodeId} {nodes : List NodeRecord}

theorem linkNodes_length (children : List NodeId) (nodes : List NodeRecord) :
    (linkNodes children nodes).length = nodes.length := by
  induction children generalizing nodes with
  | nil => rfl
  | cons child rest ih => rw [linkNodes, ih, length_modify]

theorem linkNodes_other {id : NodeId} (outside : id ∉ children) : (linkNodes children nodes)[id]? = nodes[id]? := by
  induction children generalizing nodes with
  | nil => rfl
  | cons child rest ih =>
    rw [mem_cons, not_or] at outside
    rw [linkNodes, ih outside.2]
    simp [Ne.symm outside.1]

theorem linkNodes_rest (children : List NodeId) (nodes : List NodeRecord) (id : NodeId) :
    ((linkNodes children nodes)[id]?).map (fun node => (node.kind, node.name)) =
      (nodes[id]?).map fun node => (node.kind, node.name) := by
  induction children generalizing nodes with
  | nil => rfl
  | cons child rest ih =>
    rw [linkNodes, ih, List.getElem?_modify, Option.map_eq_map, Option.map_map]
    congr 1
    funext node
    split <;> rfl

theorem linkNodes_chain (valid : ∀ child ∈ children, nodeAt nodes child ≠ none) (distinct : children.Nodup) :
    Chain (linkNodes children nodes) (children.headD sentinel) children := by
  induction children generalizing nodes with
  | nil => rfl
  | cons child rest ih =>
    rw [nodup_cons] at distinct
    obtain ⟨node, found⟩ := ne_none_iff_exists'.mp (valid child (by simp))
    obtain ⟨real, present⟩ := nodeAt_some found
    refine ⟨rfl, { node with nextSibling := rest.headD sentinel }, ?_, ?_⟩
    · rw [linkNodes, nodeAt, if_neg real, linkNodes_other distinct.1]
      simp [present]
    · apply ih
      · intro other mem
        obtain ⟨node', found'⟩ := ne_none_iff_exists'.mp (valid other (mem_cons_of_mem _ mem))
        obtain ⟨real', present'⟩ := nodeAt_some found'
        rw [nodeAt, if_neg real', getElem?_modify]
        simp [present']
      · exact distinct.2

theorem mark_length (children : List NodeId) (attached : List Bool) :
    (mark children attached).length = attached.length := by
  induction children generalizing attached with
  | nil => rfl
  | cons child rest ih => rw [mark, foldl_cons, ← mark, ih, length_set]

theorem mark_true {attached : List Bool} (inside : ∀ child ∈ children, child < attached.length) (id : NodeId) :
    (mark children attached)[id]? = some true ↔ attached[id]? = some true ∨ id ∈ children := by
  induction children generalizing attached with
  | nil => simp [mark]
  | cons child rest ih =>
    rw [forall_mem_cons] at inside
    rw [mark, foldl_cons, ← mark, ih (by rw [length_set]; exact inside.2)]
    by_cases here : child = id
    · subst here
      simp [inside.1]
    · simp [here, Ne.symm here]

end

def Owns (s : BuilderState) (id : NodeId) (index : Nat) : Prop :=
  ∃ node, s.nodes[id]? = some node ∧ node.kind = .element ∧ node.name.offsetOrId = index

/-- The invariant of a builder. The lists are those that its elements were made with. -/
structure Sound (s : BuilderState) (lists : List (List NodeId)) : Prop where
  marks : s.attached.length = s.nodes.length
  room : s.nodes.length ≤ sentinel
  records : s.elements.length = lists.length
  chains : ∀ (i : Nat) (record : ElementRecord) children, s.elements[i]? = some record → lists[i]? = some children →
    record.children.count = children.length ∧ Chain s.nodes record.children.first children
  distinct : lists.flatten.Nodup
  attached : ∀ id, s.attached[id]? = some true ↔ id ∈ lists.flatten
  owned : ∀ i < lists.length, ∃ id, s.Owns id i
  owner : ∀ i id id', s.Owns id i → s.Owns id' i → id = id'
  known : ∀ i id, s.Owns id i → i < lists.length
  order : ∀ id i children, s.Owns id i → lists[i]? = some children → ∀ child ∈ children, child < id

structure Kept (s s' : BuilderState) : Prop where
  nodes : s'.nodes = s.nodes
  elements : s'.elements = s.elements
  attributes : s'.attributes = s.attributes
  attached : s'.attached = s.attached
  childCount : s'.childCount = s.childCount

theorem Kept.refl (s : BuilderState) : s.Kept s := ⟨rfl, rfl, rfl, rfl, rfl⟩

variable {s s' : BuilderState}

theorem Kept.trans {t : BuilderState} (first : s.Kept s') (second : s'.Kept t) : s.Kept t :=
  ⟨second.nodes.trans first.nodes, second.elements.trans first.elements, second.attributes.trans first.attributes,
    second.attached.trans first.attached, second.childCount.trans first.childCount⟩

variable {lists : List (List NodeId)}

theorem Sound.same (sound : s.Sound lists) (nodes : s'.nodes = s.nodes) (elements : s'.elements = s.elements)
    (attached : s'.attached = s.attached) : s'.Sound lists := by
  have owns (id i : Nat) : s'.Owns id i ↔ s.Owns id i := by simp only [Owns, nodes]
  constructor
  · rw [attached, nodes]
    exact sound.marks
  · rw [nodes]
    exact sound.room
  · rw [elements]
    exact sound.records
  · rw [elements, nodes]
    exact sound.chains
  · exact sound.distinct
  · rw [attached]
    exact sound.attached
  · simpa only [owns] using sound.owned
  · simpa only [owns] using sound.owner
  · simpa only [owns] using sound.known
  · simpa only [owns] using sound.order

structure Added (s : BuilderState) (node : NodeRecord) (id : NodeId) (s' : BuilderState) : Prop where
  id : id = s.nodes.length
  room : s.nodes.length < sentinel
  nodes : s'.nodes = s.nodes ++ [node]
  attached : s'.attached = s.attached ++ [false]
  elements : s'.elements = s.elements
  attributes : s'.attributes = s.attributes
  childCount : s'.childCount = s.childCount

theorem Added.kept {s₀ : BuilderState} {node : NodeRecord} {id : NodeId} (added : s.Added node id s')
    (kept : s₀.Kept s) : s₀.Added node id s' :=
  ⟨kept.nodes ▸ added.id, kept.nodes ▸ added.room, kept.nodes ▸ added.nodes, kept.attached ▸ added.attached,
    kept.elements ▸ added.elements, kept.attributes ▸ added.attributes, kept.childCount ▸ added.childCount⟩

theorem owns_snoc {node : NodeRecord} (grown : s'.nodes = s.nodes ++ [node]) (id i : Nat) :
    s'.Owns id i ↔ s.Owns id i ∨ id = s.nodes.length ∧ node.kind = .element ∧ node.name.offsetOrId = i := by
  unfold Owns
  rw [grown]
  simp only [getElem?_snoc]
  constructor
  · intro ⟨node', found, kind, index⟩
    rcases found with old | ⟨here, rfl⟩
    · exact .inl ⟨node', old, kind, index⟩
    · exact .inr ⟨here, kind, index⟩
  · intro either
    rcases either with ⟨node', found, kind, index⟩ | ⟨here, kind, index⟩
    · exact ⟨node', .inl found, kind, index⟩
    · exact ⟨node, .inr ⟨here, rfl⟩, kind, index⟩

theorem Sound.leaf {node : NodeRecord} {id : NodeId} (sound : s.Sound lists) (added : s.Added node id s')
    (plain : node.kind ≠ .element) : s'.Sound lists := by
  have owns (id i : Nat) : s'.Owns id i ↔ s.Owns id i := by
    rw [owns_snoc added.nodes]
    simp [plain]
  have room := added.room
  constructor
  · rw [added.attached, added.nodes, length_append, length_append, sound.marks]
    rfl
  · rw [added.nodes, length_append, length_singleton]
    omega
  · rw [added.elements]
    exact sound.records
  · intro i record children found passed
    rw [added.elements] at found
    obtain ⟨count, chain⟩ := sound.chains i record children found passed
    rw [added.nodes]
    exact ⟨count, chain.extend _⟩
  · exact sound.distinct
  · intro other
    rw [added.attached, getElem?_snoc]
    simpa using sound.attached other
  · simpa only [owns] using sound.owned
  · simpa only [owns] using sound.owner
  · simpa only [owns] using sound.known
  · simpa only [owns] using sound.order

theorem Sound.element {s₁ : BuilderState} {record : ElementRecord} {id : NodeId} {children : List NodeId}
    (sound : s.Sound lists) (added : s₁.Added { kind := .element, name := ⟨s.elements.length, 0⟩ } id s')
    (nodes : s₁.nodes = s.nodes) (attached : s₁.attached = s.attached)
    (elements : s₁.elements = s.elements ++ [record])
    (range : record.children = ⟨children.headD sentinel, children.length⟩)
    (valid : ∀ child ∈ children, nodeAt s.nodes child ≠ none)
    (free : ∀ child ∈ children, s.attached[child]? = some false) (distinct : children.Nodup) :
    (linkChildren children s').Sound (lists ++ [children]) := by
  have grown : s'.nodes = s.nodes ++ [{ kind := .element, name := ⟨s.elements.length, 0⟩ }] := by
    rw [added.nodes, nodes]
  have inside (child : NodeId) (mem : child ∈ children) : child < s.nodes.length := nodeAt_lt (valid child mem)
  have apart (child : NodeId) (mem : child ∈ children) : child ∉ lists.flatten := by
    intro taken
    have one := free child mem
    rw [(sound.attached child).mpr taken] at one
    cases one
  have owns (other i : Nat) : (linkChildren children s').Owns other i ↔
      s.Owns other i ∨ other = s.nodes.length ∧ s.elements.length = i := by
    have step : (linkChildren children s').Owns other i ↔ s'.Owns other i := by
      have rest := linkNodes_rest children s'.nodes other
      rw [linkChildren_eq]
      unfold Owns
      cases before : s'.nodes[other]? with
      | none =>
        rw [before, map_none, map_eq_none_iff] at rest
        simp [rest]
      | some node =>
        rw [before, map_some, map_eq_some_iff] at rest
        obtain ⟨node', after, same⟩ := rest
        simp only [Prod.mk.injEq] at same
        simp [after, same]
    rw [step, owns_snoc grown]
    simp
  have known := sound.records
  rw [linkChildren_eq] at owns ⊢
  constructor
  · rw [mark_length, linkNodes_length, added.attached, attached, grown, length_append, length_append, sound.marks]
    rfl
  · have room := added.room
    rw [linkNodes_length, grown, length_append, length_singleton]
    rw [nodes] at room
    omega
  · rw [added.elements, elements, length_append, length_append, known]
    rfl
  · intro i record' children' found passed
    rw [added.elements, elements, getElem?_snoc] at found
    rw [getElem?_snoc] at passed
    rcases passed with old | ⟨here, rfl⟩
    · have before : i < lists.length := (List.getElem?_eq_some_iff.mp old).1
      rcases found with found | ⟨here, _⟩
      · obtain ⟨count, chain⟩ := sound.chains i record' children' found old
        have longer : Chain s'.nodes record'.children.first children' := by
          rw [grown]
          exact chain.extend _
        refine ⟨count, longer.congr ?_⟩
        intro other mem
        have outside : other ∉ children := by
          intro taken
          exact apart other taken (mem_flatten.mpr ⟨children', mem_of_getElem? old, mem⟩)
        simp only [nodeAt, linkNodes_other outside]
      · omega
    · rcases found with found | ⟨_, rfl⟩
      · have := (List.getElem?_eq_some_iff.mp found).1
        omega
      · rw [range]
        refine ⟨rfl, ?_⟩
        apply linkNodes_chain
        · intro child mem
          obtain ⟨node, found⟩ := ne_none_iff_exists'.mp (valid child mem)
          obtain ⟨real, present⟩ := nodeAt_some found
          rw [grown, nodeAt, if_neg real, getElem?_append_left (inside child mem), present]
          simp
        · exact distinct
  · rw [flatten_append, nodup_append']
    refine ⟨sound.distinct, by simpa using distinct, ?_⟩
    intro child taken mem
    exact apart child (by simpa using mem) taken
  · intro other
    have bound : ∀ child ∈ children, child < s'.attached.length := by
      intro child mem
      rw [added.attached, attached, length_append, sound.marks]
      exact Nat.lt_add_right _ (inside child mem)
    rw [mark_true bound, added.attached, attached, getElem?_snoc, sound.attached]
    simp
  · intro i below
    rw [length_append, length_singleton] at below
    rcases Nat.lt_or_ge i lists.length with old | new
    · obtain ⟨other, owned⟩ := sound.owned i old
      exact ⟨other, (owns other i).mpr (.inl owned)⟩
    · have index : s.elements.length = i := by omega
      exact ⟨s.nodes.length, (owns _ i).mpr (.inr ⟨rfl, index⟩)⟩
  · intro i other other' first second
    rcases (owns other i).mp first with first | ⟨rfl, index⟩
    · rcases (owns other' i).mp second with second | ⟨rfl, index⟩
      · exact sound.owner i other other' first second
      · have := sound.known i other first
        omega
    · rcases (owns other' i).mp second with second | ⟨rfl, _⟩
      · have := sound.known i other' second
        omega
      · rfl
  · intro i other first
    rw [length_append, length_singleton]
    rcases (owns other i).mp first with first | ⟨_, index⟩
    · have := sound.known i other first
      omega
    · omega
  · intro other i children' first passed child mem
    rw [getElem?_snoc] at passed
    rcases (owns other i).mp first with first | ⟨rfl, index⟩
    · rcases passed with old | ⟨here, _⟩
      · exact sound.order other i children' first old child mem
      · have := sound.known i other first
        omega
    · rcases passed with old | ⟨_, rfl⟩
      · have := (List.getElem?_eq_some_iff.mp old).1
        omega
      · exact inside child mem

section

variable (limits : ParseLimits) (resources : BuildResources)

@[simp] theorem request_ensures {post : Bool → BuilderState → Prop} {failed : BuildDiagnostic → BuilderState → Prop}
    (s : BuilderState) : (request resources).Ensures s post failed ↔
      post (resources.grants s.requests) { s with requests := s.requests + 1 } := Iff.rfl

theorem copy_ensures (value : Bytes) (s : BuilderState) :
    (copy resources value).Ensures s (fun _ s' => s.Kept s') fun _ _ => False := by
  unfold copy
  split
  · exact .refl s
  simp only [ensures_bind, request_ensures]
  split
  · exact ⟨rfl, rfl, rfl, rfl, rfl⟩
  simp only [ensures_bind, ensures_get]
  split
  · exact ⟨rfl, rfl, rfl, rfl, rfl⟩
  simp only [ensures_bind, request_ensures]
  split
  · exact ⟨rfl, rfl, rfl, rfl, rfl⟩
  · exact ⟨rfl, rfl, rfl, rfl, rfl⟩

theorem add_ensures (node : NodeRecord) (s : BuilderState) :
    (add limits resources node).Ensures s (fun id s' => s.Added node id s') fun _ s' => s.Kept s' := by
  unfold add
  simp only [ensures_bind, ensures_get]
  split
  · exact .refl s
  rename_i room
  rw [not_or, not_le, not_le] at room
  simp only [ensures_bind, request_ensures]
  split
  · exact ⟨rfl, rfl, rfl, rfl, rfl⟩
  simp only [ensures_bind, ensures_modify, request_ensures]
  split
  · exact ⟨by simp, rfl, rfl, rfl, rfl⟩
  · exact ⟨by simp, room.2, rfl, rfl, rfl, rfl, rfl⟩

structure Prepared (s s' : BuilderState) : Prop where
  nodes : s'.nodes = s.nodes
  elements : s'.elements = s.elements
  attributes : s.attributes <+: s'.attributes
  attached : s'.attached = s.attached
  childCount : s'.childCount = s.childCount

theorem Prepared.trans {s s' t : BuilderState} (first : s.Prepared s') (second : s'.Prepared t) : s.Prepared t :=
  ⟨second.nodes.trans first.nodes, second.elements.trans first.elements, first.attributes.trans second.attributes,
    second.attached.trans first.attached, second.childCount.trans first.childCount⟩

theorem Kept.prepared {s s' : BuilderState} (kept : s.Kept s') : s.Prepared s' :=
  ⟨kept.nodes, kept.elements, kept.attributes ▸ prefix_refl _, kept.attached, kept.childCount⟩

theorem Prepared.restore {s s' : BuilderState} (prepared : s.Prepared s') :
    s.Kept { s' with attributes := s'.attributes.take s.attributes.length } := by
  obtain ⟨more, grown⟩ := prepared.attributes
  exact ⟨prepared.nodes, prepared.elements, by simp [← grown], prepared.attached, prepared.childCount⟩

theorem storeAttributes_ensures (given : List Attribute) (s : BuilderState) :
    (storeAttributes resources given).Ensures s (fun _ s' => s.Prepared s') fun _ s' => s.Prepared s' := by
  induction given generalizing s with
  | nil => exact (Kept.refl s).prepared
  | cons entry rest ih =>
    unfold storeAttributes
    simp only [ensures_bind]
    apply (copy_ensures resources entry.name s).mono
    · intro key s₁ kept₁
      apply (copy_ensures resources entry.value s₁).mono
      · intro value s₂ kept₂
        have kept := (kept₁.trans kept₂).prepared
        split
        · rename_i name value
          have grown : s.Prepared { s₂ with attributes := s₂.attributes ++ [{ name, value }] } :=
            kept.trans ⟨rfl, rfl, prefix_append _ _, rfl, rfl⟩
          apply (ih _).mono
          · intro _ s' prepared
            exact grown.trans prepared
          · intro _ s' prepared
            exact grown.trans prepared
        · exact kept
      · intro _ _ never
        exact never.elim
    · intro _ _ never
      exact never.elim

theorem storeElement_ensures (name : Bytes) (given : List Attribute) (children : List NodeId) (s : BuilderState) :
    (storeElement resources name given children).Ensures s
      (fun _ s' => s'.nodes = s.nodes ∧ s'.attached = s.attached ∧ s'.childCount = s.childCount ∧
        s.attributes <+: s'.attributes ∧
        ∃ record, s'.elements = s.elements ++ [record] ∧ record.children = ⟨children.headD sentinel, children.length⟩)
      fun _ s' => s.Prepared s' := by
  unfold storeElement
  simp only [ensures_bind, ensures_get, request_ensures]
  split
  · exact ⟨rfl, rfl, prefix_refl _, rfl, rfl⟩
  have started : s.Prepared { s with requests := s.requests + 1 } := ⟨rfl, rfl, prefix_refl _, rfl, rfl⟩
  simp only [ensures_bind]
  apply (storeAttributes_ensures resources given _).mono
  · intro _ s₁ prepared₁
    apply (copy_ensures resources name s₁).mono
    · intro elementName s₂ kept₂
      have prepared : s.Prepared s₂ := started.trans (prepared₁.trans kept₂.prepared)
      split
      · exact prepared
      simp only [ensures_bind, request_ensures]
      split
      · exact prepared.trans ⟨rfl, rfl, prefix_refl _, rfl, rfl⟩
      · refine ⟨prepared.nodes, prepared.attached, prepared.childCount, prepared.attributes, _,
          by dsimp only; rw [prepared.elements], rfl⟩
    · intro _ _ never
      exact never.elim
  · intro _ s₁ prepared₁
    exact started.trans prepared₁

theorem checkAttributes_ensures (given : List Attribute) (s : BuilderState) :
    (checkAttributes given).Ensures s (fun _ s' => s' = s) fun _ s' => s' = s := by
  induction given with
  | nil => rfl
  | cons entry rest ih =>
    unfold checkAttributes
    split
    · rfl
    split
    · rfl
    · split
      · rfl
      · exact ih

theorem checkChildren_ensures (earlier children : List NodeId) (s : BuilderState) :
    (checkChildren earlier children).Ensures s (fun _ s' => s' = s ∧ (∀ child ∈ children, nodeAt s.nodes child ≠ none) ∧
        (∀ child ∈ children, s.attached[child]? = some false) ∧ children.Nodup ∧ earlier.Disjoint children)
      fun _ s' => s' = s := by
  induction children generalizing earlier with
  | nil => exact ⟨rfl, by simp, by simp, by simp, by simp⟩
  | cons child rest ih =>
    unfold checkChildren
    simp only [ensures_bind, ensures_get]
    split
    · rfl
    rename_i real
    split
    · rfl
    rename_i free
    split
    · rfl
    rename_i new
    apply (ih (earlier ++ [child])).mono
    · rintro _ s' ⟨same, valid, unattached, distinct, apart⟩
      rw [disjoint_append_left, singleton_disjoint] at apart
      refine ⟨same, ?_, ?_, ?_, ?_⟩
      · exact forall_mem_cons.mpr ⟨real, valid⟩
      · exact forall_mem_cons.mpr ⟨by simpa using free, unattached⟩
      · exact nodup_cons.mpr ⟨apart.2, distinct⟩
      · exact disjoint_cons_right.mpr ⟨new, apart.1⟩
    · intro _ s' same
      exact same

variable {lists : List (List NodeId)}

theorem element_ensures (name : Bytes) (given : List Attribute) (children : List NodeId) (s : BuilderState)
    (sound : s.Sound lists) :
    (element limits resources name given children).Ensures s (fun _ s' => s'.Sound (lists ++ [children]))
      fun _ s' => s.Kept s' := by
  unfold element
  simp only [ensures_bind, ensures_get]
  split
  · exact .refl s
  simp only [ensures_bind, ensures_onFailure]
  apply (checkAttributes_ensures given s).mono
  · intro _ s₁ same₁
    subst same₁
    apply (checkChildren_ensures [] children s₁).mono
    · rintro _ s₂ ⟨same₂, valid, free, distinct, _⟩
      subst same₂
      apply (storeElement_ensures resources name given children s₂).mono
      · rintro _ s₃ ⟨nodes, attached, childCount, attributes, record, elements, range⟩
        apply (add_ensures limits resources _ s₃).mono
        · intro id s₄ added
          have linked := sound.element added nodes attached elements range valid free distinct
          exact linked.same rfl rfl rfl
        · intro _ s₄ kept
          obtain ⟨more, grown⟩ := attributes
          refine ⟨kept.nodes.trans nodes, ?_, ?_, kept.attached.trans attached, kept.childCount.trans childCount⟩
          · simp [kept.elements, elements]
          · simp [kept.attributes, ← grown]
      · intro _ s₃ prepared
        exact prepared.restore
    · intro _ s₂ same₂
      rw [same₂]
      exact .refl s₁
  · intro _ s₁ same₁
    rw [same₁]
    exact .refl s

/-- What a call does to the forest: an element adds its child list, any other node adds nothing, and a
    failure changes no table. -/
theorem step_ensures (call : Builder.Call) (s : BuilderState) (sound : s.Sound lists) :
    (Builder.step limits resources call).Ensures s (fun id s' => s'.Sound (lists ++ Builder.passed call (.ok id)))
      fun _ s' => s.Kept s' := by
  have single (kind : NodeKind) (plain : kind ≠ .element) (value : Bytes) (refused : String) :
      (leaf limits resources kind value refused).Ensures s (fun _ s' => s'.Sound (lists ++ [])) fun _ s' => s.Kept s' := by
    unfold leaf
    simp only [ensures_bind]
    apply (copy_ensures resources value s).mono
    · intro text s₁ kept
      cases text with
      | none => exact kept
      | some text =>
        apply (add_ensures limits resources _ s₁).mono
        · intro id s' added
          rw [append_nil]
          exact sound.leaf (added.kept kept) plain
        · intro _ s' kept'
          exact kept.trans kept'
    · intro _ _ never
      exact never.elim
  cases call with
  | text value =>
    show (text limits resources value).Ensures s _ _
    unfold text
    split
    · exact .refl s
    · exact single .text (by decide) value _
  | cdata value =>
    show (cdata limits resources value).Ensures s _ _
    unfold cdata
    split
    · exact .refl s
    · exact single .cdata (by decide) value _
  | comment value => exact single .comment (by decide) value _
  | processingInstruction target value =>
    show (processingInstruction limits resources target value).Ensures s _ _
    unfold processingInstruction
    simp only [ensures_bind]
    apply (copy_ensures resources target s).mono
    · intro name s₁ kept₁
      apply (copy_ensures resources value s₁).mono
      · intro text s₂ kept₂
        have kept := kept₁.trans kept₂
        split
        · apply (add_ensures limits resources _ s₂).mono
          · intro id s' added
            rw [show Builder.passed (.processingInstruction target value) (.ok id) = [] from rfl, append_nil]
            exact sound.leaf (added.kept kept) (by simp)
          · intro _ s' kept'
            exact kept.trans kept'
        · exact kept
      · intro _ _ never
        exact never.elim
    · intro _ _ never
      exact never.elim
  | element name given children => exact element_ensures limits resources name given children s sound

theorem sound_fresh : Sound {} [] := by
  constructor <;> simp [Owns]

/-- The tables after any calls: every node has at most one parent and every element's chain of
    siblings is the list of children it was made with. -/
structure Forest (s : BuilderState) (lists : List (List NodeId)) : Prop where
  elements : s.elements.length = lists.length
  chains : ∀ (i : Nat) (record : ElementRecord) children, s.elements[i]? = some record → lists[i]? = some children →
    record.children.count = children.length ∧ Chain s.nodes record.children.first children ∧ children.Nodup
  parents : ∀ (id i j : Nat) children children', lists[i]? = some children → lists[j]? = some children' →
    id ∈ children → id ∈ children' → i = j
  attached : ∀ id, s.attached[id]? = some true ↔
    ∃! i : Nat, ∃ children, lists[i]? = some children ∧ id ∈ children
  owners : ∀ i < s.elements.length, ∃! id, s.Owns id i
  order : ∀ id i children, s.Owns id i → lists[i]? = some children → ∀ child ∈ children, child < id

theorem Sound.forest {s : BuilderState} (sound : s.Sound lists) : s.Forest lists := by
  obtain ⟨each, apart⟩ := nodup_flatten.mp sound.distinct
  have parents : ∀ (id i j : Nat) children children', lists[i]? = some children → lists[j]? = some children' →
      id ∈ children → id ∈ children' → i = j := by
    intro id i j children children' first second mem mem'
    obtain ⟨below, rfl⟩ := List.getElem?_eq_some_iff.mp first
    obtain ⟨below', rfl⟩ := List.getElem?_eq_some_iff.mp second
    rcases Nat.lt_trichotomy i j with less | same | more
    · exact (pairwise_iff_getElem.mp apart i j below below' less mem mem').elim
    · exact same
    · exact (pairwise_iff_getElem.mp apart j i below' below more mem' mem).elim
  constructor
  · exact sound.records
  · intro i record children found passed
    obtain ⟨count, chain⟩ := sound.chains i record children found passed
    exact ⟨count, chain, each children (mem_of_getElem? passed)⟩
  · exact parents
  · intro id
    rw [sound.attached, mem_flatten]
    constructor
    · intro ⟨children, listed, mem⟩
      obtain ⟨i, found⟩ := mem_iff_getElem?.mp listed
      refine ⟨i, ⟨children, found, mem⟩, ?_⟩
      intro j ⟨children', found', mem'⟩
      exact parents id j i children' children found' found mem' mem
    · intro ⟨i, ⟨children, found, mem⟩, _⟩
      exact ⟨children, mem_of_getElem? found, mem⟩
  · intro i below
    rw [sound.records] at below
    obtain ⟨id, owns⟩ := sound.owned i below
    exact ⟨id, owns, fun other owns' => sound.owner i other id owns' owns⟩
  · exact sound.order

end

end BuilderState

namespace Builder

open BuilderState

variable (limits : ParseLimits) (resources : BuildResources)

theorem finish_ensures (root : NodeId) (s : BuilderState) : (BuilderState.finish limits resources root).Ensures s
      (fun doc s' => s' = s ∧ doc = ⟨s, root⟩ ∧ (∃ i, s.Owns root i) ∧ s.attached[root]? = some false)
      fun _ s' => s' = s := by
  unfold BuilderState.finish
  simp only [ensures_bind, ensures_get]
  split
  · rfl
  rename_i node found
  obtain ⟨_, present⟩ := nodeAt_some found
  split
  · rfl
  rename_i kind
  split
  · rfl
  rename_i free
  split
  · rfl
  · exact ⟨rfl, rfl, ⟨node.name.offsetOrId, node, present, by simpa using kind, rfl⟩, by simpa using free⟩

theorem make_cases (call : Call) (builder : Builder) : (∃ e, make limits resources call builder = (.error e, builder)) ∨
      ∃ s, builder = some s ∧ make limits resources call builder =
        ((step limits resources call s).1, some (step limits resources call s).2) := by
  unfold make
  cases refusal call with
  | some e => exact .inl ⟨e, rfl⟩
  | none =>
    cases builder with
    | none => exact .inl ⟨alreadyFinished, rfl⟩
    | some s => exact .inr ⟨s, rfl, rfl⟩

theorem finish_cases (root : NodeId) (builder : Builder) : (∃ doc, finish limits resources root builder = (.ok doc, none)) ∨
      ∃ e, finish limits resources root builder = (.error e, builder) := by
  cases builder with
  | none => exact .inr ⟨alreadyFinished, rfl⟩
  | some s =>
    have spec := finish_ensures limits resources root s
    unfold finish
    rcases result : BuilderState.finish limits resources root s with ⟨answer, s'⟩
    cases answer with
    | ok doc => exact .inl ⟨doc, by simp only [result]⟩
    | error e =>
      have same := spec.error result
      exact .inr ⟨e, by simp only [result, same]⟩

theorem reachable_sound {builder : Builder} {lists : List (List NodeId)}
    (reached : Reachable limits resources builder lists) : ∀ s, builder = some s → s.Sound lists := by
  induction reached with
  | fresh =>
    intro s here
    cases here
    exact sound_fresh
  | @made builder lists earlier call ih =>
    intro s here
    rcases make_cases limits resources call builder with ⟨e, refused⟩ | ⟨before, rfl, made⟩
    · rw [refused] at here ⊢
      cases call <;> simpa [passed] using ih s here
    have spec := step_ensures limits resources call before (ih before rfl)
    rw [made] at here ⊢
    cases here
    rcases result : step limits resources call before with ⟨answer, after⟩
    cases answer with
    | ok id => exact spec.ok result
    | error e =>
      have kept := spec.error result
      have sound := (ih before rfl).same kept.nodes kept.elements kept.attached
      cases call <;> simpa [passed] using sound
  | @finished builder lists earlier root ih =>
    intro s here
    rcases finish_cases limits resources root builder with ⟨doc, finished⟩ | ⟨e, failed⟩
    · rw [finished] at here
      cases here
    · rw [failed] at here
      exact ih s here

/-- Every state that calls lead to is a forest of the child lists passed, a call that fails changes no
    table, and only an element without a parent becomes a document. -/
theorem builder_forest {s : BuilderState} {lists : List (List NodeId)}
    (reached : Reachable limits resources (some s) lists) : s.Forest lists ∧
      (∀ call e builder, make limits resources call (some s) = (.error e, builder) →
        ∃ s', builder = some s' ∧ s.Kept s') ∧
      (∀ root e builder, finish limits resources root (some s) = (.error e, builder) →
        ∃ s', builder = some s' ∧ s.Kept s') ∧
      ∀ root doc builder, finish limits resources root (some s) = (.ok doc, builder) →
        doc = ⟨s, root⟩ ∧ (∃ i, s.Owns root i) ∧ s.attached[root]? = some false := by
  have sound := reachable_sound limits resources reached s rfl
  refine ⟨sound.forest, ?_, ?_, ?_⟩
  · intro call e builder failed
    rcases make_cases limits resources call (some s) with ⟨e', refused⟩ | ⟨s', same, made⟩
    · rw [refused] at failed
      cases failed
      exact ⟨s, rfl, .refl s⟩
    · cases same
      have spec := step_ensures limits resources call s sound
      rcases result : step limits resources call s with ⟨answer, after⟩
      rw [made, result] at failed
      cases failed
      exact ⟨after, rfl, spec.error result⟩
  · intro root e builder failed
    rcases finish_cases limits resources root (some s) with ⟨doc, finished⟩ | ⟨e', failed'⟩
    · rw [finished] at failed
      cases failed
    · rw [failed'] at failed
      cases failed
      exact ⟨s, rfl, .refl s⟩
  · intro root doc builder finished
    have spec := finish_ensures limits resources root s
    unfold finish at finished
    rcases result : BuilderState.finish limits resources root s with ⟨answer, after⟩
    simp only [result] at finished
    cases answer with
    | ok doc' =>
      cases finished
      exact (spec.ok result).2
    | error e => cases finished

theorem builder_forest_element : let resources : BuildResources := { grants := fun _ => true, committed := fun _ => 0 }
    let calls : List Call := [.text [0x61], .element [0x72] [] [0, 0], .element [0x72] [⟨[0x6B], [0x76]⟩] [0]]
    let built := calls.foldl (fun builder call => (make {} resources call builder).2) (some {})
    ∃ s, built = some s ∧ s.Forest [[0]] ∧ s.attached = [true, false] ∧ s.attributes.length = 1 ∧ s.nodes.length = 2 := by
  intro resources calls built
  have reached : Reachable {} resources built [[0]] :=
    .made (.made (.made .fresh (.text [0x61])) (.element [0x72] [] [0, 0])) (.element [0x72] [⟨[0x6B], [0x76]⟩] [0])
  have tables : built.map (fun s => (s.attached, s.attributes.length, s.nodes.length)) = some ([true, false], 1, 2) := by
    decide +kernel
  obtain ⟨s, here, shape⟩ := map_eq_some_iff.mp tables
  simp only [Prod.mk.injEq] at shape
  exact ⟨s, here, (builder_forest {} resources (here ▸ reached)).1, shape⟩

end Builder

end NginBase.Xml
