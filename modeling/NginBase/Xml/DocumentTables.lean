import NginBase.Xml.Ownership

namespace NginBase.Xml

open List Nat Option

section

variable {τ : Type}

theorem rootIds_bounds (place : Place) (trees : List (Tree τ)) :
    (∀ id : Nat, id ∈ rootIds place trees →
      place.nodes ≤ id ∧ id < place.nodes + Tree.weighAll 1 (fun _ => 1) trees) ∧
      (rootIds place trees).Pairwise fun a b : Nat => a < b := by
  induction trees generalizing place with
  | nil => exact ⟨fun _ mem => absurd mem not_mem_nil, .nil⟩
  | cons tree rest ih =>
    obtain ⟨bounds, increasing⟩ := ih (place.after [tree])
    have next := place.after_singleton_nodes tree
    have count : Tree.weigh 1 (fun _ => 1) tree = tree.descendants + 1 := tree.nodeCount_eq
    rw [Tree.weighAll]
    constructor
    · intro id mem
      rcases mem_cons.mp mem with rfl | mem
      · omega
      have bound := bounds id mem
      omega
    · apply Pairwise.cons
      · intro id mem
        have bound := bounds id mem
        omega
      · exact increasing

theorem childIds_lt_owner (p : Placed τ) {id : NodeId} (mem : id ∈ p.childIds) : id < p.owner :=
  ((rootIds_bounds _ _).1 id mem).2

mutual

theorem Tree.families (place : Place) : ∀ tree : Tree τ,
    ((tree.placed place).flatMap Placed.childIds ++ [place.nodes + tree.descendants]).Perm
      (range' place.nodes tree.nodeCount)
  | .leaf _ _ _ _ => by
    rw [Tree.placed, Tree.nodeCount, Tree.weigh]
    exact Perm.refl _
  | .element name attributes children span => by
    have below := forestFamilies (place.inside attributes) children
    have count : Tree.nodeCount (.element name attributes children span) =
        Tree.weighAll 1 (fun _ => 1) children + 1 := Tree.nodeCount_eq _
    rw [Tree.placed, flatMap_cons, count, range'_concat, one_mul]
    apply Perm.append_right
    exact (perm_append_comm).trans below

theorem forestFamilies (place : Place) : ∀ trees : List (Tree τ),
    ((forestPlaced place trees).flatMap Placed.childIds ++ rootIds place trees).Perm
      (range' place.nodes (Tree.weighAll 1 (fun _ => 1) trees))
  | [] => Perm.refl _
  | tree :: rest => by
    have first := Tree.families place tree
    have others := forestFamilies (place.after [tree]) rest
    have next : (place.after [tree]).nodes = place.nodes + 1 * Tree.weigh 1 (fun _ => 1) tree := by
      rw [one_mul]
      rfl
    rw [forestPlaced, flatMap_append, rootIds, Tree.weighAll, ← range'_append, ← next]
    refine Perm.trans ?_ (first.append others)
    rw [append_assoc, append_assoc]
    apply Perm.append_left
    rw [singleton_append]
    exact perm_middle

end

mutual

theorem Tree.placed_indices (place : Place) : ∀ tree : Tree τ,
    (tree.placed place).map (·.place.elements) = range' place.elements tree.elementCount
  | .leaf _ _ _ _ => rfl
  | .element name attributes children span => by
    rw [Tree.placed, map_cons, forestPlaced_indices, Tree.elementCount, Tree.weigh, add_comm, range'_succ]
    rfl

theorem forestPlaced_indices (place : Place) : ∀ trees : List (Tree τ),
    (forestPlaced place trees).map (·.place.elements) =
      range' place.elements (Tree.weighAll 0 (fun _ => 1) trees)
  | [] => rfl
  | tree :: rest => by
    have next : (place.after [tree]).elements = place.elements + 1 * Tree.weigh 0 (fun _ => 1) tree := by
      rw [one_mul]
      rfl
    rw [forestPlaced, map_append, Tree.placed_indices, forestPlaced_indices, Tree.weighAll, ← range'_append,
      next]

end

theorem Tree.placed_index {place : Place} {tree : Tree τ} {i : Nat} {p : Placed τ}
    (found : (tree.placed place)[i]? = some p) : p.place.elements = place.elements + i := by
  have indices := congrArg (·[i]?) (tree.placed_indices place)
  have inside := (List.getElem?_eq_some_iff.mp found).1
  rw [Tree.placed_length] at inside
  rw [List.getElem?_map, found, List.getElem?_range' inside] at indices
  simpa using indices

def Before (p q : Placed τ) : Prop := p.place.attributes + p.attributes.length ≤ q.place.attributes

def Between (first last : Nat) (p : Placed τ) : Prop :=
  first ≤ p.place.attributes ∧ p.place.attributes + p.attributes.length ≤ last

mutual

theorem Tree.ranges (place : Place) : ∀ tree : Tree τ,
    (∀ p ∈ tree.placed place, Between place.attributes (place.attributes + tree.attributeCount) p) ∧
      (tree.placed place).Pairwise Before
  | .leaf _ _ _ _ => ⟨fun _ mem => absurd mem not_mem_nil, .nil⟩
  | .element name attributes children span => by
    obtain ⟨bounds, apart⟩ := forestRanges (place.inside attributes) children
    have start : (place.inside attributes).attributes = place.attributes + attributes.length := rfl
    have count : Tree.attributeCount (.element name attributes children span) =
        attributes.length + Tree.weighAll 0 id children := rfl
    rw [Tree.placed, count]
    constructor
    · intro p mem
      rcases mem_cons.mp mem with rfl | mem
      · exact ⟨le_refl _, by dsimp only; omega⟩
      · obtain ⟨low, high⟩ := bounds p mem
        exact ⟨by omega, by omega⟩
    · apply Pairwise.cons
      · intro p mem
        exact (bounds p mem).1
      · exact apart

theorem forestRanges (place : Place) : ∀ trees : List (Tree τ),
    (∀ p ∈ forestPlaced place trees, Between place.attributes (place.attributes + Tree.weighAll 0 id trees) p) ∧
      (forestPlaced place trees).Pairwise Before
  | [] => ⟨fun _ mem => absurd mem not_mem_nil, .nil⟩
  | tree :: rest => by
    obtain ⟨bounds, apart⟩ := Tree.ranges place tree
    obtain ⟨bounds', apart'⟩ := forestRanges (place.after [tree]) rest
    have next : (place.after [tree]).attributes = place.attributes + tree.attributeCount := rfl
    have count : Tree.weighAll 0 id (tree :: rest) = tree.attributeCount + Tree.weighAll 0 id rest := rfl
    rw [forestPlaced, count]
    constructor
    · intro p mem
      rcases mem_append.mp mem with mem | mem
      · obtain ⟨low, high⟩ := bounds p mem
        exact ⟨low, by omega⟩
      · obtain ⟨low, high⟩ := bounds' p mem
        exact ⟨by omega, by omega⟩
    · apply pairwise_append.mpr
      refine ⟨apart, apart', ?_⟩
      intro p mem q mem'
      exact ((bounds p mem).2).trans (next ▸ (bounds' q mem').1)

end

mutual

theorem Tree.Nested.placed (place : Place) : ∀ tree : Tree τ, tree.Nested → ∀ p ∈ tree.placed place,
    Ordered p.span.last p.span.first p.children
  | .leaf _ _ _ _, _, _, mem => absurd mem not_mem_nil
  | .element name attributes children span, nested, p, mem => by
    unfold Tree.Nested at nested
    rw [Tree.placed] at mem
    rcases mem_cons.mp mem with rfl | mem
    · exact nested.2
    · exact Ordered.placed (place.inside attributes) children span.first span.last nested.2 p mem

theorem Ordered.placed (place : Place) : ∀ (trees : List (Tree τ)) (first last : Nat), Ordered last first trees →
    ∀ p ∈ forestPlaced place trees, Ordered p.span.last p.span.first p.children
  | [], _, _, _, _, mem => absurd mem not_mem_nil
  | tree :: rest, first, last, ordered, p, mem => by
    rw [forestPlaced] at mem
    rcases mem_append.mp mem with mem | mem
    · exact Tree.Nested.placed place tree ordered.2.1 p mem
    · exact Ordered.placed (place.after [tree]) rest tree.span.last last ordered.2.2 p mem

end

theorem Tree.span_map {σ : Type} (f : τ → σ) (tree : Tree τ) : (tree.map f).span = tree.span := by
  cases tree with
  | leaf => rfl
  | element => rfl

mutual

theorem Tree.Nested.of_map {σ : Type} (f : τ → σ) : ∀ tree : Tree τ, (tree.map f).Nested → tree.Nested
  | .leaf _ _ _ _, nested => nested
  | .element name attributes children span, nested => by
    rw [Tree.map, Tree.mapAll_eq] at nested
    unfold Tree.Nested at nested ⊢
    exact ⟨nested.1, Ordered.of_map f children span.first span.last nested.2⟩

theorem Ordered.of_map {σ : Type} (f : τ → σ) : ∀ (trees : List (Tree τ)) (first last : Nat),
    Ordered last first (trees.map (Tree.map f)) → Ordered last first trees
  | [], _, _, ordered => ordered
  | tree :: rest, first, last, ordered => by
    obtain ⟨before, nested, after⟩ := ordered
    rw [Tree.span_map] at before after
    exact ⟨before, Tree.Nested.of_map f tree nested, Ordered.of_map f rest tree.span.last last after⟩

end

end

section

mutual

theorem Tree.element_row (place : Place) (next : Nat) : ∀ (tree : Tree TextRef) (k : Nat) (node : NodeRecord),
    (tree.nodeRows place next)[k]? = some node → node.kind = .element →
      ∃ p ∈ tree.placed place, p.owner = place.nodes + k ∧ node.name.offsetOrId = p.place.elements
  | .leaf kind name text span, k, node, row, element => by
    rw [Tree.nodeRows] at row
    obtain ⟨rfl, rfl⟩ : k = 0 ∧ _ = node := by simpa [getElem?_singleton] using row
    cases kind <;> cases element
  | .element name attributes children span, k, node, row, element => by
    rw [Tree.nodeRows] at row
    rcases lt_or_ge k (forestRows (place.inside attributes) sentinel children).length with small | large
    · rw [getElem?_append_left small] at row
      obtain ⟨p, mem, owner, index⟩ :=
        forest_element_row (place.inside attributes) sentinel children k node row element
      rw [Tree.placed]
      exact ⟨p, mem_cons_of_mem _ mem, owner, index⟩
    · rw [getElem?_append_right large] at row
      obtain ⟨last, rfl⟩ : k - (forestRows (place.inside attributes) sentinel children).length = 0 ∧ _ = node := by
        simpa [getElem?_singleton] using row
      rw [forestRows_length] at large last
      have position : k = Tree.weighAll 1 (fun _ => 1) children := by omega
      rw [Tree.placed]
      exact ⟨_, mem_cons_self, by rw [position]; rfl, rfl⟩

theorem forest_element_row (place : Place) (next : Nat) :
    ∀ (trees : List (Tree TextRef)) (k : Nat) (node : NodeRecord),
    (forestRows place next trees)[k]? = some node → node.kind = .element →
      ∃ p ∈ forestPlaced place trees, p.owner = place.nodes + k ∧ node.name.offsetOrId = p.place.elements
  | [], _, _, row, _ => by
    rw [forestRows, getElem?_nil] at row
    cases row
  | tree :: rest, k, node, row, element => by
    rw [forestRows] at row
    rcases lt_or_ge k (tree.nodeRows place (forestHead (place.after [tree]).nodes next rest)).length with
      small | large
    · rw [getElem?_append_left small] at row
      obtain ⟨p, mem, owner, index⟩ := Tree.element_row place _ tree k node row element
      rw [forestPlaced]
      exact ⟨p, mem_append_left _ mem, owner, index⟩
    · rw [getElem?_append_right large] at row
      obtain ⟨p, mem, owner, index⟩ := forest_element_row (place.after [tree]) next rest _ node row element
      rw [forestPlaced]
      refine ⟨p, mem_append_right _ mem, owner.trans ?_, index⟩
      have count : Tree.weigh 1 (fun _ => 1) tree = tree.descendants + 1 := tree.nodeCount_eq
      have start := place.after_singleton_nodes tree
      rw [Tree.nodeRows_length, Tree.nodeCount, count] at large ⊢
      show ((place.after [tree]).nodes + (k - (tree.descendants + 1)) : Nat) = place.nodes + k
      omega

end

variable {doc : Document}

mutual

theorem Stands.placed (place : Place) (next : Nat) : ∀ tree : Tree TextRef, Stands doc place next tree →
    ∀ p ∈ tree.placed place, ∃ next', Stands.Element doc next' p
  | .leaf _ _ _ _, _, _, mem => absurd mem not_mem_nil
  | .element name attributes children span, stands, p, mem => by
    have element := stands.element
    rw [Tree.placed] at mem
    rcases mem_cons.mp mem with rfl | mem
    · exact ⟨next, element⟩
    · exact StandAll.placed (place.inside attributes) sentinel children element.children p mem

theorem StandAll.placed (place : Place) (next : Nat) : ∀ trees : List (Tree TextRef), StandAll doc place next trees →
    ∀ p ∈ forestPlaced place trees, ∃ next', Stands.Element doc next' p
  | [], _, _, mem => absurd mem not_mem_nil
  | tree :: rest, stand, p, mem => by
    obtain ⟨first, second⟩ := stand.cons
    rw [forestPlaced] at mem
    rcases mem_append.mp mem with mem | mem
    · exact Stands.placed place _ tree first p mem
    · exact StandAll.placed (place.after [tree]) next rest second p mem

end

theorem StandAll.spans {place : Place} {next first last : Nat} {trees : List (Tree TextRef)}
    (small : doc.nodes.length ≤ sentinel) (stand : StandAll doc place next trees) (ordered : Ordered last first trees) :
    (∀ id ∈ rootIds place trees, ∃ child, nodeAt doc.nodes id = some child ∧ first ≤ child.span.first ∧
      child.span.first < child.span.last ∧ child.span.last ≤ last) ∧
    (rootIds place trees).Pairwise fun a b => ∀ x y, nodeAt doc.nodes a = some x → nodeAt doc.nodes b = some y →
      x.span.last ≤ y.span.first := by
  induction trees generalizing place first with
  | nil => exact ⟨fun _ mem => absurd mem not_mem_nil, .nil⟩
  | cons tree rest ih =>
    obtain ⟨own, others⟩ := stand.cons
    obtain ⟨before, nested, after⟩ := ordered
    obtain ⟨inside, apart⟩ := ih others after
    have root := nodeAt_of_some small (nodeRows_segments own.nodes).2
    have span : (tree.rootRow place (forestHead (place.after [tree]).nodes next rest)).span = tree.span := by
      cases tree with
      | leaf => rfl
      | element => rfl
    have positive := nested.positive
    constructor
    · intro id mem
      rcases mem_cons.mp mem with rfl | mem
      · refine ⟨_, root, ?_⟩
        rw [span]
        exact ⟨before, positive, after.le⟩
      · obtain ⟨child, present, low, middle, high⟩ := inside id mem
        exact ⟨child, present, by omega, middle, high⟩
    · apply Pairwise.cons
      · intro id mem x y first second
        obtain ⟨child, present, low, _, _⟩ := inside id mem
        rw [root, some.injEq] at first
        rw [present, some.injEq] at second
        rw [← first, ← second, span]
        exact low
      · exact apart

end

/-- What the tables say of the element with index `i`: its node, the chain of its children, and where
    they lie. -/
structure Document.Element (doc : Document) (i : Nat) (element : ElementRecord) (ids : List NodeId) : Prop where
  chain : Chain doc.nodes element.children.first ids
  count : ids.length = element.children.count
  increasing : ids.Pairwise fun a b : Nat => a < b
  owner : ∃ owner node, nodeAt doc.nodes owner = some node ∧ node.kind = .element ∧ node.name.offsetOrId = i ∧
    node.span = element.span ∧ ∃ attributes, doc.treeAt doc.nodes.length owner =
      .element element.name attributes (ids.map (doc.treeAt doc.nodes.length)) element.span
  smaller : ∀ owner node, nodeAt doc.nodes owner = some node → node.kind = .element → node.name.offsetOrId = i →
    ∀ id ∈ ids, id < owner
  inside : ∀ id ∈ ids, ∃ child, nodeAt doc.nodes id = some child ∧ element.span.first ≤ child.span.first ∧
    child.span.first < child.span.last ∧ child.span.last ≤ element.span.last
  apart : ids.Pairwise fun a b => ∀ x y, nodeAt doc.nodes a = some x → nodeAt doc.nodes b = some y →
    x.span.last ≤ y.span.first

/-- The node `id` is in the chain of the element with index `i`. -/
def Document.IsChild (doc : Document) (i : Nat) (id : NodeId) : Prop :=
  ∃ (element : ElementRecord) (ids : List NodeId), doc.elements[i]? = some element ∧
    Chain doc.nodes element.children.first ids ∧ id ∈ ids

section

variable {doc : Document} {ref : Tree TextRef} (laid : doc.Laid ref)

include laid

theorem Document.Laid.element {i : Nat} {element : ElementRecord} (present : doc.elements[i]? = some element) :
    ∃ p, (ref.placed {})[i]? = some p ∧ p.record = element := by
  rw [laid.elements, getElem?_map] at present
  exact map_eq_some_iff.mp present

theorem Document.Laid.owner {p : Placed TextRef} {i : Nat} {owner : NodeId} {node : NodeRecord}
    (found : (ref.placed {})[i]? = some p) (present : nodeAt doc.nodes owner = some node)
    (kind : node.kind = .element) (same : node.name.offsetOrId = i) : owner = p.owner := by
  unfold nodeAt at present
  split at present
  · cases present
  rw [laid.nodes] at present
  obtain ⟨q, mem, place, elements⟩ := Tree.element_row {} sentinel ref owner node present kind
  obtain ⟨j, found'⟩ := getElem?_of_mem mem
  have index := Tree.placed_index found'
  have position : j = i := by
    rw [← same, elements, index]
    exact (zero_add _).symm
  rw [position, found, some.injEq] at found'
  rw [found', place]
  exact (zero_add _).symm

theorem Document.Laid.elements_describe (nested : ref.Nested) {i : Nat} {element : ElementRecord}
    (present : doc.elements[i]? = some element) : ∃ ids, doc.Element i element ids := by
  obtain ⟨p, found, rfl⟩ := laid.element present
  have index : p.place.elements = i := (Tree.placed_index found).trans (zero_add _)
  have mem := mem_of_getElem? found
  obtain ⟨next, stands⟩ := Stands.placed {} sentinel ref laid.stands p mem
  obtain ⟨inside, apart⟩ := stands.children.spans laid.small (Tree.Nested.placed {} ref nested p mem)
  refine ⟨p.childIds, stands.chain laid.small, rootIds_length _ _, (rootIds_bounds _ _).2, ?_, ?_, inside, apart⟩
  · exact ⟨p.owner, _, nodeAt_of_some laid.small stands.node, rfl, index, rfl, p.attributes, stands.treeAt laid.small⟩
  · intro owner node present kind same id child
    rw [laid.owner found present kind same]
    exact childIds_lt_owner p child

theorem Document.Laid.chain_eq {i : Nat} {element : ElementRecord} {ids : List NodeId}
    (present : doc.elements[i]? = some element) (chain : Chain doc.nodes element.children.first ids) :
    ∃ p, (ref.placed {})[i]? = some p ∧ ids = p.childIds := by
  obtain ⟨p, found, rfl⟩ := laid.element present
  obtain ⟨next, stands⟩ := Stands.placed {} sentinel ref laid.stands p (mem_of_getElem? found)
  exact ⟨p, found, chain.unique (stands.chain laid.small)⟩

theorem Document.Laid.families :
    ((ref.placed {}).flatMap Placed.childIds ++ [doc.root]).Perm (range doc.nodes.length) := by
  have perm := ref.families {}
  rw [zero_add, ← laid.root, ← range_eq_range', ← Tree.nodeRows_length {} sentinel, ← laid.nodes] at perm
  exact perm

theorem Document.Laid.nodup : ((ref.placed {}).flatMap Placed.childIds ++ [doc.root]).Nodup :=
  laid.families.nodup_iff.mpr nodup_range

theorem Document.Laid.one_parent {id : NodeId} (inside : id < doc.nodes.length) (other : id ≠ doc.root) :
    ∃! i, doc.IsChild i id := by
  have mem : id ∈ (ref.placed {}).flatMap Placed.childIds ++ [doc.root] :=
    laid.families.mem_iff.mpr (mem_range.mpr inside)
  rcases mem_append.mp mem with mem | mem
  · obtain ⟨p, placed, child⟩ := mem_flatMap.mp mem
    obtain ⟨i, found⟩ := getElem?_of_mem placed
    obtain ⟨next, stands⟩ := Stands.placed {} sentinel ref laid.stands p placed
    refine ⟨i, ⟨p.record, p.childIds, ?_, stands.chain laid.small, child⟩, ?_⟩
    · rw [laid.elements, getElem?_map, found, map_some]
    · intro j ⟨element, ids, present, chain, child'⟩
      obtain ⟨q, found', same⟩ := laid.chain_eq present chain
      rw [same] at child'
      have disjoint := (nodup_flatMap.mp (nodup_append.mp laid.nodup).1).2
      obtain ⟨hi, rfl⟩ := List.getElem?_eq_some_iff.mp found
      obtain ⟨hj, rfl⟩ := List.getElem?_eq_some_iff.mp found'
      rcases lt_trichotomy j i with less | equal | greater
      · exact absurd child (pairwise_iff_getElem.mp disjoint j i hj hi less child')
      · exact equal
      · exact absurd child' (pairwise_iff_getElem.mp disjoint i j hi hj greater child)
  · exact absurd (mem_singleton.mp mem) other

theorem Document.Laid.root_apart (i : Nat) : ¬ doc.IsChild i doc.root := by
  intro ⟨element, ids, present, chain, child⟩
  obtain ⟨p, found, rfl⟩ := laid.chain_eq present chain
  have apart := (nodup_append.mp laid.nodup).2.2
  have among : doc.root ∈ (ref.placed {}).flatMap Placed.childIds :=
    mem_flatMap.mpr ⟨p, mem_of_getElem? found, child⟩
  exact apart _ among _ (mem_singleton_self _) rfl

theorem Document.Laid.attributes_inside {i : Nat} {element : ElementRecord} (present : doc.elements[i]? = some element) :
    element.attributes.first + element.attributes.count ≤ doc.attributes.length := by
  obtain ⟨p, found, rfl⟩ := laid.element present
  have between := ((ref.ranges {}).1 p (mem_of_getElem? found)).2
  rw [laid.attributes, Tree.attributeRows_length]
  exact between.trans_eq (zero_add _)

theorem Document.Laid.attributes_apart {i j : Nat} {element element' : ElementRecord} (ordered : i < j)
    (present : doc.elements[i]? = some element) (present' : doc.elements[j]? = some element') :
    element.attributes.first + element.attributes.count ≤ element'.attributes.first := by
  obtain ⟨p, found, rfl⟩ := laid.element present
  obtain ⟨q, found', rfl⟩ := laid.element present'
  obtain ⟨hi, rfl⟩ := List.getElem?_eq_some_iff.mp found
  obtain ⟨hj, rfl⟩ := List.getElem?_eq_some_iff.mp found'
  exact pairwise_iff_getElem.mp (ref.ranges {}).2 i j hi hj ordered

end

/-- The tables of every document that a parse returns describe a tree: the tree that the grammar reads
    from the text. -/
theorem document_tables_describe_tree (setup : Setup) (mode : Ownership) (input : Bytes) (doc : Document)
    (parsed : Parser.run setup mode input = .ok doc) :
    Syntax.document setup.toProfile input = .ok doc.tree ∧
    (∀ (i : Nat) (element : ElementRecord), doc.elements[i]? = some element → ∃ ids, doc.Element i element ids) ∧
    (doc.root < doc.nodes.length ∧ ∀ i, ¬ doc.IsChild i doc.root) ∧
    (∀ id, id < doc.nodes.length → id ≠ doc.root → ∃! i, doc.IsChild i id) ∧
    (∀ (i : Nat) (element : ElementRecord), doc.elements[i]? = some element →
      element.attributes.first + element.attributes.count ≤ doc.attributes.length) ∧
    ∀ (i j : Nat) (element element' : ElementRecord), i < j → doc.elements[i]? = some element →
      doc.elements[j]? = some element' →
      element.attributes.first + element.attributes.count ≤ element'.attributes.first := by
  rcases Parser.run_cases setup mode input with ⟨e, failed, _⟩ | ⟨doc', ref, ok, laid, grammar⟩ | ⟨d, _, failed, _⟩
  · rw [parsed] at failed
    cases failed
  · rw [parsed] at ok
    cases ok
    have nested : ref.Nested := by
      have whole := ((Syntax.parse_ends input).ok _ (Syntax.document_ok.mp grammar).1).2.1
      rw [Document.tree, laid.refs] at whole
      exact Tree.Nested.of_map _ ref whole
    refine ⟨grammar, fun i element present => laid.elements_describe nested present, ⟨?_, ?_⟩, ?_, ?_, ?_⟩
    · rw [laid.root, laid.nodes, Tree.nodeRows_length, Tree.nodeCount_eq]
      exact lt_succ_self _
    · exact laid.root_apart
    · intro id inside other
      exact laid.one_parent inside other
    · intro i element present
      exact laid.attributes_inside present
    · intro i j element element' ordered present present'
      exact laid.attributes_apart ordered present present'
  · rw [parsed] at failed
    cases failed

theorem document_tables_describe_element :
    ∃ doc, Parser.run {} .inSitu [0x3C, 0x61, 0x20, 0x62, 0x3D, 0x22, 0x31, 0x22, 0x3E, 0x3C, 0x63, 0x2F, 0x3E, 0x78,
        0x3C, 0x2F, 0x61, 0x3E] = .ok doc ∧ doc.elements.length = 2 ∧
      ∃! i, doc.IsChild i 0 := by
  have parsed : (Parser.run {} .inSitu [0x3C, 0x61, 0x20, 0x62, 0x3D, 0x22, 0x31, 0x22, 0x3E, 0x3C, 0x63, 0x2F, 0x3E, 0x78,
      0x3C, 0x2F, 0x61, 0x3E]).toOption.map (fun doc => (doc.elements.length, doc.nodes.length, doc.root)) =
        some (2, 3, 2) := by decide +kernel
  generalize result : Parser.run _ _ _ = run at parsed
  cases run with
  | error e => cases parsed
  | ok doc =>
    simp only [Except.toOption, map_some, some.injEq, Prod.mk.injEq] at parsed
    obtain ⟨two, nodes, root⟩ := parsed
    have described := document_tables_describe_tree _ _ _ doc result
    exact ⟨doc, rfl, two, described.2.2.2.1 0 (by omega) (by rw [root]; decide)⟩

end NginBase.Xml
