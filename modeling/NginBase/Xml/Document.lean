import NginBase.Xml.Layout

namespace NginBase.Xml

open Library List Segment

def siblings (nodes : List NodeRecord) : Nat → Nat → List NodeId
  | 0, _ => []
  | fuel + 1, first =>
    match nodeAt nodes first with
    | none => []
    | some node => first :: siblings nodes fuel node.nextSibling

theorem siblings_of_chain {nodes : List NodeRecord} {fuel first : Nat} {ids : List NodeId}
    (chain : Chain nodes first ids) (enough : ids.length ≤ fuel) : siblings nodes fuel first = ids := by
  induction ids generalizing first fuel with
  | nil =>
    cases fuel with
    | zero => rfl
    | succ fuel =>
      have none' : nodeAt nodes first = none := by
        rw [show first = sentinel from chain, nodeAt, if_pos rfl]
      rw [siblings, none']
  | cons id rest ih =>
    obtain ⟨rfl, node, present, next⟩ := chain
    cases fuel with
    | zero => simp at enough
    | succ fuel =>
      rw [siblings, present]
      dsimp only
      rw [ih next (by simpa using enough)]

theorem Chain.unique {nodes : List NodeRecord} {first : Nat} {ids ids' : List NodeId} (chain : Chain nodes first ids)
    (chain' : Chain nodes first ids') : ids = ids' := by
  rw [← siblings_of_chain chain (Nat.le_max_left ids.length ids'.length),
    siblings_of_chain chain' (Nat.le_max_right ids.length ids'.length)]

namespace Document

variable (doc : Document)

def AttributeRecord.entry (record : AttributeRecord) : Tree.Attribute TextRef :=
  ⟨record.name, record.value, record.span, record.valueSpan⟩

def treeAt : Nat → NodeId → Tree TextRef
  | 0, _ => .leaf .text {} {} {}
  | fuel + 1, id =>
    match nodeAt doc.nodes id with
    | none => .leaf .text {} {} {}
    | some node =>
      match node.kind with
      | .element =>
        match doc.elements[node.name.offsetOrId]? with
        | none => .leaf .text {} {} {}
        | some element =>
          .element element.name
            (((doc.attributes.drop element.attributes.first).take element.attributes.count).map AttributeRecord.entry)
            ((siblings doc.nodes doc.nodes.length element.children.first).map (treeAt fuel)) element.span
      | .text => .leaf .text node.name node.text node.span
      | .cdata => .leaf .cdata node.name node.text node.span
      | .comment => .leaf .comment node.name node.text node.span
      | .processingInstruction => .leaf .processingInstruction node.name node.text node.span

def refs : Tree TextRef := doc.treeAt doc.nodes.length doc.root

def tree : Tree Bytes := doc.refs.map doc.memory.text

end Document

section

variable {table : List NodeRecord} {place : Place} {next : Nat}

theorem forestRows_cons_segments {tree : Tree TextRef} {rest : List (Tree TextRef)}
    (segment : Segment table place.nodes (forestRows place next (tree :: rest))) :
    Segment table place.nodes (tree.nodeRows place (forestHead (place.after [tree]).nodes next rest)) ∧
      Segment table (place.after [tree]).nodes (forestRows (place.after [tree]) next rest) := by
  obtain ⟨first, second⟩ := append_iff.mp segment
  rw [Tree.nodeRows_length, Tree.nodeCount_eq, ← Nat.add_assoc, ← Place.after_singleton_nodes] at second
  exact ⟨first, second⟩

theorem nodeRows_segments {tree : Tree TextRef} (segment : Segment table place.nodes (tree.nodeRows place next)) :
    Segment table place.nodes (tree.lowerRows place) ∧
      table[place.nodes + tree.descendants]? = some (tree.rootRow place next) := by
  rw [Tree.nodeRows_eq] at segment
  obtain ⟨lower, root⟩ := append_iff.mp segment
  constructor
  · exact lower
  · have row := root.get (i := 0) (by simp)
    rwa [Tree.lowerRows_length] at row

theorem nodeAt_of_some {id : NodeId} {node : NodeRecord} (small : table.length ≤ sentinel)
    (present : table[id]? = some node) : nodeAt table id = some node := by
  have inside := (List.getElem?_eq_some_iff.mp present).1
  rw [nodeAt, if_neg (Nat.ne_of_lt (Nat.lt_of_lt_of_le inside small)), present]

theorem forestRows_chain {trees : List (Tree TextRef)} {ids : List NodeId} (small : table.length ≤ sentinel)
    (segment : Segment table place.nodes (forestRows place next trees)) (rest : Chain table next ids) :
    Chain table (forestHead place.nodes next trees) (rootIds place trees ++ ids) := by
  induction trees generalizing place with
  | nil => exact rest
  | cons tree more ih =>
    obtain ⟨first, second⟩ := forestRows_cons_segments segment
    have root := nodeAt_of_some small (nodeRows_segments first).2
    constructor
    · rfl
    · refine ⟨_, root, ?_⟩
      have link : (tree.rootRow place (forestHead (place.after [tree]).nodes next more)).nextSibling =
          forestHead (place.after [tree]).nodes next more := by
        cases tree with
        | leaf => rfl
        | element => rfl
      rw [link]
      exact ih second

end

section

structure Stands (doc : Document) (place : Place) (next : Nat) (tree : Tree TextRef) : Prop where
  nodes : Segment doc.nodes place.nodes (tree.nodeRows place next)
  elements : Segment doc.elements place.elements ((tree.placed place).map Placed.record)
  attributes : Segment doc.attributes place.attributes tree.attributeRows

structure StandAll (doc : Document) (place : Place) (next : Nat) (trees : List (Tree TextRef)) : Prop where
  nodes : Segment doc.nodes place.nodes (forestRows place next trees)
  elements : Segment doc.elements place.elements ((forestPlaced place trees).map Placed.record)
  attributes : Segment doc.attributes place.attributes (forestAttributes trees)

variable {doc : Document} {place : Place} {next : Nat}

theorem StandAll.cons {tree : Tree TextRef} {rest : List (Tree TextRef)} (stand : StandAll doc place next (tree :: rest)) :
    Stands doc place (forestHead (place.after [tree]).nodes next rest) tree ∧
      StandAll doc (place.after [tree]) next rest := by
  obtain ⟨nodes, elements, attributes⟩ := stand
  obtain ⟨first, second⟩ := forestRows_cons_segments nodes
  rw [forestPlaced, map_append] at elements
  obtain ⟨own, others⟩ := append_iff.mp elements
  rw [length_map, Tree.placed_length] at others
  obtain ⟨mine, theirs⟩ := append_iff.mp attributes
  rw [Tree.attributeRows_length] at theirs
  exact ⟨⟨first, own, mine⟩, ⟨second, others, theirs⟩⟩

structure Stands.Element (doc : Document) (next : Nat) (p : Placed TextRef) : Prop where
  node : doc.nodes[p.owner]? =
    some { kind := .element, nextSibling := next, name := ⟨p.place.elements, 0⟩, span := p.span }
  record : doc.elements[p.place.elements]? = some p.record
  attributes : Segment doc.attributes p.place.attributes (p.attributes.map Tree.Attribute.record)
  children : StandAll doc (p.place.inside p.attributes) sentinel p.children

theorem Stands.element {name : TextRef} {attributes : List (Tree.Attribute TextRef)} {children : List (Tree TextRef)}
    {span : CompactSpan} (stands : Stands doc place next (.element name attributes children span)) :
    Stands.Element doc next ⟨place, name, attributes, children, span⟩ := by
  obtain ⟨nodes, elements, attributeRows⟩ := stands
  obtain ⟨lower, root⟩ := nodeRows_segments nodes
  rw [Tree.placed, map_cons, ← singleton_append] at elements
  obtain ⟨own, below⟩ := append_iff.mp elements
  have record := own.get (i := 0) (by simp)
  obtain ⟨mine, theirs⟩ := append_iff.mp attributeRows
  rw [length_map] at theirs
  exact ⟨root, record, mine, ⟨lower, below, theirs⟩⟩

theorem rootIds_length {τ : Type} (place : Place) (trees : List (Tree τ)) : (rootIds place trees).length = trees.length := by
  induction trees generalizing place with
  | nil => rfl
  | cons tree rest ih => rw [rootIds, length_cons, length_cons, ih]

theorem length_le_weighAll {τ : Type} (trees : List (Tree τ)) : trees.length ≤ Tree.weighAll 1 (fun _ => 1) trees := by
  induction trees with
  | nil => exact Nat.zero_le _
  | cons tree rest ih =>
    have count : Tree.weigh 1 (fun _ => 1) tree = tree.descendants + 1 := tree.nodeCount_eq
    simp only [length_cons, Tree.weighAll]
    omega

theorem map_entry_record (attributes : List (Tree.Attribute TextRef)) :
    (attributes.map Tree.Attribute.record).map Document.AttributeRecord.entry = attributes := by
  rw [map_map]
  exact map_id _

section

variable (small : doc.nodes.length ≤ sentinel)

include small

theorem Stands.Element.chain {p : Placed TextRef} (element : Stands.Element doc next p) :
    Chain doc.nodes p.record.children.first p.childIds := by
  have ended : Chain doc.nodes sentinel [] := rfl
  have chain := forestRows_chain small element.children.nodes ended
  rw [append_nil] at chain
  exact chain

theorem Stands.Element.siblings {p : Placed TextRef} (element : Stands.Element doc next p) :
    siblings doc.nodes doc.nodes.length p.record.children.first = p.childIds := by
  apply siblings_of_chain (element.chain small)
  have size := (element.children.nodes : Segment _ _ _).length_le
  rw [length_drop, forestRows_length] at size
  have count := length_le_weighAll p.children
  rw [Placed.childIds, rootIds_length]
  omega

theorem Stands.Element.treeAt_succ {p : Placed TextRef} (element : Stands.Element doc next p) (fuel : Nat) :
    doc.treeAt (fuel + 1) p.owner = .element p.name p.attributes (p.childIds.map (doc.treeAt fuel)) p.span := by
  have slice := element.attributes.slice
  rw [length_map] at slice
  rw [Document.treeAt, nodeAt_of_some small element.node]
  simp only [element.record]
  rw [element.siblings small]
  simp only [Placed.record]
  rw [slice, map_entry_record]

end

section

variable (small : doc.nodes.length ≤ sentinel)

include small

mutual

theorem Stands.treeAt (place : Place) (next : Nat) (fuel : Nat) :
    ∀ tree : Tree TextRef, tree.nodeCount ≤ fuel → Stands doc place next tree →
      doc.treeAt fuel (place.nodes + tree.descendants) = tree
  | .leaf kind name text span, enough, stands => by
    have root := nodeAt_of_some small (nodeRows_segments stands.nodes).2
    obtain ⟨fuel, rfl⟩ : ∃ k, fuel = k + 1 := ⟨fuel - 1, by simp [Tree.nodeCount, Tree.weigh] at enough; omega⟩
    rw [Document.treeAt, root]
    cases kind <;> rfl
  | .element name attributes children span, enough, stands => by
    have element := stands.element
    rw [Tree.nodeCount, Tree.weigh] at enough
    obtain ⟨fuel, rfl⟩ : ∃ k, fuel = k + 1 := ⟨fuel - 1, by omega⟩
    have shown := StandAll.treesAt (place.inside attributes) sentinel fuel children (by omega) element.children
    show doc.treeAt (fuel + 1) (Placed.owner ⟨place, name, attributes, children, span⟩) = _
    rw [element.treeAt_succ small, Placed.childIds, shown]

theorem StandAll.treesAt (place : Place) (next : Nat) (fuel : Nat) :
    ∀ trees : List (Tree TextRef), Tree.weighAll 1 (fun _ => 1) trees ≤ fuel → StandAll doc place next trees →
      (rootIds place trees).map (doc.treeAt fuel) = trees
  | [], _, _ => rfl
  | tree :: rest, enough, stand => by
    obtain ⟨first, second⟩ := stand.cons
    rw [Tree.weighAll] at enough
    rw [rootIds, map_cons, Stands.treeAt place _ fuel tree (Nat.le_of_add_right_le enough) first]
    rw [StandAll.treesAt (place.after [tree]) next fuel rest (Nat.le_of_add_left_le enough) second]

end

theorem Stands.Element.treeAt {p : Placed TextRef} (element : Stands.Element doc next p) :
    doc.treeAt doc.nodes.length p.owner =
      .element p.name p.attributes (p.childIds.map (doc.treeAt doc.nodes.length)) p.span := by
  have inside := (List.getElem?_eq_some_iff.mp element.node).1
  have few : p.place.nodes + Tree.weighAll 1 (fun _ => 1) p.children < doc.nodes.length := inside
  obtain ⟨fuel, length⟩ : ∃ k, doc.nodes.length = k + 1 := ⟨doc.nodes.length - 1, by omega⟩
  have shown (fuel : Nat) (enough : Tree.weighAll 1 (fun _ => 1) p.children ≤ fuel) :
      p.childIds.map (doc.treeAt fuel) = p.children :=
    StandAll.treesAt small (p.place.inside p.attributes) sentinel fuel p.children enough element.children
  rw [shown _ (by omega), length, element.treeAt_succ small, shown _ (by omega)]

end

end

end NginBase.Xml
