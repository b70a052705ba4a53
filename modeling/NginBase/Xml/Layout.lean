import NginBase.Library.Tables
import NginBase.Xml.Parser

namespace NginBase.Xml

open Library List

namespace Tree

variable {τ σ : Type}

def Attribute.map (f : τ → σ) (entry : Attribute τ) : Attribute σ :=
  ⟨f entry.name, f entry.value, entry.span, entry.valueSpan⟩

mutual

def map (f : τ → σ) : Tree τ → Tree σ
  | leaf kind name text span => leaf kind (f name) (f text) span
  | element name attributes children span =>
    element (f name) (attributes.map (Attribute.map f)) (mapAll f children) span

def mapAll (f : τ → σ) : List (Tree τ) → List (Tree σ)
  | [] => []
  | tree :: rest => tree.map f :: mapAll f rest

end

@[simp] theorem mapAll_eq (f : τ → σ) (trees : List (Tree τ)) : mapAll f trees = trees.map (map f) := by
  induction trees with
  | nil => rfl
  | cons tree rest ih => rw [mapAll, ih, map_cons]

section

variable (leafWeight : Nat) (elementWeight : Nat → Nat)

mutual

/-- The sum of what all nodes of a tree weigh; an element weighs by the number of its attributes. -/
def weigh : Tree τ → Nat
  | leaf _ _ _ _ => leafWeight
  | element _ attributes children _ => elementWeight attributes.length + weighAll children

def weighAll : List (Tree τ) → Nat
  | [] => 0
  | tree :: rest => tree.weigh + weighAll rest

end

@[simp] theorem weighAll_append (trees more : List (Tree τ)) :
    weighAll leafWeight elementWeight (trees ++ more) =
      weighAll leafWeight elementWeight trees + weighAll leafWeight elementWeight more := by
  induction trees with
  | nil => simp [weighAll]
  | cons tree rest ih => rw [cons_append, weighAll, weighAll, ih, Nat.add_assoc]

end

def descendants : Tree τ → Nat
  | leaf _ _ _ _ => 0
  | element _ _ children _ => weighAll 1 (fun _ => 1) children

abbrev nodeCount : Tree τ → Nat := weigh 1 fun _ => 1

abbrev elementCount : Tree τ → Nat := weigh 0 fun _ => 1

abbrev attributeCount : Tree τ → Nat := weigh 0 id

theorem nodeCount_eq (tree : Tree τ) : tree.nodeCount = tree.descendants + 1 := by
  cases tree with
  | leaf => rfl
  | element => simp [weigh, descendants, Nat.add_comm]

end Tree

@[ext] structure Place where
  nodes : Nat := 0
  elements : Nat := 0
  attributes : Nat := 0

namespace Place

variable {τ : Type} (place : Place)

def after (trees : List (Tree τ)) : Place :=
  ⟨place.nodes + Tree.weighAll 1 (fun _ => 1) trees, place.elements + Tree.weighAll 0 (fun _ => 1) trees,
    place.attributes + Tree.weighAll 0 id trees⟩

def inside (attributes : List (Tree.Attribute τ)) : Place :=
  ⟨place.nodes, place.elements + 1, place.attributes + attributes.length⟩

@[simp] theorem after_nil : place.after ([] : List (Tree τ)) = place := by
  simp [after, Tree.weighAll]

theorem after_append (trees more : List (Tree τ)) : place.after (trees ++ more) = (place.after trees).after more := by
  simp [after, Nat.add_assoc]

theorem after_cons (tree : Tree τ) (rest : List (Tree τ)) :
    place.after (tree :: rest) = (place.after [tree]).after rest := place.after_append [tree] rest

theorem after_singleton_nodes (tree : Tree τ) : (place.after [tree]).nodes = place.nodes + tree.descendants + 1 := by
  have count : Tree.weigh 1 (fun _ => 1) tree = tree.descendants + 1 := tree.nodeCount_eq
  simp only [after, Tree.weighAll]
  omega

end Place

/-- The id of the root of the first tree, when the nodes of the trees begin at `base`; without trees,
    what stands behind them. -/
def forestHead {τ : Type} (base next : Nat) : List (Tree τ) → Nat
  | [] => next
  | tree :: _ => base + tree.descendants

def rootIds {τ : Type} (place : Place) : List (Tree τ) → List NodeId
  | [] => []
  | tree :: rest => (place.nodes + tree.descendants) :: rootIds (place.after [tree]) rest

mutual

/-- The nodes of a tree: its children first, `next` is the sibling of the root. -/
def Tree.nodeRows (place : Place) (next : Nat) : Tree TextRef → List NodeRecord
  | .leaf kind name text span => [{ kind := kind.node, nextSibling := next, name, text, span }]
  | .element _ attributes children span =>
    forestRows (place.inside attributes) sentinel children ++
      [{ kind := .element, nextSibling := next, name := ⟨place.elements, 0⟩, span }]

def forestRows (place : Place) (next : Nat) : List (Tree TextRef) → List NodeRecord
  | [] => []
  | tree :: rest =>
    tree.nodeRows place (forestHead (place.after [tree]).nodes next rest) ++ forestRows (place.after [tree]) next rest

end

def Tree.lowerRows (place : Place) : Tree TextRef → List NodeRecord
  | .leaf _ _ _ _ => []
  | .element _ attributes children _ => forestRows (place.inside attributes) sentinel children

def Tree.rootRow (place : Place) (next : Nat) : Tree TextRef → NodeRecord
  | .leaf kind name text span => { kind := kind.node, nextSibling := next, name, text, span }
  | .element _ _ _ span => { kind := .element, nextSibling := next, name := ⟨place.elements, 0⟩, span }

theorem Tree.nodeRows_eq (place : Place) (next : Nat) (tree : Tree TextRef) :
    tree.nodeRows place next = tree.lowerRows place ++ [tree.rootRow place next] := by
  cases tree with
  | leaf => rfl
  | element => rfl

structure Placed (τ : Type) where
  place : Place
  name : τ
  attributes : List (Tree.Attribute τ)
  children : List (Tree τ)
  span : CompactSpan

namespace Placed

variable {τ : Type} (p : Placed τ)

def owner : NodeId := p.place.nodes + Tree.weighAll 1 (fun _ => 1) p.children

def childIds : List NodeId := rootIds (p.place.inside p.attributes) p.children

def record (p : Placed TextRef) : ElementRecord :=
  { name := p.name, attributes := ⟨p.place.attributes, p.attributes.length⟩,
    children := ⟨forestHead p.place.nodes sentinel p.children, p.children.length⟩, span := p.span }

end Placed

mutual

def Tree.placed {τ : Type} (place : Place) : Tree τ → List (Placed τ)
  | .leaf _ _ _ _ => []
  | .element name attributes children span =>
    ⟨place, name, attributes, children, span⟩ :: forestPlaced (place.inside attributes) children

def forestPlaced {τ : Type} (place : Place) : List (Tree τ) → List (Placed τ)
  | [] => []
  | tree :: rest => tree.placed place ++ forestPlaced (place.after [tree]) rest

end

def Tree.Attribute.record (entry : Tree.Attribute TextRef) : AttributeRecord :=
  { name := entry.name, value := entry.value, span := entry.span, valueSpan := entry.valueSpan }

mutual

def Tree.attributeRows : Tree TextRef → List AttributeRecord
  | .leaf _ _ _ _ => []
  | .element _ attributes children _ => attributes.map Tree.Attribute.record ++ forestAttributes children

def forestAttributes : List (Tree TextRef) → List AttributeRecord
  | [] => []
  | tree :: rest => tree.attributeRows ++ forestAttributes rest

end

mutual

theorem Tree.nodeRows_length (place : Place) (next : Nat) :
    ∀ tree : Tree TextRef, (tree.nodeRows place next).length = tree.nodeCount
  | .leaf _ _ _ _ => rfl
  | .element _ attributes children _ => by
    rw [Tree.nodeRows, List.length_append, forestRows_length, Tree.nodeCount, Tree.weigh, Nat.add_comm]
    rfl

theorem forestRows_length (place : Place) (next : Nat) :
    ∀ trees : List (Tree TextRef), (forestRows place next trees).length = Tree.weighAll 1 (fun _ => 1) trees
  | [] => rfl
  | tree :: rest => by
    rw [forestRows, length_append, Tree.nodeRows_length, forestRows_length, Tree.weighAll]

end

theorem Tree.lowerRows_length (place : Place) (tree : Tree TextRef) :
    (tree.lowerRows place).length = tree.descendants := by
  cases tree with
  | leaf => rfl
  | element name attributes children span => exact forestRows_length _ _ children

mutual

theorem Tree.placed_length {τ : Type} (place : Place) : ∀ tree : Tree τ, (tree.placed place).length = tree.elementCount
  | .leaf _ _ _ _ => rfl
  | .element _ attributes children _ => by
    rw [Tree.placed, List.length_cons, forestPlaced_length, Tree.elementCount, Tree.weigh, Nat.add_comm]

theorem forestPlaced_length {τ : Type} (place : Place) :
    ∀ trees : List (Tree τ), (forestPlaced place trees).length = Tree.weighAll 0 (fun _ => 1) trees
  | [] => rfl
  | tree :: rest => by
    rw [forestPlaced, length_append, Tree.placed_length, forestPlaced_length, Tree.weighAll]

end

mutual

theorem Tree.attributeRows_length : ∀ tree : Tree TextRef, tree.attributeRows.length = tree.attributeCount
  | .leaf _ _ _ _ => rfl
  | .element _ attributes children _ => by
    rw [Tree.attributeRows, length_append, forestAttributes_length, length_map, Tree.attributeCount, Tree.weigh]
    rfl

theorem forestAttributes_length :
    ∀ trees : List (Tree TextRef), (forestAttributes trees).length = Tree.weighAll 0 id trees
  | [] => rfl
  | tree :: rest => by
    rw [forestAttributes, List.length_append, Tree.attributeRows_length, forestAttributes_length, Tree.weighAll]

end

section

variable {τ : Type}

theorem forestPlaced_append (place : Place) (trees more : List (Tree τ)) :
    forestPlaced place (trees ++ more) = forestPlaced place trees ++ forestPlaced (place.after trees) more := by
  induction trees generalizing place with
  | nil => rw [nil_append, forestPlaced, nil_append, Place.after_nil]
  | cons tree rest ih =>
    rw [cons_append, forestPlaced, forestPlaced, ih, append_assoc, ← Place.after_cons]

theorem forestAttributes_append (trees more : List (Tree TextRef)) :
    forestAttributes (trees ++ more) = forestAttributes trees ++ forestAttributes more := by
  induction trees with
  | nil => rfl
  | cons tree rest ih => rw [cons_append, forestAttributes, forestAttributes, ih, append_assoc]

theorem forestRows_append (place : Place) (next : Nat) (trees more : List (Tree TextRef)) :
    forestRows place next (trees ++ more) =
      forestRows place (forestHead (place.after trees).nodes next more) trees ++
        forestRows (place.after trees) next more := by
  induction trees generalizing place with
  | nil => rw [nil_append, forestRows, nil_append, Place.after_nil]
  | cons tree rest ih =>
    have head : forestHead (place.after [tree]).nodes next (rest ++ more) =
        forestHead (place.after [tree]).nodes (forestHead (place.after (tree :: rest)).nodes next more) rest := by
      cases rest with
      | nil => rfl
      | cons => rfl
    rw [cons_append, forestRows, forestRows, ih, append_assoc, head, ← Place.after_cons]

theorem forestRows_relink (place : Place) (next next' : Nat) (trees : List (Tree TextRef)) (last : Tree TextRef)
    (rest : List NodeRecord) :
    (forestRows place next (trees ++ [last]) ++ rest).modify (Tree.weighAll 1 (fun _ => 1) trees + last.descendants)
        (fun node => { node with nextSibling := next' }) =
      forestRows place next' (trees ++ [last]) ++ rest := by
  simp only [forestRows_append, forestRows, forestHead, Tree.nodeRows_eq, append_nil]
  have position : Tree.weighAll 1 (fun _ => 1) trees + last.descendants =
      (forestRows place ((place.after trees).nodes + last.descendants) trees ++
        last.lowerRows (place.after trees)).length := by
    rw [length_append, forestRows_length, Tree.lowerRows_length]
  rw [position, ← append_assoc, append_assoc _ _ rest, singleton_append, modify_between]
  simp only [append_assoc]
  cases last with
  | leaf => rfl
  | element => rfl

end

end NginBase.Xml
