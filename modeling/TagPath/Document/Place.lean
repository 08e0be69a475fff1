import TagPath.Document.Node

/-! # Places in a tree

Two nodes of one tree may be equal and yet stand at different places.  A place is a
node together with its address: the positions of the children to go down to from
the root.  `places` lists all places of a tree in document order, a node before
what is below it; a place's position in that list numbers it.
-/
namespace TagPath

/-- The way from the root down to a node: which child to take at each level. -/
abbrev Address := List Nat

/-- A node and where it stands. -/
structure Place where
  /-- The way down to the node. -/
  address : Address
  node : Node
deriving Repr, DecidableEq, Inhabited

namespace Place

/-- The place of a whole tree within itself. -/
def root (node : Node) : Place := ⟨[], node⟩

/-- The same place, seen from a node whose child `index` was the root before. -/
def below (index : Nat) (place : Place) : Place := ⟨index :: place.address, place.node⟩

/-- The place of the child at `index`. -/
def descend (place : Place) (index : Nat) (child : Node) : Place :=
  ⟨place.address ++ [index], child⟩

/-- The places of the children, in order. -/
def children (place : Place) : List Place :=
  place.node.children.zipIdx.map fun entry => place.descend entry.2 entry.1

/-- The place of the first child that answers to `name`. -/
def child? (place : Place) (name : String) : Option Place :=
  place.children.find? (·.node.name == name)

/-- The place of the first text among the children; a text is its own. -/
def textNode? (place : Place) : Option Place :=
  if place.node.isText then some place else place.children.find? (·.node.isText)

/-- The number of a place among all places of a tree in document order; the root has
the number 0. -/
def numberAmong (place : Place) (places : List Place) : Nat :=
  places.findIdx (·.address == place.address)

/-- The children's places hold the children. -/
theorem map_node_children (place : Place) : place.children.map (·.node) = place.node.children := by
  unfold children
  rw [List.map_map]
  exact List.zipIdx_map_fst 0 _

/-- Looking up a child's place and looking up the child agree. -/
theorem map_node_child? (place : Place) (name : String) :
    (place.child? name).map (·.node) = place.node.child? name := by
  rw [child?, Node.child?, ← map_node_children, List.find?_map]
  rfl

/-- Looking up a text's place and looking up the text agree. -/
theorem map_node_textNode? (place : Place) :
    place.textNode?.map (·.node) = place.node.textNode? := by
  cases hn : place.node with
  | element name children =>
    have hc := map_node_children place
    rw [hn, Node.children_element] at hc
    simp only [textNode?, hn, Node.isText_element, Bool.false_eq_true, if_false, Node.textNode?]
    rw [← hc, List.find?_map]
    rfl
  | text content => simp [textNode?, hn, Node.textNode?]

end Place

namespace Node

mutual

/-- All places of a tree in document order, addresses counted from this node. -/
def places : Node → List Place
  | element name children => Place.root (element name children) :: placesBelow 0 children
  | text content => [Place.root (text content)]

/-- The places at and below the given children, the first of which has the position
`index`. -/
def placesBelow (index : Nat) : List Node → List Place
  | [] => []
  | child :: rest => (places child).map (Place.below index) ++ placesBelow (index + 1) rest

end

/-- A tree's first place is its root. -/
theorem head?_places (node : Node) : node.places.head? = some (Place.root node) := by
  cases node <;> simp [places]

end Node
end TagPath
