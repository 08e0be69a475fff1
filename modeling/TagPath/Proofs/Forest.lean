import TagPath.Document.Place
import TagPath.Document.Printer

/-! # Forests and subtrees

The children of an element form a forest, a list of trees.  Facts about a tree are
proved about forests, by an induction that takes the first tree off the list: a text
leaves the rest of the forest, an element leaves its children and the rest
(`forestInduction`).  This is the order in which a document is written and read.

`subtrees` lists a tree and all trees below it, in document order; `EachElement p`
says that every element among them satisfies `p`, as a property of its name and its
children; `nesting` counts how many elements stand inside one another.
-/
namespace TagPath.Node

/-- Induction over a forest, first tree first. -/
theorem forestInduction {motive : List Node → Prop} (nil : motive [])
    (text : ∀ content rest, motive rest → motive (text content :: rest))
    (element : ∀ name children rest,
      motive children → motive rest → motive (element name children :: rest)) :
    ∀ nodes, motive nodes
  | [] => nil
  | .text content :: rest => text content rest (forestInduction nil text element rest)
  | .element name children :: rest =>
      element name children rest (forestInduction nil text element children)
        (forestInduction nil text element rest)

/-- Induction over a tree, from the children of an element to the element. -/
theorem treeInduction {motive : Node → Prop} (text : ∀ content, motive (text content))
    (element : ∀ name children, (∀ child ∈ children, motive child) →
      motive (element name children)) : ∀ node, motive node := by
  have hall : ∀ nodes : List Node, ∀ node ∈ nodes, motive node := by
    intro nodes
    induction nodes using forestInduction with
    | nil => exact List.forall_mem_nil _
    | text content rest ih => exact List.forall_mem_cons.mpr ⟨text content, ih⟩
    | element name children rest ihc ihr =>
      exact List.forall_mem_cons.mpr ⟨element name children ihc, ihr⟩
  exact fun node => hall [node] node List.mem_cons_self

/-! ## Children and their positions -/

section Gather
variable {α : Type} {gather : Node → List α} {below : Nat → α → α} {x : α}

/-- What is gathered from the children, each with its position, comes from one of them. -/
theorem mem_flatMap_zipIdx_iff {children : List Node} :
    (x ∈ children.zipIdx.flatMap fun entry => (gather entry.1).map (below entry.2)) ↔
      ∃ index child inner, children[index]? = some child ∧ inner ∈ gather child ∧
        x = below index inner := by
  simp only [List.mem_flatMap, List.mem_map, List.mem_zipIdx_iff_getElem?, Prod.exists]
  constructor
  · rintro ⟨child, index, hc, inner, hi, rfl⟩
    exact ⟨index, child, inner, hc, hi, rfl⟩
  · rintro ⟨index, child, inner, hc, hi, rfl⟩
    exact ⟨child, index, hc, inner, hi, rfl⟩

/-- It comes from the child at the first position or at a later one. -/
theorem exists_of_mem_flatMap_zipIdx {index : Nat} {nodes : List Node}
    (h : x ∈ (nodes.zipIdx index).flatMap fun entry => (gather entry.1).map (below entry.2)) :
    ∃ position inner, index ≤ position ∧ x = below position inner := by
  obtain ⟨⟨child, position⟩, hc, hm⟩ := List.mem_flatMap.mp h
  obtain ⟨inner, -, rfl⟩ := List.mem_map.mp hm
  exact ⟨position, inner, (List.mem_zipIdx_iff_le_and_getElem?_sub.mp hc).1, rfl⟩

end Gather

/-- The places below are those of the children, with their positions. -/
theorem placesBelow_eq_flatMap (index : Nat) (nodes : List Node) :
    placesBelow index nodes =
      (nodes.zipIdx index).flatMap fun entry => entry.1.places.map (Place.below entry.2) := by
  induction nodes generalizing index with
  | nil => rfl
  | cons node nodes ih => rw [placesBelow, List.zipIdx_cons, List.flatMap_cons, ih]

/-! ## Subtrees -/

/-- The tree itself and all trees below it, in document order. -/
def subtrees (node : Node) : List Node := node.places.map (·.node)

theorem map_node_placesBelow (index : Nat) (nodes : List Node) :
    (placesBelow index nodes).map (·.node) = nodes.flatMap subtrees := by
  induction nodes generalizing index with
  | nil => rfl
  | cons node rest ih =>
    rw [placesBelow, List.map_append, ih, List.map_map, List.flatMap_cons]
    rfl

@[simp] theorem subtrees_text (content : String) : (text content).subtrees = [text content] := rfl

@[simp] theorem subtrees_element (name : String) (children : List Node) :
    (element name children).subtrees = element name children :: children.flatMap subtrees := by
  rw [subtrees, places, List.map_cons, map_node_placesBelow]
  rfl

theorem mem_subtrees_self (node : Node) : node ∈ node.subtrees := by
  cases node <;> simp

/-- A tree lies in a forest in one of three ways: it is the first tree, it lies behind
the first tree, or it lies below it. -/
@[elab_as_elim] theorem memInduction {motive : Node → List Node → Prop}
    (here : ∀ node rest, motive node (node :: rest))
    (behind : ∀ node first rest, motive node rest → motive node (first :: rest))
    (below : ∀ node name children rest,
      motive node children → motive node (element name children :: rest))
    {node : Node} {nodes : List Node} (h : node ∈ nodes.flatMap subtrees) : motive node nodes := by
  induction nodes using forestInduction with
  | nil => simp at h
  | text content rest ih =>
    rw [List.flatMap_cons, subtrees_text, List.singleton_append, List.mem_cons] at h
    rcases h with rfl | h
    · exact here _ rest
    · exact behind node _ rest (ih h)
  | element name children rest ihc ihr =>
    rw [List.flatMap_cons, subtrees_element, List.cons_append, List.mem_cons,
      List.mem_append] at h
    rcases h with rfl | h | h
    · exact here _ rest
    · exact below node name children rest (ihc h)
    · exact behind node _ rest (ihr h)

/-- What lies in a tree of a forest lies in the forest, with all that is below it. -/
theorem subtrees_subset_flatMap {node : Node} {nodes : List Node}
    (h : node ∈ nodes.flatMap subtrees) : node.subtrees ⊆ nodes.flatMap subtrees := by
  refine memInduction ?here ?behind ?below h
  case here =>
    intro node rest
    rw [List.flatMap_cons]
    exact List.subset_append_left _ _
  case behind =>
    intro node first rest ih
    rw [List.flatMap_cons]
    exact List.Subset.trans ih (List.subset_append_right _ _)
  case below =>
    intro node name children rest ih
    rw [List.flatMap_cons, subtrees_element, List.cons_append]
    refine List.Subset.trans ih ?_
    exact List.Subset.trans (List.subset_append_left _ _) (List.subset_cons_self _ _)

theorem subtrees_subset {tree node : Node} (h : node ∈ tree.subtrees) :
    node.subtrees ⊆ tree.subtrees := by
  have h' : node ∈ [tree].flatMap subtrees := by simpa using h
  simpa using subtrees_subset_flatMap h'

/-- The written form of a tree below a forest stands in that of the forest. -/
theorem written_infix_writtenAll {node : Node} {nodes : List Node}
    (h : node ∈ nodes.flatMap subtrees) : node.written <:+: writtenAll nodes := by
  refine memInduction ?here ?behind ?below h
  case here =>
    intro node rest
    exact List.infix_append_left
  case behind =>
    intro node first rest ih
    exact ih.trans List.infix_append_right
  case below =>
    intro node name children rest ih
    rw [writtenAll_cons, written_element]
    exact ih.trans ((List.infix_append _ _ _).trans List.infix_append_left)

theorem written_infix {tree node : Node} (h : node ∈ tree.subtrees) :
    node.written <:+: tree.written := by
  have h' : node ∈ [tree].flatMap subtrees := by simpa using h
  simpa using written_infix_writtenAll h'

/-! ## Properties of every element -/

/-- Every element of the tree has the property `p` of its name and its children. -/
def EachElement (p : String → List Node → Prop) (tree : Node) : Prop :=
  ∀ name children, element name children ∈ tree.subtrees → p name children

section EachElement
variable {p q : String → List Node → Prop} {name : String} {children : List Node}

theorem eachElement_text (content : String) : (text content).EachElement p := by
  intro name children h
  simp at h

theorem eachElement_element_iff :
    (element name children).EachElement p ↔
      p name children ∧ ∀ child ∈ children, child.EachElement p := by
  constructor
  · intro h
    refine ⟨h name children (mem_subtrees_self _), fun child hc name' children' hm => ?_⟩
    refine h name' children' ?_
    rw [subtrees_element]
    exact List.mem_cons_of_mem _ (List.mem_flatMap.mpr ⟨child, hc, hm⟩)
  · rintro ⟨hp, hc⟩ name' children' hm
    rw [subtrees_element, List.mem_cons] at hm
    rcases hm with he | hm
    · obtain ⟨rfl, rfl⟩ := element.inj he
      exact hp
    · obtain ⟨child, hchild, hm⟩ := List.mem_flatMap.mp hm
      exact hc child hchild name' children' hm

theorem EachElement.of_mem_subtrees {tree node : Node} (h : tree.EachElement p)
    (hn : node ∈ tree.subtrees) : node.EachElement p :=
  fun name children hm => h name children (subtrees_subset hn hm)

theorem EachElement.imp {tree : Node} (h : tree.EachElement p)
    (hpq : ∀ name children, p name children → q name children) : tree.EachElement q :=
  fun name children hm => hpq name children (h name children hm)

/-- Going through the subtrees decides a property of every element. -/
instance [∀ name children, Decidable (p name children)] (tree : Node) :
    Decidable (tree.EachElement p) :=
  decidable_of_iff
    (∀ node ∈ tree.subtrees, node.isText = false → p node.name node.children) <| by
    constructor
    · exact fun h name children hm => h _ hm rfl
    · intro h node hm hn
      cases node with
      | element name children => exact h name children hm
      | text content => simp at hn

end EachElement

/-! ## Nesting -/

mutual

/-- How many elements stand inside one another at most: none in a text, one in an
element without element children. -/
def nesting : Node → Nat
  | element _ children => nestingAll children + 1
  | text _ => 0

/-- The greatest nesting in a forest. -/
def nestingAll : List Node → Nat
  | [] => 0
  | node :: rest => max (nesting node) (nestingAll rest)

end

@[simp] theorem nesting_text (content : String) : (text content).nesting = 0 := by
  rw [nesting]

@[simp] theorem nesting_element (name : String) (children : List Node) :
    (element name children).nesting = nestingAll children + 1 := by
  rw [nesting]

@[simp] theorem nestingAll_nil : nestingAll [] = 0 := rfl

@[simp] theorem nestingAll_cons (node : Node) (rest : List Node) :
    nestingAll (node :: rest) = max node.nesting (nestingAll rest) := rfl

/-- No tree below a forest is nested deeper than the forest. -/
theorem nesting_le_nestingAll {node : Node} {nodes : List Node}
    (h : node ∈ nodes.flatMap subtrees) : node.nesting ≤ nestingAll nodes := by
  refine memInduction ?here ?behind ?below h
  case here =>
    intro node rest
    exact Nat.le_max_left _ _
  case behind =>
    intro node first rest ih
    exact Nat.le_trans ih (Nat.le_max_right _ _)
  case below =>
    intro node name children rest ih
    rw [nestingAll_cons, nesting_element]
    omega

theorem nesting_le_of_mem_subtrees {tree node : Node} (h : node ∈ tree.subtrees) :
    node.nesting ≤ tree.nesting := by
  have h' : node ∈ [tree].flatMap subtrees := by simpa using h
  simpa using nesting_le_nestingAll h'

end TagPath.Node
