import TagPath.Document.Layout
import TagPath.Proofs.HeldTexts
import TagPath.Proofs.Matches
import TagPath.Proofs.Spacing

/-! # Where lines break

A tree's tags and texts stand in its written form in a fixed order, and each of them
belongs to a place of the tree (`Mark`, `Node.marks`).  A line of the indented form holds
one row of them: the opening tag of an element, its closing tag, or a whole node with
everything below it (`Entry`).  `BreaksInto tree entries` says of a list of entries,
without the layout, that it goes through all marks of the tree in their order, begins and
ends with the root, keeps a node in one piece exactly if it has no children or a text
among them, and breaks between two tags only.

The layout's lines are such entries, each moved in by the level of its node
(`lines_eq_map_line`), and no other list of entries is (`BreaksInto.unique`): a line that
begins with an opening tag holds the whole element if the element is kept in one piece, and
nothing else if it is not.  So **a tree over several lines is its written form with a line
break and spaces put between tags, as many spaces as the node's level asks for**
(`Node.renderIndented_breaksInto`).  There is such a text only if it can be held; where
there are too many spaces for that, none is made.
-/
namespace TagPath

/-! ## Marks -/

/-- A tag or a text of a tree, and the place that it belongs to. -/
structure Mark where
  place : Place
  token : Token
deriving Repr, DecidableEq

namespace Mark

/-- The same mark, seen from a node whose child `index` was the root before. -/
def below (index : Nat) (mark : Mark) : Mark := ⟨mark.place.below index, mark.token⟩

/-- The same mark, seen from a node that leads to the root by `address`. -/
def under (address : Address) (mark : Mark) : Mark :=
  ⟨⟨address ++ mark.place.address, mark.place.node⟩, mark.token⟩

/-- Whether the mark is a tag. -/
def IsTag (mark : Mark) : Prop := ∀ run, mark.token ≠ .text run

theorem below_injective (index : Nat) : Function.Injective (below index) := by
  rintro ⟨⟨address, node⟩, token⟩ ⟨⟨address', node'⟩, token'⟩ h
  simpa [below, Place.below] using h

end Mark

namespace Node

mutual

/-- The marks of a tree in the order in which they are written. -/
def marks : Node → List Mark
  | element name children =>
    ⟨Place.root (element name children), .opening name.toList⟩ ::
      (marksBelow 0 children ++ [⟨Place.root (element name children), .closing name.toList⟩])
  | text content => [⟨Place.root (text content), .text content.toList⟩]

/-- The marks of the given children, the first of which has the position `index`. -/
def marksBelow (index : Nat) : List Node → List Mark
  | [] => []
  | child :: rest => (marks child).map (Mark.below index) ++ marksBelow (index + 1) rest

end

mutual

/-- The marks written one after the other are the written form. -/
theorem flatMap_written_marks (node : Node) :
    node.marks.flatMap (·.token.written) = node.written := by
  match node with
  | text content => simp [marks, Token.written]
  | element name children =>
    rw [marks, List.flatMap_cons, List.flatMap_append, flatMap_written_marksBelow 0 children]
    simp [Token.written]

theorem flatMap_written_marksBelow (index : Nat) (nodes : List Node) :
    (marksBelow index nodes).flatMap (·.token.written) = writtenAll nodes := by
  match nodes with
  | [] => rfl
  | node :: rest =>
    rw [marksBelow, List.flatMap_append, List.flatMap_map, writtenAll_cons,
      flatMap_written_marksBelow (index + 1) rest]
    exact congrArg (· ++ writtenAll rest) (flatMap_written_marks node)

end

theorem marksBelow_eq_flatMap (index : Nat) (nodes : List Node) :
    marksBelow index nodes =
      (nodes.zipIdx index).flatMap fun entry => entry.1.marks.map (Mark.below entry.2) := by
  induction nodes generalizing index with
  | nil => rfl
  | cons node nodes ih => rw [marksBelow, List.zipIdx_cons, List.flatMap_cons, ih]

/-- A mark below the child at some position or a later one has an address that begins so. -/
theorem address_of_mem_marksBelow {index : Nat} {nodes : List Node} {mark : Mark}
    (h : mark ∈ marksBelow index nodes) :
    ∃ position rest, index ≤ position ∧ mark.place.address = position :: rest := by
  rw [marksBelow_eq_flatMap] at h
  obtain ⟨position, inner, hle, rfl⟩ := exists_of_mem_flatMap_zipIdx h
  exact ⟨position, inner.place.address, hle, rfl⟩

mutual

/-- **No mark is listed twice**: a place and a token say which mark is meant. -/
theorem nodup_marks (node : Node) : node.marks.Nodup := by
  match node with
  | text content => simp [marks]
  | element name children =>
    have h := nodup_marksBelow 0 children
    have hroot : ∀ token, (⟨Place.root (element name children), token⟩ : Mark) ∉
        marksBelow 0 children := by
      intro token hm
      obtain ⟨position, rest, -, he⟩ := address_of_mem_marksBelow hm
      cases he
    rw [marks, List.nodup_cons, List.mem_append, List.mem_singleton, List.nodup_append]
    refine ⟨?_, h, List.nodup_singleton _, ?_⟩
    · rintro (hm | he)
      · exact hroot _ hm
      · cases he
    · rintro _ hm mark hc rfl
      exact hroot _ (List.mem_singleton.mp hc ▸ hm)

theorem nodup_marksBelow (index : Nat) (nodes : List Node) :
    (marksBelow index nodes).Nodup := by
  match nodes with
  | [] => exact List.nodup_nil
  | node :: rest =>
    rw [marksBelow, List.nodup_append]
    refine ⟨(nodup_marks node).map (Mark.below_injective index),
      nodup_marksBelow (index + 1) rest, ?_⟩
    rintro _ hm mark hr rfl
    obtain ⟨inner, -, rfl⟩ := List.mem_map.mp hm
    obtain ⟨position, tail, hle, he⟩ := address_of_mem_marksBelow hr
    obtain ⟨rfl, -⟩ := List.cons.inj he
    omega

end

end Node

/-- The marks of the node at a place and of all below it, as marks of the whole tree. -/
def Place.marks (place : Place) : List Mark := place.node.marks.map (Mark.under place.address)

@[simp] theorem Place.marks_root (node : Node) : (Place.root node).marks = node.marks :=
  List.map_id'' (fun _ => rfl) node.marks

theorem Place.marks_below (index : Nat) (place : Place) :
    (place.below index).marks = place.marks.map (Mark.below index) := by
  simp [Place.marks, Place.below, Mark.under, Mark.below]

/-- If a tag comes first at a place, it is not a closing tag, and a closing tag comes with
it. -/
theorem Place.of_head?_marks {place : Place} {mark : Mark} (h : place.marks.head? = some mark) :
    (∀ name, mark.token ≠ .closing name) ∧
      (mark.IsTag → ⟨place, .closing place.node.name.toList⟩ ∈ place.marks) := by
  obtain ⟨address, node⟩ := place
  cases node with
  | text content =>
    obtain rfl : _ = mark := by simpa [Place.marks, Node.marks] using h
    exact ⟨nofun, fun ht => absurd rfl (ht content.toList)⟩
  | element name children =>
    obtain rfl : _ = mark := by simpa [Place.marks, Node.marks] using h
    exact ⟨nofun, fun _ => by simp [Place.marks, Node.marks, Mark.under, Place.root]⟩

/-! ## Entries -/

/-- What stands on a line. -/
inductive Entry where
  /-- The tag that opens the element at a place. -/
  | opening (place : Place)
  /-- The tag that closes it. -/
  | closing (place : Place)
  /-- The node at a place with all that is below it. -/
  | whole (place : Place)
deriving Repr, DecidableEq

namespace Entry

/-- The place of the node that the line opens, closes or holds. -/
def place : Entry → Place
  | opening place => place
  | closing place => place
  | whole place => place

/-- The characters of the line behind its spaces. -/
def content : Entry → List Char
  | opening place => openingTag place.node.name.toList
  | closing place => closingTag place.node.name.toList
  | whole place => place.node.written

/-- The marks on the line. -/
def marks : Entry → List Mark
  | opening place => [⟨place, .opening place.node.name.toList⟩]
  | closing place => [⟨place, .closing place.node.name.toList⟩]
  | whole place => place.marks

/-- The same entry, seen from a node whose child `index` was the root before. -/
def below (index : Nat) : Entry → Entry
  | opening place => opening (place.below index)
  | closing place => closing (place.below index)
  | whole place => whole (place.below index)

/-- The line, moved in by `width` spaces for each level of its node: the root has the level
0, a child of it the level 1. -/
def written (width : Nat) (entry : Entry) : List Char :=
  List.replicate (width * entry.place.address.length) ' ' ++ entry.content

/-- The line of an entry in a layout of the tree that stands at the given level. -/
def line (level : Nat) (entry : Entry) : Line :=
  ⟨level + entry.place.address.length, entry.content⟩

variable (index : Nat) (entry : Entry)

@[simp] theorem place_below : (entry.below index).place = entry.place.below index := by
  cases entry <;> rfl

@[simp] theorem content_below : (entry.below index).content = entry.content := by
  cases entry <;> rfl

@[simp] theorem marks_below : (entry.below index).marks = entry.marks.map (Mark.below index) := by
  cases entry with
  | opening place => rfl
  | closing place => rfl
  | whole place => exact place.marks_below index

/-- A line of a child is a line of its parent one level further in. -/
theorem line_below (level : Nat) : (entry.below index).line level = entry.line (level + 1) := by
  simp only [line, place_below, content_below, Place.below, List.length_cons, Line.mk.injEq,
    and_true]
  omega

/-- What is written on a line is what is written in its marks. -/
theorem flatMap_written_marks : entry.marks.flatMap (·.token.written) = entry.content := by
  cases entry with
  | opening place => simp [marks, content, Token.written]
  | closing place => simp [marks, content, Token.written]
  | whole place =>
    rw [marks, content, Place.marks, List.flatMap_map, ← Node.flatMap_written_marks]
    rfl

/-- A line begins with a mark of its own node. -/
theorem exists_head?_marks : ∃ token, entry.marks.head? = some ⟨entry.place, token⟩ := by
  cases entry with
  | opening place => exact ⟨_, rfl⟩
  | closing place => exact ⟨_, rfl⟩
  | whole place =>
    obtain ⟨address, node⟩ := place
    cases node <;> simp [marks, Place.marks, Node.marks, Mark.under, Entry.place, Place.root]

/-- A line about an element begins and ends with a tag. -/
theorem isTag_of_isText {entry : Entry} (h : entry.place.node.isText = false) :
    (∃ mark, entry.marks.head? = some mark ∧ mark.IsTag) ∧
      ∃ mark, entry.marks.getLast? = some mark ∧ mark.IsTag := by
  cases entry with
  | opening place => simp [marks, Mark.IsTag]
  | closing place => simp [marks, Mark.IsTag]
  | whole place =>
    obtain ⟨address, node⟩ := place
    cases node with
    | text content => cases h
    | element name children =>
      simp [marks, Place.marks, Node.marks, Mark.IsTag, Mark.under, List.getLast?_cons]

end Entry

/-! ## The entries of a tree -/

namespace Node

/-- Whether a node is kept on one line: it has no children, or a text is among them. -/
def StaysWhole (node : Node) : Prop :=
  node.children = [] ∨ ∃ child ∈ node.children, child.isText = true

theorem breaksOver_eq_false_iff {name : String} {children : List Node} :
    breaksOver children = false ↔ (element name children).StaysWhole := by
  simp [breaksOver, StaysWhole, Decidable.or_iff_not_imp_left]

theorem breaksOver_eq_true_iff {name : String} {children : List Node} :
    breaksOver children = true ↔ ¬ (element name children).StaysWhole := by
  have h := not_congr (@breaksOver_eq_false_iff name children)
  rwa [Bool.not_eq_false] at h

mutual

/-- The entries of a tree, line by line. -/
def entries : Node → List Entry
  | element name children =>
    if breaksOver children then
      .opening (Place.root (element name children)) :: (entriesBelow 0 children ++
        [.closing (Place.root (element name children))])
    else
      [.whole (Place.root (element name children))]
  | text content => [.whole (Place.root (text content))]

/-- The entries of the given children, the first of which has the position `index`. -/
def entriesBelow (index : Nat) : List Node → List Entry
  | [] => []
  | child :: rest => (entries child).map (Entry.below index) ++ entriesBelow (index + 1) rest

end

theorem entriesBelow_eq_flatMap (index : Nat) (nodes : List Node) :
    entriesBelow index nodes =
      (nodes.zipIdx index).flatMap fun entry => entry.1.entries.map (Entry.below entry.2) := by
  induction nodes generalizing index with
  | nil => rfl
  | cons node nodes ih => rw [entriesBelow, List.zipIdx_cons, List.flatMap_cons, ih]

mutual

/-- **The lines of the layout are the entries.** -/
theorem lines_eq_map_line (level : Nat) (node : Node) :
    node.lines level = node.entries.map (Entry.line level) := by
  match node with
  | text content => rfl
  | element name children =>
    have h := linesOfAll_eq_map_line level 0 children
    rw [lines, entries]
    split
    · rw [h]
      simp [Entry.line, Entry.place, Entry.content, Place.root]
    · rfl

theorem linesOfAll_eq_map_line (level index : Nat) (nodes : List Node) :
    linesOfAll (level + 1) nodes = (entriesBelow index nodes).map (Entry.line level) := by
  match nodes with
  | [] => rfl
  | node :: rest =>
    rw [linesOfAll, entriesBelow, List.map_append, List.map_map,
      lines_eq_map_line (level + 1) node, linesOfAll_eq_map_line level (index + 1) rest]
    exact congrArg (· ++ _) (List.map_congr_left fun entry _ => (entry.line_below index level).symm)

end

mutual

/-- The entries go through the marks of the tree in their order. -/
theorem flatMap_marks_entries (node : Node) : node.entries.flatMap Entry.marks = node.marks := by
  match node with
  | text content => simp [entries, Entry.marks]
  | element name children =>
    have h := flatMap_marks_entriesBelow 0 children
    rw [entries]
    split
    · simp [h, marks, Entry.marks, Place.root]
    · simp [Entry.marks]

theorem flatMap_marks_entriesBelow (index : Nat) (nodes : List Node) :
    (entriesBelow index nodes).flatMap Entry.marks = marksBelow index nodes := by
  match nodes with
  | [] => rfl
  | node :: rest =>
    rw [entriesBelow, marksBelow, List.flatMap_append, List.flatMap_map,
      flatMap_marks_entriesBelow (index + 1) rest, ← flatMap_marks_entries node,
      List.map_flatMap]
    simp

end

section
variable {name : String} {children : List Node}

theorem entries_of_staysWhole {node : Node} (h : node.StaysWhole) :
    node.entries = [.whole (Place.root node)] := by
  cases node with
  | text content => rw [entries]
  | element name children => simp [entries, breaksOver_eq_false_iff.mpr h]

theorem whole_mem_entries {node : Node} (h : node.StaysWhole) :
    .whole (Place.root node) ∈ node.entries := by
  rw [entries_of_staysWhole h]
  exact List.mem_singleton_self _

theorem entries_of_not_staysWhole (h : ¬ (element name children).StaysWhole) :
    (element name children).entries =
      .opening (Place.root (element name children)) :: (entriesBelow 0 children ++
        [.closing (Place.root (element name children))]) := by
  simp [entries, breaksOver_eq_true_iff.mpr h]

theorem mem_entriesBelow_iff {entry : Entry} :
    entry ∈ entriesBelow 0 children ↔
      ∃ (index : Nat) (child : Node) (inner : Entry), children[index]? = some child ∧
        inner ∈ child.entries ∧ entry = inner.below index := by
  rw [entriesBelow_eq_flatMap]
  exact mem_flatMap_zipIdx_iff

theorem mem_places_element_iff {place : Place} :
    place ∈ (element name children).places ↔
      place = Place.root (element name children) ∨
        ∃ (index : Nat) (child : Node) (inner : Place), children[index]? = some child ∧
          inner ∈ child.places ∧ place = inner.below index := by
  rw [places, List.mem_cons, placesBelow_eq_flatMap, mem_flatMap_zipIdx_iff]

/-- The marks of a child stand together among those of its parent. -/
theorem map_below_infix_marks {index : Nat} {child : Node} (h : children[index]? = some child) :
    child.marks.map (Mark.below index) <:+: (element name children).marks := by
  have hchild : (child, index) ∈ children.zipIdx := List.mem_zipIdx_iff_getElem?.mpr h
  have hbelow : child.marks.map (Mark.below index) <:+: marksBelow 0 children := by
    rw [marksBelow_eq_flatMap, List.flatMap_def]
    exact List.infix_of_mem_flatten (List.mem_map.mpr ⟨_, hchild, rfl⟩)
  rw [marks]
  exact hbelow.trans ((List.prefix_append _ _).isInfix.trans (List.suffix_cons _ _).isInfix)

end

/-- A place is the root, or a place in a child. -/
@[elab_as_elim] theorem placeInduction {motive : Node → Place → Prop}
    (root : ∀ node, motive node (Place.root node))
    (below : ∀ name children index child place, children[index]? = some child →
      place ∈ child.places → motive child place →
        motive (element name children) (place.below index))
    {node : Node} {place : Place} (h : place ∈ node.places) : motive node place := by
  induction node using treeInduction generalizing place with
  | text content =>
    obtain rfl : place = Place.root (text content) := by simpa [places] using h
    exact root _
  | element name children ih =>
    rcases mem_places_element_iff.mp h with rfl | ⟨index, child, inner, hc, hi, rfl⟩
    · exact root _
    · exact below name children index child inner hc hi (ih child (List.mem_of_getElem? hc) hi)

/-- An entry is the whole tree, if that is kept on one line, or else one of the root's tags or
an entry of a child. -/
@[elab_as_elim] theorem entryInduction {motive : Node → Entry → Prop}
    (whole : ∀ node, node.StaysWhole → motive node (.whole (Place.root node)))
    (opening : ∀ name children, ¬ (element name children).StaysWhole →
      motive (element name children) (.opening (Place.root (element name children))))
    (closing : ∀ name children, ¬ (element name children).StaysWhole →
      motive (element name children) (.closing (Place.root (element name children))))
    (below : ∀ name children index child entry, ¬ (element name children).StaysWhole →
      children[index]? = some child → motive child entry →
        motive (element name children) (entry.below index))
    {node : Node} {entry : Entry} (h : entry ∈ node.entries) : motive node entry := by
  induction node using treeInduction generalizing entry with
  | text content =>
    obtain rfl : entry = .whole (Place.root (text content)) := by simpa [entries] using h
    exact whole _ (.inl rfl)
  | element name children ih =>
    by_cases hs : (element name children).StaysWhole
    · rw [entries_of_staysWhole hs, List.mem_singleton] at h
      exact h ▸ whole _ hs
    · rw [entries_of_not_staysWhole hs, List.mem_cons, List.mem_append, List.mem_singleton,
        mem_entriesBelow_iff] at h
      rcases h with rfl | ⟨index, child, inner, hc, hi, rfl⟩ | rfl
      · exact opening name children hs
      · exact below name children index child inner hs hc
          (ih child (List.mem_of_getElem? hc) hi)
      · exact closing name children hs

/-! ## Lines and places -/

theorem place_mem_places_of_mem_entries {tree : Node} {entry : Entry} (h : entry ∈ tree.entries) :
    entry.place ∈ tree.places := by
  have hroot : ∀ node : Node, Place.root node ∈ node.places := fun node =>
    List.mem_of_mem_head? (head?_places node)
  refine entryInduction ?whole ?opening ?closing ?below h
  case whole => exact fun node _ => hroot node
  case opening => exact fun name children _ => hroot _
  case closing => exact fun name children _ => hroot _
  case below =>
    intro name children index child entry _ hc ih
    rw [Entry.place_below]
    exact mem_places_element_iff.mpr (.inr ⟨index, child, entry.place, hc, ih, rfl⟩)

/-- Only nodes without children, and elements with a text among them, are kept on a line. -/
theorem staysWhole_of_whole_mem_entries {tree : Node} {entry : Entry} (h : entry ∈ tree.entries) :
    ∀ place, entry = .whole place → place.node.StaysWhole := by
  refine entryInduction ?whole ?opening ?closing ?below h
  case whole =>
    rintro node hs _ ⟨⟩
    exact hs
  case opening => rintro name children - _ ⟨⟩
  case closing => rintro name children - _ ⟨⟩
  case below =>
    intro name children index child entry _ _ ih place he
    cases entry with
    | opening inner => cases he
    | closing inner => cases he
    | whole inner =>
      obtain ⟨⟩ := he
      exact ih inner rfl

/-- The lines of an element are about elements: a text stands on the line of one above it. -/
theorem isText_of_mem_entries {tree : Node} {entry : Entry} (h : entry ∈ tree.entries) :
    tree.isText = false → entry.place.node.isText = false := by
  refine entryInduction ?whole ?opening ?closing ?below h
  case whole => exact fun node _ ht => ht
  case opening => exact fun name children _ _ => rfl
  case closing => exact fun name children _ _ => rfl
  case below =>
    intro name children index child entry hs hc ih _
    rw [Entry.place_below]
    refine ih ?_
    by_contra ht
    exact hs (.inr ⟨child, List.mem_of_getElem? hc, by simpa using ht⟩)

/-- The marks of a node and of all below it stand together in those of the tree. -/
theorem marks_infix_of_mem_places {tree : Node} {place : Place} (h : place ∈ tree.places) :
    place.marks <:+: tree.marks := by
  refine placeInduction ?root ?below h
  case root =>
    intro node
    rw [Place.marks_root]
  case below =>
    intro name children index child place hc _ ih
    rw [Place.marks_below]
    exact (ih.map _).trans (map_below_infix_marks hc)

/-- **A node that is kept on one line is on one line with all that is below it**: its own line
or that of a node above it. -/
theorem exists_entry_of_staysWhole {tree : Node} {place : Place} (h : place ∈ tree.places) :
    place.node.StaysWhole → ∃ entry ∈ tree.entries, place.marks <:+: entry.marks := by
  refine placeInduction ?root ?below h
  case root =>
    intro node hs
    exact ⟨_, whole_mem_entries hs, List.infix_refl _⟩
  case below =>
    intro name children index child place hc hp ih hs
    by_cases hw : (element name children).StaysWhole
    · -- the element above is itself on one line
      refine ⟨_, whole_mem_entries hw, ?_⟩
      rw [Entry.marks, Place.marks_root]
      exact marks_infix_of_mem_places
        (mem_places_element_iff.mpr (.inr ⟨index, child, place, hc, hp, rfl⟩))
    · obtain ⟨entry, he, hi⟩ := ih hs
      refine ⟨entry.below index, ?_, ?_⟩
      · rw [entries_of_not_staysWhole hw, List.mem_cons, List.mem_append, mem_entriesBelow_iff]
        exact .inr (.inl ⟨index, child, entry, hc, he, rfl⟩)
      · rw [Place.marks_below, Entry.marks_below]
        exact hi.map _

end Node

/-! ## Breaks between tags -/

/-- The entries of a tree that is written over several lines. -/
structure BreaksInto (tree : Node) (entries : List Entry) : Prop where
  /-- Every line is about a node of the tree. -/
  places : ∀ entry ∈ entries, entry.place ∈ tree.places
  /-- The lines go through the tags and texts of the tree in their order. -/
  marks : entries.flatMap Entry.marks = tree.marks
  /-- The lines without their spaces, one after the other, are the written form. -/
  contents : entries.flatMap Entry.content = tree.render.toList
  /-- The first line is about the root, so it is not moved in. -/
  first : ∀ entry ∈ entries.head?, entry.place = Place.root tree
  /-- The last line is about the root, too. -/
  final : ∀ entry ∈ entries.getLast?, entry.place = Place.root tree
  /-- What is kept on one line has no children, or a text among them. -/
  whole : ∀ place, .whole place ∈ entries → place.node.StaysWhole
  /-- A node that has no children, or a text among them, lies on one line with all that is
  below it. -/
  kept : ∀ place ∈ tree.places, place.node.StaysWhole →
    ∃ entry ∈ entries, place.marks <:+: entry.marks
  /-- Where two lines meet, the first one ends with a tag and the second one begins with one. -/
  between : entries.IsChain fun left right =>
    (∃ mark, left.marks.getLast? = some mark ∧ mark.IsTag) ∧
      ∃ mark, right.marks.head? = some mark ∧ mark.IsTag
  /-- A text by itself is one line. -/
  text : tree.isText = true → entries = [.whole (Place.root tree)]

/-- A text is one line, and the lines of an element begin and end with tags. -/
theorem Node.entries_isChain (tree : Node) :
    tree.entries.IsChain fun left right =>
      (∃ mark, left.marks.getLast? = some mark ∧ mark.IsTag) ∧
        ∃ mark, right.marks.head? = some mark ∧ mark.IsTag := by
  cases ht : tree.isText with
  | true =>
    obtain ⟨content, rfl⟩ := isText_iff.mp ht
    rw [entries]
    exact List.isChain_singleton _
  | false =>
    refine (List.pairwise_of_forall_mem_list fun left hl right hr => ⟨?_, ?_⟩).isChain
    · exact (Entry.isTag_of_isText (isText_of_mem_entries hl ht)).2
    · exact (Entry.isTag_of_isText (isText_of_mem_entries hr ht)).1

/-- **The lines of a tree break it between tags.** -/
theorem Node.entries_breaksInto (tree : Node) : BreaksInto tree tree.entries where
  places := fun _ => place_mem_places_of_mem_entries
  marks := tree.flatMap_marks_entries
  contents := by
    rw [render, String.toList_ofList, ← tree.flatMap_written_marks, ← tree.flatMap_marks_entries,
      List.flatMap_assoc]
    exact List.flatMap_congr fun entry _ => entry.flatMap_written_marks.symm
  first := by
    cases tree with
    | text content => simp [entries, Entry.place]
    | element name children =>
      rw [entries]
      split <;> simp [Entry.place]
  final := by
    cases tree with
    | text content => simp [entries, Entry.place]
    | element name children =>
      rw [entries]
      split <;> simp [Entry.place, List.getLast?_cons]
  whole := fun place h => staysWhole_of_whole_mem_entries h place rfl
  kept := fun _ => exists_entry_of_staysWhole
  between := tree.entries_isChain
  text := by
    intro ht
    obtain ⟨content, rfl⟩ := isText_iff.mp ht
    rw [entries]

/-! ## There is only one way to break a tree -/

/-- Two rows of blocks with the same members are one row, if blocks that begin alike are the
same. -/
theorem eq_of_flatMap_eq {α β : Type} {block : α → List β} {left right : List α}
    (hne : ∀ x, block x ≠ [])
    (heads : ∀ x ∈ left, ∀ y ∈ right, (block x).head? = (block y).head? → x = y)
    (h : left.flatMap block = right.flatMap block) : left = right := by
  induction left generalizing right with
  | nil =>
    cases right with
    | nil => rfl
    | cons y right =>
      rw [List.flatMap_cons, List.flatMap_nil] at h
      exact absurd (List.append_eq_nil_iff.mp h.symm).1 (hne y)
  | cons x left ih =>
    cases right with
    | nil =>
      rw [List.flatMap_cons, List.flatMap_nil] at h
      exact absurd (List.append_eq_nil_iff.mp h).1 (hne x)
    | cons y right =>
      rw [List.flatMap_cons, List.flatMap_cons] at h
      have hhead := congrArg List.head? h
      rw [List.head?_append_of_ne_nil _ (hne x), List.head?_append_of_ne_nil _ (hne y)] at hhead
      obtain rfl := heads x List.mem_cons_self y List.mem_cons_self hhead
      refine congrArg (x :: ·) (ih (fun z hz w hw => heads z ?_ w ?_)
        ((List.append_cancel_left_eq _ _ _).mp h))
      · exact List.mem_cons_of_mem _ hz
      · exact List.mem_cons_of_mem _ hw

namespace BreaksInto
variable {tree : Node} {entries lefts rights : List Entry}

/-- No mark stands on two lines. -/
theorem eq_of_mem_marks (h : BreaksInto tree entries) {left right : Entry} {mark : Mark}
    (hl : left ∈ entries) (hr : right ∈ entries) (ml : mark ∈ left.marks)
    (mr : mark ∈ right.marks) : left = right := by
  have hnodup := tree.nodup_marks
  rw [← h.marks, List.nodup_flatMap] at hnodup
  have hsymm : Std.Symm (Function.onFun List.Disjoint Entry.marks) := ⟨fun _ _ hd => hd.symm⟩
  by_contra hne
  exact hnodup.2.forall hl hr hne ml mr

/-- A node that is kept on one line is not opened on a line of its own: the closing tag would
have to stand there, too. -/
theorem opening_not_mem (h : BreaksInto tree entries) {place : Place} (hs : place.node.StaysWhole)
    (hhead : place.marks.head? = (Entry.opening place).marks.head?) : .opening place ∉ entries := by
  intro hm
  obtain ⟨entry, he, hi⟩ := h.kept place (h.places _ hm) hs
  have hopening : ⟨place, .opening place.node.name.toList⟩ ∈ place.marks :=
    List.mem_of_mem_head? hhead
  obtain rfl := h.eq_of_mem_marks hm he List.mem_cons_self (hi.subset hopening)
  have hclosing := hi.subset ((Place.of_head?_marks hhead).2 nofun)
  simp [Entry.marks] at hclosing

/-- Lines that begin alike are the same, also in two ways to break a tree. -/
theorem eq_of_head?_eq (hl : BreaksInto tree lefts) (hr : BreaksInto tree rights)
    {left right : Entry} (ml : left ∈ lefts) (mr : right ∈ rights)
    (h : left.marks.head? = right.marks.head?) : left = right := by
  obtain ⟨token, ht⟩ := left.exists_head?_marks
  obtain ⟨token', ht'⟩ := right.exists_head?_marks
  have hmark : (⟨left.place, token⟩ : Mark) = ⟨right.place, token'⟩ :=
    Option.some.inj (ht.symm.trans (h.trans ht'))
  obtain ⟨hp, -⟩ := Mark.mk.inj hmark
  cases left with
  | opening place =>
    cases right with
    | opening place' => exact congrArg Entry.opening hp
    | closing place' => simp [Entry.marks] at h
    | whole place' =>
      obtain rfl : place = place' := hp
      exact absurd ml (hl.opening_not_mem (hr.whole place mr) h.symm)
  | closing place =>
    cases right with
    | opening place' => simp [Entry.marks] at h
    | closing place' => exact congrArg Entry.closing hp
    | whole place' => exact absurd rfl ((Place.of_head?_marks h.symm).1 _)
  | whole place =>
    cases right with
    | opening place' =>
      obtain rfl : place = place' := hp
      exact absurd mr (hr.opening_not_mem (hl.whole place ml) h)
    | closing place' => exact absurd rfl ((Place.of_head?_marks h).1 _)
    | whole place' => exact congrArg Entry.whole hp

/-- **There is only one way to break a tree.** -/
theorem unique (hl : BreaksInto tree lefts) (hr : BreaksInto tree rights) : lefts = rights := by
  have hne : ∀ entry : Entry, entry.marks ≠ [] := by
    intro entry hn
    obtain ⟨token, ht⟩ := entry.exists_head?_marks
    rw [hn] at ht
    cases ht
  exact eq_of_flatMap_eq hne (fun left ml right mr => hl.eq_of_head?_eq hr ml mr)
    (hl.marks.trans hr.marks.symm)

end BreaksInto

/-- The lines of a layout are its entries, written out and joined. -/
theorem Node.laidOut_eq_intercalate_written (width : Nat) (tree : Node) :
    tree.laidOut width = List.intercalate ['\n'] (tree.entries.map (Entry.written width)) := by
  have hline : ∀ entry : Entry, (entry.line 0).indented width = entry.written width := by
    intro entry
    simp [Line.indented, Entry.line, Entry.written, Nat.mul_comm]
  rw [laidOut, lines_eq_map_line, List.map_map]
  exact congrArg _ (List.map_congr_left fun entry _ => hline entry)

/-- The first child is kept on one line for the text behind its own child. -/
example :
    (Node.element "r" [.element "a" [.element "b" [.element "d" []], .text "x"],
        .element "c" [.element "d" []]]).renderIndented 2 =
      "<r>\n  <a><b><d></d></b>x</a>\n  <c>\n    <d></d>\n  </c>\n</r>" := by
  decide

/-- The widest levels leave no room for a child on a line of its own; a tree of one line has
no such levels. -/
example :
    (Node.element "r" [.element "a" []]).renderIndented? (2 ^ 64 - 1) = none ∧
      (Node.element "r" [.text "x"]).renderIndented? (2 ^ 64 - 1) = some "<r>x</r>" := by
  decide

end TagPath
