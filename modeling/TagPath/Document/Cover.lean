import TagPath.Document.Node

/-! # Covering

The comparison of trees that the evaluation of paths uses.  A text covers a text of
the same characters.  An element covers an element of the same name with as many
children if each child of the second is covered by some child of the first.  The
order of children does not matter, and one child may stand for several: therefore
`<a><b></b><c></c></a>` covers `<a><b></b><b></b></a>`, and is not covered by it.
-/
namespace TagPath.Node

mutual

/-- `covers left right`: the left tree has at each level what the right one asks. -/
def covers (left : Node) : Node → Bool
  | text content => left.content? == some content
  | element name children => match left with
    | text _ => false
    | element name' children' =>
      name' == name && children'.length == children.length && coversAll children' children

/-- Each node of the second list is covered by some node of the first. -/
def coversAll (lefts : List Node) : List Node → Bool
  | [] => true
  | right :: rest => lefts.any (fun left => covers left right) && coversAll lefts rest

end

/-- A text is covered by the same text only. -/
theorem covers_text_iff {left : Node} {content : String} :
    left.covers (text content) = true ↔ left = text content := by
  cases left <;> simp [covers, content?]

theorem coversAll_iff {lefts rights : List Node} :
    coversAll lefts rights = true ↔ ∀ right ∈ rights, ∃ left ∈ lefts, left.covers right = true := by
  induction rights with
  | nil => simp [coversAll]
  | cons right rest ih => simp [coversAll, ih]

/-- An element is covered by the elements of its name with as many children, among
which there is a cover for each child. -/
theorem covers_element_iff {left : Node} {name : String} {children : List Node} :
    left.covers (element name children) = true ↔
      ∃ children', left = element name children' ∧ children'.length = children.length ∧
        ∀ child ∈ children, ∃ child' ∈ children', child'.covers child = true := by
  cases left with
  | text content => simp [covers]
  | element name' children' =>
    simp only [covers, Bool.and_eq_true, beq_iff_eq, coversAll_iff, element.injEq]
    constructor
    · rintro ⟨⟨rfl, hl⟩, hc⟩
      exact ⟨children', ⟨rfl, rfl⟩, hl, hc⟩
    · rintro ⟨_, ⟨rfl, rfl⟩, hl, hc⟩
      exact ⟨⟨rfl, hl⟩, hc⟩

/-- Every tree covers itself. -/
theorem covers_refl : ∀ node : Node, node.covers node = true
  | text _ => covers_text_iff.2 rfl
  | element _ children =>
      covers_element_iff.2 ⟨children, rfl, rfl, fun child h => ⟨child, h, covers_refl child⟩⟩

/-- Covering is one-sided. -/
example :
    let mixed := element "a" [element "b" [], element "c" []]
    let twice := element "a" [element "b" [], element "b" []]
    mixed.covers twice = true ∧ twice.covers mixed = false := by
  decide

end TagPath.Node
