import TagPath.Document.Layout
import TagPath.Proofs.Spelling

/-! # Indented documents

A tree over several lines is its written form with a line break and some spaces before
every line but the first.  A line begins with a tag, unless the whole tree is a text;
so the break and the spaces stand behind a tag, where a reader passes over them, and a
tree over several lines is spelled like any other layout of it (`spells_laidOut`).  An
element with a text among its children has no breaks inside, also not in the elements
below it that would have some by themselves.
-/
namespace TagPath
open Text

/-- A line that follows another one: the line break, the spaces and the content. -/
def Line.following (width : Nat) (line : Line) : List Char := '\n' :: line.indented width

/-- What stands before the content of a line that follows another one. -/
def margin (width level : Nat) : List Char := '\n' :: List.replicate (level * width) ' '

theorem blanks_margin (width level : Nat) : Blanks (margin width level) := by
  intro c hc
  rcases List.mem_cons.mp hc with rfl | hc
  · decide
  · rw [List.eq_of_mem_replicate hc]
    decide

theorem Line.following_eq (width : Nat) (line : Line) :
    line.following width = margin width line.level ++ line.content := rfl

/-- With a break before the first line, too, every line follows another one. -/
theorem cons_intercalate_indented (width : Nat) {lines : List Line} (h : lines ≠ []) :
    '\n' :: List.intercalate ['\n'] (lines.map (Line.indented width)) =
      lines.flatMap (Line.following width) := by
  induction lines with
  | nil => exact absurd rfl h
  | cons line rest ih =>
    cases rest with
    | nil => simp [Line.following]
    | cons next rest =>
      rw [List.flatMap_cons, ← ih (List.cons_ne_nil _ _)]
      simp [Line.following]

namespace Node

theorem lines_ne_nil (level : Nat) (node : Node) : node.lines level ≠ [] := by
  cases node with
  | text content => simp [lines]
  | element name children =>
    rw [lines]
    split <;> simp

/-- An element is broken over several lines only if no text is among its children. -/
theorem isText_of_breaksOver {children : List Node} (h : breaksOver children = true) :
    ∀ child ∈ children, child.isText = false := by
  simp only [breaksOver, Bool.and_eq_true, Bool.not_eq_true', List.any_eq_false] at h
  intro child hm
  simpa using h.2 child hm

/-- **The lines of some elements are their tokens with blanks in between.**  The margin
of the first line stands before all tokens, every other margin behind a tag. -/
theorem exists_spaced_linesOfAll (width level : Nat) {nodes : List Node}
    (hn : ∀ node ∈ nodes, node.isText = false) :
    ∃ gap part, Blanks gap ∧ Spaced (tokensAll nodes) part ∧
      (linesOfAll level nodes).flatMap (Line.following width) = gap ++ part := by
  induction nodes using forestInduction generalizing level with
  | nil => exact ⟨[], [], blanks_nil, .nil, rfl⟩
  | text content rest ih => simpa using hn _ List.mem_cons_self
  | element name children rest ihc ihr =>
    obtain ⟨gap, behind, hg, hb, he⟩ := ihr level fun node hm => hn node (List.mem_cons_of_mem _ hm)
    rw [linesOfAll, List.flatMap_append, he, lines]
    by_cases hbreaks : breaksOver children = true
    · -- the children's first margin follows the opening tag
      obtain ⟨start, inner, hs, hi, hec⟩ := ihc (level + 1) (isText_of_breaksOver hbreaks)
      refine ⟨margin width level, _, blanks_margin width level,
        spaced_element_cons_iff.mpr ⟨start, inner, margin width level, gap, behind, hs,
          blanks_margin width level, hg, hi, hb, rfl⟩, ?_⟩
      simp [hbreaks, hec, Line.following_eq]
    · have hi : Spaced (tokensAll children) (writtenAll children) := by
        rw [← flatMap_written_tokensAll]
        exact spaced_flatMap_written _
      refine ⟨margin width level, _, blanks_margin width level,
        spaced_element_cons_iff.mpr ⟨[], writtenAll children, [], gap, behind, blanks_nil,
          blanks_nil, hg, hi, hb, rfl⟩, ?_⟩
      simp [hbreaks, Line.following_eq]

end Node

/-- **A tree over several lines spells the tree.** -/
theorem spells_laidOut (width : Nat) (tree : Node) : Spells (tree.laidOut width) tree := by
  cases tree with
  | text content =>
    have he : (Node.text content).laidOut width = (Node.text content).written := by
      simp [Node.laidOut, Node.lines, Line.indented]
    rw [he]
    exact spells_written _
  | element name children =>
    obtain ⟨gap, part, hg, hp, he⟩ :=
      @Node.exists_spaced_linesOfAll width 0 [.element name children] (by simp)
    have hlines : '\n' :: (Node.element name children).laidOut width = gap ++ part := by
      rw [← he, Node.laidOut, cons_intercalate_indented width (Node.lines_ne_nil _ _)]
      simp [Node.linesOfAll]
    cases gap with
    | nil =>
      -- the tokens begin with a tag, not with a line break
      have hfirst := (orderly_element_cons_iff.mpr orderly_nil).first_of_spaced hp
      rw [List.nil_append] at hlines
      exact absurd (hfirst '\n' (by rw [← hlines]; rfl)) (by decide)
    | cons c gap =>
      obtain ⟨-, hlaid⟩ := List.cons.inj hlines
      have hgap : Blanks gap := fun c hc => hg c (List.mem_cons_of_mem _ hc)
      refine ⟨gap, part, [], hgap, blanks_nil, by simpa using hp, ?_⟩
      rw [List.append_nil]
      exact hlaid

/-- **What was read can be laid out and read again.**  For the tree of a document and for
every element in it, the lines are a document of just that tree, with any number of
spaces for a level, under any limits that admit them. -/
theorem read_renderIndented_of_read {limits limits' : Limits} {document : String} {tree : Node}
    (h : Node.read limits (some document) = .ok tree) :
    ∀ node ∈ tree.subtrees, node = tree ∨ node.isText = false → ∀ width,
      node.nesting ≤ limits'.maxDepth →
      (node.renderIndented width).utf8ByteSize ≤ limits'.maxSize →
        Node.read limits' (some (node.renderIndented width)) = .ok node := by
  obtain ⟨hc, -, -, -⟩ := read_eq_ok_iff_spells.mp h
  intro node hn hor width hd hsize
  have hcanonical : node.Canonical := by
    rcases hor with rfl | ht
    · exact hc
    · exact hc.of_mem_subtrees hn ht
  refine read_eq_ok_iff_spells.mpr ⟨hcanonical, ?_, hd, hsize⟩
  rw [Node.renderIndented, String.toList_ofList]
  exact spells_laidOut width node

/-- The element below is broken at its tags, and its first child is not. -/
theorem read_renderIndented_of_read_mixed :
    Node.read {} (some "<r><a>x <b><d></d></b></a><c>\t<d></d></c></r>") =
        .ok (.element "r" [.element "a" [.text "x ", .element "b" [.element "d" []]],
          .element "c" [.element "d" []]]) ∧
      Node.read ⟨4, 80⟩
          (some "<r>\n <a>x <b><d></d></b></a>\n <c>\n  <d></d>\n </c>\n</r>") =
        .ok (.element "r" [.element "a" [.text "x ", .element "b" [.element "d" []]],
          .element "c" [.element "d" []]]) := by
  have h : Node.read {} (some "<r><a>x <b><d></d></b></a><c>\t<d></d></c></r>") =
      .ok (.element "r" [.element "a" [.text "x ", .element "b" [.element "d" []]],
        .element "c" [.element "d" []]]) := by cbv
  exact ⟨h, @read_renderIndented_of_read {} ⟨4, 80⟩ _ _ h _ (Node.mem_subtrees_self _) (.inl rfl) 1
    (by decide) (by decide)⟩

end TagPath
