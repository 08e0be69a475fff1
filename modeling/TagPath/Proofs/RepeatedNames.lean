import TagPath.Proofs.Spelling
import TagPath.Proofs.TokenRow

/-! # Elements inside elements of the same name

An element ends at the first closing tag of its name.  If another element of that name
stands inside it, that is the wrong closing tag, and what is read from there on is not
what was written.  This module shows that for names without marks the reader notices:
it gives the tree that was written or misses a closing tag, but it never gives another
tree.

The argument follows the reader through a tight row of tokens, whatever cuts were made
before (`settles_of_tight`).  At a closing tag it misses one, as no tag
closes a name that begins with `/`.  At an opening tag it misses one, or cuts the row at
a closing tag, and both sides are shorter tight rows.  If it comes to an end, the nodes
it gives have the tokens of the row.  So what it gives for the written form of a
forest is the forest, and then no name in it is repeated
(`unrepeated_of_readContent`).
-/
namespace TagPath
open Text

namespace Node

/-- No element of this name stands below. -/
def Unrepeated (name : String) (children : List Node) : Prop :=
  ∀ node ∈ children.flatMap subtrees, node.isText = false → node.name ≠ name

instance (name : String) (children : List Node) : Decidable (Unrepeated name children) :=
  inferInstanceAs
    (Decidable (∀ node ∈ children.flatMap subtrees, node.isText = false → node.name ≠ name))

/-- A simple element ends at the first place of its closing tag exactly if its name is
not repeated in it. -/
theorem Simple.closable_iff {name : String} {children : List Node} (h : Simple name children)
    (hs : ∀ child ∈ children, child.EachElement Simple) :
    Closable name children ↔ Unrepeated name children := by
  have htight := tight_tokensAll h.2 hs
  rw [Closable, ← flatMap_written_tokensAll, closingTag_infix_flatMap_iff h.1.2.1 htight.simple,
    closing_mem_tokensAll_iff]
  constructor
  · rintro ⟨-, hc⟩ node hm ht he
    exact hc ⟨node, hm, ht, by rw [he]⟩
  · intro hu
    refine ⟨h.tidy, ?_⟩
    rintro ⟨node, hm, ht, he⟩
    exact hu node hm ht (String.toList_inj.mp he)

/-- A simple tree can stand inside an element exactly if no name in it is repeated. -/
theorem nestable_iff_of_simple {tree : Node} (h : tree.EachElement Simple) :
    tree.Nestable ↔ tree.EachElement Unrepeated := by
  refine forall_congr' fun name => forall_congr' fun children => forall_congr' fun hm => ?_
  obtain ⟨hs, hc⟩ := eachElement_element_iff.mp (h.of_mem_subtrees hm)
  exact hs.closable_iff hc

end Node

/-! ## Through a row of tokens -/

section Row
variable {limits : Limits} {depth : Nat}

/-- A closing tag in front opens an element that is never closed. -/
theorem takePiece_closing {name : List Char} {rest : List Token}
    (h : Tight (.closing name :: rest)) :
    takePiece (closingTag name ++ rest.flatMap Token.written) =
      .error (.missingClosingTag (String.ofList ('/' :: name))) := by
  obtain ⟨hname, -, ht⟩ := h
  have hgt : '>' ∉ '/' :: name := by simp [hname.2.1]
  have hnot : ¬ closingTag ('/' :: name) <:+: rest.flatMap Token.written := by
    rw [closingTag_infix_flatMap_iff hgt ht.simple]
    intro hm
    have hmarks : Unmarked ('/' :: name) := ht.simple _ hm
    exact hmarks.2.2 List.mem_cons_self
  show takePiece (openingTag ('/' :: name) ++ rest.flatMap Token.written) = _
  exact takePiece_openingTag_of_not_infix hgt hnot

/-- An opening tag without a closing tag behind it is at fault. -/
theorem takePiece_opening_of_not_mem {name : List Char} {rest : List Token}
    (h : Tight (.opening name :: rest)) (hm : .closing name ∉ rest) :
    takePiece (openingTag name ++ rest.flatMap Token.written) =
      .error (.missingClosingTag (String.ofList name)) := by
  obtain ⟨hname, -, ht⟩ := h
  have hnot : ¬ closingTag name <:+: rest.flatMap Token.written := by
    rwa [closingTag_infix_flatMap_iff hname.2.1 ht.simple]
  exact takePiece_openingTag_of_not_infix hname.2.1 hnot

/-- Else the row is cut at the first closing tag of the name. -/
theorem takePiece_opening {name : List Char} {body behind : List Token}
    (h : Tight (.opening name :: (body ++ .closing name :: behind)))
    (hm : .closing name ∉ body) :
    takePiece (openingTag name ++ (body ++ .closing name :: behind).flatMap Token.written) =
      .ok (.element name (body.flatMap Token.written), behind.flatMap Token.written) := by
  obtain ⟨hname, -, ht⟩ := h
  refine takePiece_eq_element_iff.mpr ⟨?_, hname.2.1, ?_⟩
  · simp [Token.written]
  · rwa [closingTag_infix_flatMap_iff hname.2.1 ht.split.1.simple]

/-- Reading comes to an end with nodes that have the tokens of the row, or misses a
closing tag. -/
def Settles (limits : Limits) (depth : Nat) (tokens : List Token) : Prop :=
  (∃ nodes, Node.tokensAll nodes = tokens ∧
    readContent limits depth (tokens.flatMap Token.written) = .ok nodes) ∨
  ∃ name inner, readContent limits depth (tokens.flatMap Token.written) =
    .error ⟨.missingClosingTag name, inner⟩

theorem settles_nil : Settles limits depth [] := .inl ⟨[], rfl, readContent_nil _ _⟩

/-- A row whose first tag is never closed. -/
theorem settles_of_takePiece {tokens : List Token} {name : String}
    (hc : tokens.flatMap Token.written ≠ [])
    (h : takePiece (tokens.flatMap Token.written) = .error (.missingClosingTag name)) :
    Settles limits depth tokens := .inr ⟨name, depth, readContent_of_error hc h⟩

/-- A text in front becomes the first node. -/
theorem settles_text {run : List Char} {rest : List Token} (ht : Tight (.text run :: rest))
    (hr : Settles limits depth rest) : Settles limits depth (.text run :: rest) := by
  have hbehind := ht.head?_behind
  have hrun : IsRun run := ht.1
  have hc : run ++ rest.flatMap Token.written ≠ [] := by simp [hrun.ne_nil]
  have hpiece := (takePiece_eq_text_iff hc).mpr ⟨rfl, hrun.ne_nil, hrun.not_mem, hbehind⟩
  have hread : readContent limits depth ((Token.text run :: rest).flatMap Token.written) = _ :=
    readContent_of_text hc hpiece
  rw [trimStart_of_head? hbehind] at hread
  rcases hr with ⟨nodes, he, hok⟩ | ⟨name, inner, herror⟩
  · refine .inl ⟨.text (String.ofList run) :: nodes, ?_, ?_⟩
    · rw [Node.tokensAll_cons, Node.tokens_text, String.toList_ofList, he]
      rfl
    · rw [hread, hok]
  · refine .inr ⟨name, inner, ?_⟩
    rw [hread, herror]

/-- A row that is cut settles if both sides of the cut do.  The side behind is reached
only if the side before was read. -/
theorem settles_element {name : List Char} {body behind : List Token}
    (ht : Tight (.opening name :: (body ++ .closing name :: behind)))
    (hm : .closing name ∉ body) (hd : depth + 1 ≤ limits.maxDepth)
    (hb : Settles limits (depth + 1) body)
    (hr : ∀ nodes, Node.tokensAll nodes = body → Settles limits depth behind) :
    Settles limits depth (.opening name :: (body ++ .closing name :: behind)) := by
  obtain ⟨hbody, hbehind⟩ := ht.2.2.split
  have hread : readContent limits depth
      ((Token.opening name :: (body ++ .closing name :: behind)).flatMap Token.written) = _ :=
    readContent_of_element (List.cons_ne_nil _ _) (takePiece_opening ht hm)
  -- nothing is trimmed off, neither inside the cut nor behind it
  rw [readElement_of_le hd, hbody.trimmed.trim_eq, trimStart_eq_self hbehind.first] at hread
  rcases hb with ⟨children, hchildren, hok⟩ | ⟨missing, inner, herror⟩
  · rcases hr children hchildren with ⟨nodes, hnodes, hok'⟩ | ⟨missing, inner, herror⟩
    · refine .inl ⟨.element (String.ofList name) children :: nodes, ?_, ?_⟩
      · rw [← List.append_nil (Node.tokensAll _), Node.tokensAll_element_cons_append,
          List.append_nil, hchildren, hnodes, String.toList_ofList]
      · simp only [hread, hok, hok', Except.map]
    · refine .inr ⟨missing, inner, ?_⟩
      simp only [hread, hok, herror, Except.map]
  · refine .inr ⟨missing, inner, ?_⟩
    simp only [hread, herror, Except.map]

/-- **Through a tight row that fits, a reader comes to an end with nodes that have the
tokens of the row, or it misses a closing tag.** -/
theorem settles_of_tight {tokens : List Token} (ht : Tight tokens)
    (hf : Fits limits.maxDepth depth tokens) (hd : depth ≤ limits.maxDepth) :
    Settles limits depth tokens := by
  -- both sides of a cut are shorter than the row, wherever the cut is made
  induction hn : tokens.length using Nat.strongRecOn generalizing depth tokens with
  | ind n ih =>
    rcases tokens with _ | ⟨token, rest⟩
    · exact settles_nil
    rw [List.length_cons] at hn
    cases token with
    | text run => exact settles_text ht (ih rest.length (by omega) ht.2.2 hf hd rfl)
    | closing name =>
      exact settles_of_takePiece (List.cons_ne_nil _ _) (takePiece_closing ht)
    | opening name =>
      by_cases hm : .closing name ∈ rest
      · obtain ⟨body, behind, rfl, hbody⟩ := List.eq_append_cons_of_mem hm
        rw [List.length_append, List.length_cons] at hn
        obtain ⟨hd', hf⟩ := hf
        obtain ⟨htb, htr⟩ := ht.2.2.split
        refine settles_element ht hbody hd' (ih body.length (by omega) htb hf.left hd' rfl) ?_
        -- only behind a body that was read as a forest is the depth the same as before
        rintro nodes rfl
        have hclose := ((Node.fits_tokensAll_append_iff hd').mp hf).2
        exact ih behind.length (by omega) htr hclose hd rfl
      · exact settles_of_takePiece (List.cons_ne_nil _ _) (takePiece_opening_of_not_mem ht hm)

end Row

/-! ## Written forms -/

section Written
variable {limits : Limits} {depth : Nat} {nodes : List Node}

/-- What is read from the written form of a simple forest is the forest, or a closing
tag is missed. -/
theorem readContent_writtenAll (ho : Orderly nodes)
    (hs : ∀ node ∈ nodes, node.EachElement Node.Simple)
    (hd : depth + Node.nestingAll nodes ≤ limits.maxDepth) :
    readContent limits depth (Node.writtenAll nodes) = .ok nodes ∨
      ∃ name inner, readContent limits depth (Node.writtenAll nodes) =
        .error ⟨.missingClosingTag name, inner⟩ := by
  have hdepth : depth ≤ limits.maxDepth := by omega
  have hf : Fits limits.maxDepth depth (Node.tokensAll nodes) := by
    have h : Fits limits.maxDepth depth (Node.tokensAll nodes ++ []) :=
      (Node.fits_tokensAll_append_iff hdepth).mpr ⟨hd, trivial⟩
    rwa [List.append_nil] at h
  have hsettles := settles_of_tight (Node.tight_tokensAll ho hs) hf hdepth
  rw [Settles, Node.flatMap_written_tokensAll] at hsettles
  rcases hsettles with ⟨nodes', he, hok⟩ | herror
  · rw [Node.tokensAll_inj he] at hok
    exact .inl hok
  · exact .inr herror

/-- If it is the forest, then no name in it is repeated. -/
theorem unrepeated_of_readContent (ho : Orderly nodes)
    (hs : ∀ node ∈ nodes, node.EachElement Node.Simple) (hd : depth ≤ limits.maxDepth)
    (h : readContent limits depth (Node.writtenAll nodes) = .ok nodes) :
    ∀ node ∈ nodes, node.EachElement Node.Unrepeated := by
  have ht : Trimmed (Node.writtenAll nodes) := by
    rw [← Node.flatMap_written_tokensAll]
    exact (Node.tight_tokensAll ho hs).trimmed
  have hcontents := (readContent_eq_ok_iff hd ht).mp h
  intro node hm
  exact (Node.nestable_iff_of_simple (hs node hm)).mp (hcontents.nestable node hm)

end Written

/-- A simple tree is canonical if no name is repeated below its root. -/
theorem canonical_of_unrepeated {name : String} {children : List Node}
    (hs : (Node.element name children).EachElement Node.Simple)
    (hu : ∀ child ∈ children, child.EachElement Node.Unrepeated) :
    (Node.element name children).Canonical := by
  obtain ⟨hroot, hchildren⟩ := Node.eachElement_element_iff.mp hs
  refine ⟨hroot.tidy, ?_⟩
  intro child hm
  exact (Node.nestable_iff_of_simple (hchildren child hm)).mpr (hu child hm)

/-- The root of a simple tree is read between its own two tags. -/
theorem read_render_of_each_simple {limits : Limits} {name : String} {children : List Node}
    (hs : (Node.element name children).EachElement Node.Simple)
    (hsize : (Node.element name children).render.utf8ByteSize ≤ limits.maxSize) :
    Node.read limits (some (Node.element name children).render) =
      (readElement limits 0 name.toList (Node.writtenAll children)).mapError Halt.cause := by
  obtain ⟨hroot, -⟩ := Node.eachElement_element_iff.mp hs
  have ht : Tight (Node.tokensAll [.element name children]) :=
    Node.tight_tokensAll (orderly_element_cons_iff.mpr orderly_nil) (by simpa using hs)
  have htrim := ht.trimmed.trim_eq
  rw [Node.flatMap_written_tokensAll, Node.writtenAll_cons, Node.writtenAll_nil,
    List.append_nil, Node.written_element] at htrim
  rw [read_of_size_le hsize, Node.render, String.toList_ofList, Node.written_element, htrim,
    readWhole_of_tags hroot.1.2.1]

/-- **An element inside an element of its name is never misread.**  For names without
marks, the written form of a tree is read as that tree if no name is repeated below the
root, and otherwise a closing tag is missed.  The name of the root may stand anywhere
below it. -/
theorem read_render_of_simple {limits : Limits} {tree : Node} (ht : tree.isText = false)
    (hs : tree.EachElement Node.Simple) (hd : tree.nesting ≤ limits.maxDepth)
    (hsize : tree.render.utf8ByteSize ≤ limits.maxSize) :
    ((∀ child ∈ tree.children, child.EachElement Node.Unrepeated) →
        Node.read limits (some tree.render) = .ok tree) ∧
      ((¬ ∀ child ∈ tree.children, child.EachElement Node.Unrepeated) →
        ∃ missing, Node.read limits (some tree.render) = .error (.missingClosingTag missing)) := by
  cases tree with
  | text content => simp at ht
  | element name children =>
    constructor
    · intro hu
      refine read_eq_ok_iff_spells.mpr ⟨canonical_of_unrepeated hs hu, ?_, hd, hsize⟩
      rw [Node.render, String.toList_ofList]
      exact spells_written _
    · intro hrepeated
      obtain ⟨hroot, hchildren⟩ := Node.eachElement_element_iff.mp hs
      rw [Node.nesting_element] at hd
      have htight := Node.tight_tokensAll hroot.2 hchildren
      have htrim := htight.trimmed.trim_eq
      rw [Node.flatMap_written_tokensAll] at htrim
      rw [read_render_of_each_simple hs hsize, readElement_of_le (by omega), htrim]
      have hdepth : 1 + Node.nestingAll children ≤ limits.maxDepth := by omega
      -- were the children read, no name in them would be repeated
      rcases readContent_writtenAll hroot.2 hchildren hdepth with hok | ⟨missing, inner, herror⟩
      · exact absurd (unrepeated_of_readContent hroot.2 hchildren (by omega) hok) hrepeated
      · refine ⟨missing, ?_⟩
        rw [Nat.zero_add, herror]
        rfl

/-- Below, `a` stands inside the root of that name, and `b` inside another `b`. -/
theorem read_render_of_simple_nested :
    Node.read {} (some "<a><b>x <a></a></b></a>") =
        .ok (.element "a" [.element "b" [.text "x ", .element "a" []]]) ∧
      ∃ missing, Node.read {} (some "<a><b>1<c><b></b></c>2</b></a>") =
        .error (.missingClosingTag missing) := by
  constructor
  · have h := @read_render_of_simple {}
      (.element "a" [.element "b" [.text "x ", .element "a" []]])
      rfl (by decide) (by decide) (by decide)
    exact h.1 (by decide)
  · have h := @read_render_of_simple {}
      (.element "a" [.element "b" [.text "1", .element "c" [.element "b" []], .text "2"]])
      rfl (by decide) (by decide) (by decide)
    exact h.2 (by decide)

end TagPath
