import Mathlib
import TagPath.Proofs.Spacing

/-! # Trees that a document can spell

Not every tree is the tree of some document.  Of children that are read one after the
other, no text is empty, holds `<`, starts with a blank, or stands beside another
text, and the last one does not end with a blank (`Orderly`).  An element inside
another one ends at the first place of its closing tag, so that tag does not stand in
its children (`Nestable`); the root ends where the document ends, and is free from
this.  No name holds `>`.  A tree with these properties is *canonical*; a text by
itself is if it is trimmed and does not begin like an element (`Node.Canonical`).

What orderly children take up in a document begins with a character that is not
blank, and the blanks at its end belong to no child (`Orderly.first_of_spaced`,
`Orderly.spaced_trimEnd`).
-/
namespace TagPath
open Text

/-! ## Children -/

/-- Characters that stand as a text inside an element: at least one, none of them
`<`, the first not blank. -/
structure IsRun (run : List Char) : Prop where
  ne_nil : run ≠ []
  not_mem : '<' ∉ run
  first : ∀ c ∈ run.head?, isBlank c = false

/-- The character that may be there is looked at, not every character that there is. -/
instance (c? : Option Char) : Decidable (∀ c ∈ c?, isBlank c = false) :=
  Option.decidableForallMem c?

instance (run : List Char) : Decidable (IsRun run) :=
  decidable_of_iff (run ≠ [] ∧ '<' ∉ run ∧ ∀ c ∈ run.head?, isBlank c = false)
    ⟨fun h => ⟨h.1, h.2.1, h.2.2⟩, fun h => ⟨h.ne_nil, h.not_mem, h.first⟩⟩

/-- Children as they are read: texts are runs, no two of them are neighbours, and a
text that is the last child does not end with a blank. -/
structure Orderly (children : List Node) : Prop where
  run : ∀ child ∈ children, ∀ content ∈ child.content?, IsRun content.toList
  apart : children.IsChain fun left right => ¬ (left.isText = true ∧ right.isText = true)
  final : ∀ child ∈ children.getLast?, ∀ content ∈ child.content?,
    ∀ c ∈ content.toList.getLast?, isBlank c = false

instance (children : List Node) : Decidable (Orderly children) :=
  decidable_of_iff
    ((∀ child ∈ children, ∀ content ∈ child.content?, IsRun content.toList) ∧
      (children.IsChain fun left right => ¬ (left.isText = true ∧ right.isText = true)) ∧
      ∀ child ∈ children.getLast?, ∀ content ∈ child.content?,
        ∀ c ∈ content.toList.getLast?, isBlank c = false)
    ⟨fun h => ⟨h.1, h.2.1, h.2.2⟩, fun h => ⟨h.run, h.apart, h.final⟩⟩

theorem orderly_nil : Orderly [] := by decide

/-- Orderly children, the first one taken off. -/
theorem orderly_cons_iff {first : Node} {rest : List Node} :
    Orderly (first :: rest) ↔
      (∀ content ∈ first.content?, IsRun content.toList) ∧
        (∀ next ∈ rest.head?, ¬ (first.isText = true ∧ next.isText = true)) ∧
        (rest = [] → ∀ content ∈ first.content?, ∀ c ∈ content.toList.getLast?,
          isBlank c = false) ∧ Orderly rest := by
  constructor
  · rintro ⟨hr, ha, hf⟩
    obtain ⟨hn, ha⟩ := List.isChain_cons.mp ha
    refine ⟨hr first List.mem_cons_self, hn, ?_, ?_⟩
    · rintro rfl
      exact hf first rfl
    · refine ⟨fun child hc => hr child (List.mem_cons_of_mem _ hc), ha, ?_⟩
      intro child hc
      cases rest with
      | nil => simp at hc
      | cons next rest => exact hf child (by rwa [List.getLast?_cons_cons])
  · rintro ⟨hrun, hn, hlast, hr, ha, hf⟩
    refine ⟨?_, List.isChain_cons.mpr ⟨hn, ha⟩, ?_⟩
    · intro child hc
      rcases List.mem_cons.mp hc with rfl | hc
      · exact hrun
      · exact hr child hc
    · intro child hc
      cases rest with
      | nil =>
        obtain rfl : first = child := Option.some.inj hc
        exact hlast rfl
      | cons next rest => exact hf child (by rwa [List.getLast?_cons_cons] at hc)

theorem orderly_element_cons_iff {name : String} {children rest : List Node} :
    Orderly (.element name children :: rest) ↔ Orderly rest := by
  rw [orderly_cons_iff]
  simp [Node.content?]

theorem orderly_text_cons_iff {content : String} {rest : List Node} :
    Orderly (.text content :: rest) ↔
      IsRun content.toList ∧ (∀ next ∈ rest.head?, next.isText = false) ∧
        (rest = [] → ∀ c ∈ content.toList.getLast?, isBlank c = false) ∧ Orderly rest := by
  rw [orderly_cons_iff]
  simp [Node.content?]

/-! ## Trees -/

namespace Node

/-- An element whose tags and children can be told apart. -/
def Tidy (name : String) (children : List Node) : Prop := '>' ∉ name.toList ∧ Orderly children

/-- An element that also ends at the first place of its closing tag. -/
def Closable (name : String) (children : List Node) : Prop :=
  Tidy name children ∧ ¬ closingTag name.toList <:+: writtenAll children

/-- A tree that can stand inside an element. -/
def Nestable (tree : Node) : Prop := tree.EachElement Closable

/-- A tree that some document spells to a reader.  The root's own closing tag may also
stand in its children. -/
def Canonical : Node → Prop
  | element name children => Tidy name children ∧ ∀ child ∈ children, child.Nestable
  | text content => trim content.toList = content.toList ∧ content.toList.head? ≠ some '<'

instance (name : String) (children : List Node) : Decidable (Tidy name children) :=
  inferInstanceAs (Decidable (_ ∧ _))

instance (name : String) (children : List Node) : Decidable (Closable name children) :=
  inferInstanceAs (Decidable (_ ∧ _))

instance (tree : Node) : Decidable tree.Nestable :=
  inferInstanceAs (Decidable (tree.EachElement Closable))

instance : (tree : Node) → Decidable tree.Canonical
  | element _ _ => inferInstanceAs (Decidable (_ ∧ _))
  | text _ => inferInstanceAs (Decidable (_ ∧ _))

theorem nestable_element_iff {name : String} {children : List Node} :
    (element name children).Nestable ↔
      Closable name children ∧ ∀ child ∈ children, child.Nestable :=
  eachElement_element_iff

theorem nestable_text (content : String) : (text content).Nestable := eachElement_text content

theorem Nestable.tidy {tree : Node} (h : tree.Nestable) : tree.EachElement Tidy :=
  EachElement.imp h fun _ _ hc => hc.1

theorem Canonical.tidy {tree : Node} (h : tree.Canonical) : tree.EachElement Tidy := by
  cases tree with
  | element name children =>
    exact eachElement_element_iff.mpr ⟨h.1, fun child hc => Nestable.tidy (h.2 child hc)⟩
  | text content => exact eachElement_text content

/-- An element that can stand inside another one can stand by itself. -/
theorem Nestable.canonical {tree : Node} (h : tree.Nestable) (ht : tree.isText = false) :
    tree.Canonical := by
  cases tree with
  | element name children =>
    obtain ⟨⟨hc, -⟩, hall⟩ := nestable_element_iff.mp h
    exact ⟨hc, hall⟩
  | text content => simp at ht

/-- **Every element of a canonical tree is canonical.** -/
theorem Canonical.of_mem_subtrees {tree node : Node} (h : tree.Canonical)
    (hn : node ∈ tree.subtrees) (ht : node.isText = false) : node.Canonical := by
  cases tree with
  | element name children =>
    rw [subtrees_element, List.mem_cons] at hn
    rcases hn with rfl | hn
    · exact h
    · obtain ⟨child, hc, hn⟩ := List.mem_flatMap.mp hn
      have hchild : child.Nestable := h.2 child hc
      exact Nestable.canonical (EachElement.of_mem_subtrees hchild hn) ht
  | text content =>
    obtain rfl : node = text content := by simpa using hn
    exact h

/-- The tokens of orderly children are plain. -/
theorem plain_of_mem_tokensAll {nodes : List Node} (ho : Orderly nodes)
    (ht : ∀ node ∈ nodes, node.EachElement Tidy) : ∀ token ∈ tokensAll nodes, token.Plain := by
  induction nodes using forestInduction with
  | nil => simp
  | text content rest ih =>
    obtain ⟨hrun, -, -, ho⟩ := orderly_text_cons_iff.mp ho
    intro token hm
    rw [tokensAll_cons, tokens_text, List.singleton_append, List.mem_cons] at hm
    rcases hm with rfl | hm
    · exact hrun.not_mem
    · exact ih ho (fun node hn => ht node (List.mem_cons_of_mem _ hn)) token hm
  | element name children rest ihc ihr =>
    obtain ⟨⟨hname, hoc⟩, htc⟩ := eachElement_element_iff.mp (ht _ List.mem_cons_self)
    intro token hm
    rw [tokensAll_cons, tokens_element, List.cons_append, List.mem_cons, List.append_assoc,
      List.mem_append, List.singleton_append, List.mem_cons] at hm
    rcases hm with rfl | hm | rfl | hm
    · exact hname
    · exact ihc hoc htc token hm
    · exact hname
    · exact ihr (orderly_element_cons_iff.mp ho)
        (fun node hn => ht node (List.mem_cons_of_mem _ hn)) token hm

end Node

/-! ## What orderly children take up -/

/-- No blanks are taken off behind a closing tag. -/
theorem trimEnd_append_closingTag (front name : List Char) :
    trimEnd (front ++ closingTag name) = front ++ closingTag name := by
  apply trimEnd_eq_self
  intro c hc
  rw [show closingTag name = ('<' :: '/' :: name) ++ ['>'] from rfl, ← List.append_assoc,
    List.getLast?_concat] at hc
  obtain rfl := Option.some.inj hc
  exact isBlank_mark (by simp)

section Orderly
variable {nodes : List Node} {part : List Char}

/-- What orderly children take up begins with a character that is not blank.  It is
`<` if the first child is an element, and only then. -/
theorem Orderly.head?_of_spaced {node : Node} {rest : List Node} (ho : Orderly (node :: rest))
    (h : Spaced (Node.tokensAll (node :: rest)) part) :
    ∃ c, part.head? = some c ∧ isBlank c = false ∧ (c = '<' ↔ node.isText = false) := by
  cases node with
  | text content =>
    obtain ⟨hrun, -⟩ := orderly_text_cons_iff.mp ho
    rw [Node.tokensAll_cons, Node.tokens_text, List.singleton_append,
      spaced_text_cons_iff] at h
    obtain ⟨behind, -, rfl⟩ := h
    obtain ⟨first, run, he⟩ := List.exists_cons_of_ne_nil hrun.ne_nil
    have hlt : first ≠ '<' := by
      rintro rfl
      exact hrun.not_mem (he ▸ List.mem_cons_self)
    refine ⟨first, by rw [he]; rfl, hrun.first first (by rw [he]; rfl), ?_⟩
    exact iff_of_false hlt (by simp)
  | element name children =>
    obtain ⟨start, inner, final, gap, behind, -, -, -, -, -, rfl⟩ := spaced_element_cons_iff.mp h
    exact ⟨'<', rfl, isBlank_mark (by simp), iff_of_true rfl rfl⟩

/-- What orderly children take up does not begin with a blank. -/
theorem Orderly.first_of_spaced (ho : Orderly nodes) (h : Spaced (Node.tokensAll nodes) part) :
    ∀ c ∈ part.head?, isBlank c = false := by
  rcases nodes with _ | ⟨node, rest⟩
  · rw [Node.tokensAll_nil, spaced_nil_iff] at h
    simp [h]
  · obtain ⟨first, hfirst, hblank, -⟩ := ho.head?_of_spaced h
    intro c hc
    obtain rfl : first = c := Option.some.inj (hfirst.symm.trans hc)
    exact hblank

/-- Orderly children take up nothing only if there are none. -/
theorem Orderly.eq_nil_of_spaced_nil (ho : Orderly nodes)
    (h : Spaced (Node.tokensAll nodes) []) : nodes = [] := by
  rcases nodes with _ | ⟨node, rest⟩
  · rfl
  · obtain ⟨first, hfirst, -⟩ := ho.head?_of_spaced h
    cases hfirst

/-- What orderly children take up begins with `<` exactly if no text is in front. -/
theorem Orderly.isText_head?_iff (ho : Orderly nodes) (h : Spaced (Node.tokensAll nodes) part) :
    (∀ next ∈ nodes.head?, next.isText = false) ↔ ∀ c ∈ part.head?, c = '<' := by
  rcases nodes with _ | ⟨node, rest⟩
  · rw [Node.tokensAll_nil, spaced_nil_iff] at h
    simp [h]
  · obtain ⟨first, hfirst, -, hlt⟩ := ho.head?_of_spaced h
    rw [hfirst]
    simp only [List.head?_cons, Option.mem_def, Option.some.injEq, forall_eq']
    exact hlt.symm

/-- Blanks at the end of what orderly children take up belong to none of them. -/
theorem Orderly.spaced_trimEnd (ho : Orderly nodes) (h : Spaced (Node.tokensAll nodes) part) :
    Spaced (Node.tokensAll nodes) (trimEnd part) := by
  rcases List.eq_nil_or_concat nodes with rfl | ⟨front, node, rfl⟩
  · rw [Node.tokensAll_nil, spaced_nil_iff] at h
    subst h
    exact .nil
  rw [List.concat_eq_append] at ho h ⊢
  rw [Node.tokensAll_append, spaced_append_iff] at h ⊢
  obtain ⟨left, right, hl, hr, rfl⟩ := h
  cases node with
  | text content =>
    -- the last text is not empty, and its end is not blank
    rw [Node.tokensAll_cons, Node.tokens_text, List.singleton_append,
      spaced_text_cons_iff] at hr
    obtain ⟨_, ⟨⟩, rfl⟩ := hr
    rw [List.append_nil]
    have hrun := ho.run (.text content) (by simp) content rfl
    refine ⟨left, content.toList, hl,
      spaced_text_cons_iff.mpr ⟨[], .nil, (List.append_nil _).symm⟩, trimEnd_eq_self ?_⟩
    intro c hc
    refine ho.final (.text content) (by simp) content rfl c ?_
    rwa [List.getLast?_append_of_ne_nil _ hrun.ne_nil] at hc
  | element name children =>
    obtain ⟨start, inner, final, gap, _, hs, hf, hg, hi, ⟨⟩, rfl⟩ := spaced_element_cons_iff.mp hr
    rw [List.append_nil, ← List.append_assoc, trimEnd_append hg, ← List.append_assoc,
      trimEnd_append_closingTag]
    refine ⟨left, _, hl, spaced_element_cons_iff.mpr
      ⟨start, inner, final, [], [], hs, hf, blanks_nil, hi, .nil, rfl⟩, ?_⟩
    simp

end Orderly

end TagPath
