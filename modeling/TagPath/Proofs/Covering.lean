import Mathlib
import TagPath.Document.Cover
import TagPath.Proofs.Forest

/-! # Covering both ways

Covering is reflexive and transitive (`covers_refl`, `covers_trans`), and a child may be
replaced by a cover of it (`covers_element_of_covers`): **covering is a preorder that
elements respect** (`covers_preorder_congruent`).  So trees that cover one another are alike
in the sense of an equivalence (`Alike`).  Covering is not symmetric: one child may stand
for several, and then another child is asked for by nobody.

This cannot happen where no element has two children that are alike (`Distinct`).  Each
child of such an element needs a cover of its own; there are as many covers as children,
so every one of them is needed, and it is covered in turn (`exists_bijective_of_alike`).
Therefore **what covers a tree of distinct children is covered by it, and has distinct
children itself** (`Distinct.of_covers`).
-/
namespace TagPath

/-! ## Counting partners -/

section Partners
variable {α β : Type} {R : α → β → Prop} {firsts : List α} {seconds : List β}

/-- Partners of their own, for the members of a list no two of which have one in common. -/
theorem exists_injective_of_pairwise (h : ∀ first ∈ firsts, ∃ second ∈ seconds, R first second)
    (hp : firsts.Pairwise fun first other => ∀ second, R first second → ¬ R other second) :
    ∃ partner : Fin firsts.length → Fin seconds.length,
      Function.Injective partner ∧ ∀ i, R (firsts.get i) (seconds.get (partner i)) := by
  have hpartner : ∀ i : Fin firsts.length, ∃ j : Fin seconds.length,
      R (firsts.get i) (seconds.get j) := by
    intro i
    obtain ⟨second, hs, hr⟩ := h (firsts.get i) (List.get_mem firsts i)
    obtain ⟨j, rfl⟩ := List.mem_iff_get.mp hs
    exact ⟨j, hr⟩
  choose partner hr using hpartner
  refine ⟨partner, fun i j he => ?_, hr⟩
  rw [List.pairwise_iff_get] at hp
  rcases lt_trichotomy i j with hlt | rfl | hlt
  · exact absurd (he ▸ hr j) (hp i j hlt _ (hr i))
  · rfl
  · exact absurd (he ▸ hr i) (hp j i hlt _ (hr j))

/-- A list is as long, at least, as one whose members have partners of their own in it. -/
theorem length_le_of_pairwise (h : ∀ first ∈ firsts, ∃ second ∈ seconds, R first second)
    (hp : firsts.Pairwise fun first other => ∀ second, R first second → ¬ R other second) :
    firsts.length ≤ seconds.length := by
  obtain ⟨partner, hi, -⟩ := exists_injective_of_pairwise h hp
  simpa using Fintype.card_le_of_injective partner hi

end Partners

namespace Node

/-! ## What a cover has in common with the tree -/

section Covers
variable {left right : Node}

theorem name_eq_of_covers (h : left.covers right = true) : left.name = right.name := by
  cases right with
  | text content => rw [covers_text_iff.mp h]
  | element name children =>
    obtain ⟨children', rfl, -, -⟩ := covers_element_iff.mp h
    rfl

/-- Each child of a tree is covered by a child of what covers the tree. -/
theorem exists_child_of_covers (h : left.covers right = true) {child : Node}
    (hc : child ∈ right.children) : ∃ child' ∈ left.children, child'.covers child = true := by
  cases right with
  | text content => exact absurd hc List.not_mem_nil
  | element name children =>
    obtain ⟨children', rfl, -, hall⟩ := covers_element_iff.mp h
    exact hall child hc

end Covers

/-- **Covering is transitive.** -/
theorem covers_trans {first second third : Node} (h : first.covers second = true)
    (h' : second.covers third = true) : first.covers third = true := by
  induction third using treeInduction generalizing first second with
  | text content =>
    rw [covers_text_iff.mp h'] at h
    exact h
  | element name children ih =>
    obtain ⟨seconds, rfl, hl', hc'⟩ := covers_element_iff.mp h'
    obtain ⟨firsts, rfl, hl, hc⟩ := covers_element_iff.mp h
    apply covers_element_iff.mpr
    refine ⟨firsts, rfl, hl.trans hl', fun child hm => ?_⟩
    obtain ⟨second, hs, hsc⟩ := hc' child hm
    obtain ⟨first, hf, hfs⟩ := hc second hs
    exact ⟨first, hf, ih child hm hfs hsc⟩

/-- An element covers another one if it differs in one child only and that child covers the
other one's. -/
theorem covers_element_of_covers {name : String} {front behind : List Node} {cover child : Node}
    (h : cover.covers child = true) :
    (element name (front ++ cover :: behind)).covers
      (element name (front ++ child :: behind)) = true := by
  apply covers_element_iff.mpr
  refine ⟨front ++ cover :: behind, rfl, by simp, fun node hm => ?_⟩
  rcases List.mem_append.mp hm with hfront | hbehind
  · exact ⟨node, List.mem_append_left _ hfront, covers_refl node⟩
  · rcases List.mem_cons.mp hbehind with rfl | hbehind
    · exact ⟨cover, by simp, h⟩
    · exact ⟨node, by simp [hbehind], covers_refl node⟩

/-- **Covering is a preorder, and elements respect it.**  Every tree covers itself; what
covers a cover of a tree covers the tree; and where one child of an element is replaced by
a cover of it, the new element covers the old one. -/
theorem covers_preorder_congruent :
    (∀ node : Node, node.covers node = true) ∧
      (∀ first second third : Node, first.covers second = true → second.covers third = true →
        first.covers third = true) ∧
      ∀ (name : String) (front behind : List Node) (cover child : Node),
        cover.covers child = true →
          (element name (front ++ cover :: behind)).covers
            (element name (front ++ child :: behind)) = true := by
  refine ⟨covers_refl, ?trans, ?replace⟩
  case trans =>
    intro first second third h h'
    exact covers_trans h h'
  case replace =>
    intro name front behind cover child h
    exact covers_element_of_covers h

/-- Each tree below covers the next one and is not covered by it. -/
theorem covers_preorder_congruent_strict :
    let first := element "a" [element "b" [], element "c" [], text "1"]
    let second := element "a" [element "b" [], element "c" [], element "c" []]
    let third := element "a" [element "c" [], element "c" [], element "c" []]
    let root (child : Node) := element "r" ([text "x"] ++ child :: [first])
    third.covers second = false ∧ second.covers first = false ∧
      first.covers first = true ∧ first.covers third = true ∧
      (root first).covers (root third) = true := by
  intro first second third root
  have h : first.covers second = true := by decide
  have h' : second.covers third = true := by decide
  obtain ⟨hrefl, htrans, hreplace⟩ := covers_preorder_congruent
  have hthird : first.covers third = true := htrans first second third h h'
  exact ⟨by decide, by decide, hrefl first, hthird,
    hreplace "r" [text "x"] [first] first third hthird⟩

/-! ## Alike trees -/

/-- Two trees that cover one another. -/
def Alike (left right : Node) : Prop := left.covers right = true ∧ right.covers left = true

instance (left right : Node) : Decidable (left.Alike right) :=
  inferInstanceAs (Decidable (_ ∧ _))

theorem Alike.symm {left right : Node} (h : left.Alike right) : right.Alike left := ⟨h.2, h.1⟩

theorem Alike.trans {first second third : Node} (h : first.Alike second)
    (h' : second.Alike third) : first.Alike third :=
  ⟨covers_trans h.1 h'.1, covers_trans h'.2 h.2⟩

/-- No element of the tree has two children that are alike. -/
def Distinct (tree : Node) : Prop :=
  tree.EachElement fun _ children => children.Pairwise fun child other => ¬ child.Alike other

instance (tree : Node) : Decidable tree.Distinct :=
  inferInstanceAs (Decidable (tree.EachElement _))

theorem distinct_element_iff {name : String} {children : List Node} :
    (element name children).Distinct ↔
      (children.Pairwise fun child other => ¬ child.Alike other) ∧
        ∀ child ∈ children, child.Distinct :=
  eachElement_element_iff

/-- The trees of a list without alike members are found again one by one among as many
trees, if each of them is alike one of those. -/
theorem exists_bijective_of_alike {lefts rights : List Node}
    (hl : lefts.length = rights.length)
    (hc : ∀ right ∈ rights, ∃ left ∈ lefts, right.Alike left)
    (hp : rights.Pairwise fun right other => ¬ right.Alike other) :
    ∃ partner : Fin rights.length → Fin lefts.length,
      Function.Bijective partner ∧ ∀ i, (rights.get i).Alike (lefts.get (partner i)) := by
  have hown : rights.Pairwise fun right other => ∀ left, right.Alike left → ¬ other.Alike left := by
    apply hp.imp
    intro right other hn left hr ho
    exact hn (hr.trans ho.symm)
  obtain ⟨partner, hi, hr⟩ := exists_injective_of_pairwise hc hown
  refine ⟨partner, ?_, hr⟩
  apply (Fintype.bijective_iff_injective_and_card partner).mpr
  exact ⟨hi, by simp [hl]⟩

/-- Trees that are found again one by one from trees without alike members have no alike
members themselves. -/
theorem pairwise_not_alike_of_surjective {lefts rights : List Node}
    {partner : Fin rights.length → Fin lefts.length} (hs : Function.Surjective partner)
    (halike : ∀ i, (rights.get i).Alike (lefts.get (partner i)))
    (hp : rights.Pairwise fun right other => ¬ right.Alike other) :
    lefts.Pairwise fun left other => ¬ left.Alike other := by
  rw [List.pairwise_iff_get] at hp ⊢
  intro j j' hlt hj
  obtain ⟨i, rfl⟩ := hs j
  obtain ⟨i', rfl⟩ := hs j'
  have hi : (rights.get i).Alike (rights.get i') :=
    ((halike i).trans hj).trans (halike i').symm
  rcases lt_trichotomy i i' with hii | rfl | hii
  · exact hp i i' hii hi
  · exact lt_irrefl _ hlt
  · exact hp i' i hii hi.symm

/-- **What covers a tree of distinct children is covered by it, and has distinct children
itself.** -/
theorem Distinct.of_covers {left right : Node} (hd : right.Distinct)
    (h : left.covers right = true) : right.Alike left ∧ left.Distinct := by
  induction right using treeInduction generalizing left with
  | text content =>
    rw [covers_text_iff.mp h]
    exact ⟨⟨covers_refl _, covers_refl _⟩, hd⟩
  | element name children ih =>
    obtain ⟨hp, hall⟩ := distinct_element_iff.mp hd
    obtain ⟨lefts, rfl, hl, hc⟩ := covers_element_iff.mp h
    have halike : ∀ child ∈ children, ∃ left ∈ lefts, child.Alike left := by
      intro child hm
      obtain ⟨left, hleft, hlc⟩ := hc child hm
      exact ⟨left, hleft, (ih child hm (hall child hm) hlc).1⟩
    obtain ⟨partner, hb, hpartner⟩ := exists_bijective_of_alike hl halike hp
    -- no cover is left over, so each of them is some child's
    have hback : ∀ left ∈ lefts, ∃ child ∈ children, child.Alike left := by
      intro left hleft
      obtain ⟨j, rfl⟩ := List.mem_iff_get.mp hleft
      obtain ⟨i, rfl⟩ := hb.surjective j
      exact ⟨children.get i, List.get_mem children i, hpartner i⟩
    refine ⟨⟨?_, h⟩, ?_⟩
    · apply covers_element_iff.mpr
      refine ⟨children, rfl, hl.symm, fun left hleft => ?_⟩
      obtain ⟨child, hm, ha⟩ := hback left hleft
      exact ⟨child, hm, ha.1⟩
    · apply distinct_element_iff.mpr
      refine ⟨pairwise_not_alike_of_surjective hb.surjective hpartner hp, fun left hleft => ?_⟩
      obtain ⟨child, hm, ha⟩ := hback left hleft
      exact (ih child hm (hall child hm) ha.2).2

end Node
end TagPath
