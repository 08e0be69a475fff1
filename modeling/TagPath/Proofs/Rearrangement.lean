import Mathlib
import TagPath.Proofs.Covering

/-! # Siblings in another order

A tree is rearranged by putting the children of an element in another order, at any place
in it and any number of times (`Rearranges`).  An element has then as many children as
before, and each of them is still there up to a rearrangement of its own; so rearranged
trees cover one another (`Rearranges.alike`).

To cover a tree is less: one child of the cover may stand for several.  But where children
are distinct, the covers of the children are all children of the cover, each taken once
(`exists_bijective_of_alike`).  They stand in some other order and are, by induction, the
children rearranged.  So **a tree of distinct children is covered by its rearrangements
only** (`Rearranges.of_covers`).
-/
namespace TagPath

/-- The members of a list, each taken once as somebody's partner, are the list in the order
of those. -/
theorem exists_perm_of_bijective {α β : Type} {R : α → β → Prop} {firsts : List α}
    {seconds : List β} {partner : Fin firsts.length → Fin seconds.length}
    (hb : Function.Bijective partner) (hr : ∀ i, R (firsts.get i) (seconds.get (partner i))) :
    ∃ partners, partners.Perm seconds ∧ List.Forall₂ R firsts partners := by
  have hindices : ((List.finRange firsts.length).map partner).Perm
      (List.finRange seconds.length) := by
    rw [List.perm_ext_iff_of_nodup]
    · intro j
      simpa using hb.surjective j
    · exact (List.nodup_finRange _).map hb.injective
    · exact List.nodup_finRange _
  refine ⟨((List.finRange firsts.length).map partner).map seconds.get, ?_, ?_⟩
  · simpa using hindices.map seconds.get
  · rw [List.forall₂_iff_get]
    refine ⟨by simp, fun i hi hi' => ?_⟩
    simpa using hr ⟨i, hi⟩

namespace Node

/-! ## Rearranged trees -/

/-- The children of one element, at the root or below it, are put in another order. -/
inductive Reorders : Node → Node → Prop
  | root {name : String} {children children' : List Node} :
      children.Perm children' → Reorders (element name children) (element name children')
  | child {name : String} {front behind : List Node} {child child' : Node} :
      Reorders child child' →
        Reorders (element name (front ++ child :: behind))
          (element name (front ++ child' :: behind))

/-- The left tree is what the right one becomes when siblings are put in another order, at
any levels. -/
def Rearranges (left right : Node) : Prop := Relation.ReflTransGen Reorders right left

/-! ## Rearranged trees are alike -/

/-- Elements of one name and with as many children are alike, if each child of the one is
alike some child of the other. -/
theorem alike_element {name : String} {lefts rights : List Node}
    (hl : lefts.length = rights.length)
    (hlefts : ∀ left ∈ lefts, ∃ right ∈ rights, left.Alike right)
    (hrights : ∀ right ∈ rights, ∃ left ∈ lefts, right.Alike left) :
    (element name lefts).Alike (element name rights) := by
  constructor
  · refine covers_element_iff.mpr ⟨lefts, rfl, hl, fun right hm => ?_⟩
    obtain ⟨left, hleft, ha⟩ := hrights right hm
    exact ⟨left, hleft, ha.2⟩
  · refine covers_element_iff.mpr ⟨rights, rfl, hl.symm, fun left hm => ?_⟩
    obtain ⟨right, hright, ha⟩ := hlefts left hm
    exact ⟨right, hright, ha.2⟩

theorem alike_refl (node : Node) : node.Alike node := ⟨covers_refl node, covers_refl node⟩

/-- One child may be replaced by a child that is alike. -/
theorem alike_element_of_alike {name : String} {front behind : List Node} {child child' : Node}
    (h : child.Alike child') :
    (element name (front ++ child :: behind)).Alike
      (element name (front ++ child' :: behind)) :=
  ⟨covers_element_of_covers h.1, covers_element_of_covers h.2⟩

theorem Reorders.alike {tree tree' : Node} (h : Reorders tree tree') : tree.Alike tree' := by
  induction h with
  | root hp =>
    apply alike_element hp.length_eq
    · exact fun child hm => ⟨child, hp.mem_iff.mp hm, alike_refl child⟩
    · exact fun child hm => ⟨child, hp.mem_iff.mpr hm, alike_refl child⟩
  | child _ ih => exact alike_element_of_alike ih

/-- **Rearranged trees cover one another.** -/
theorem Rearranges.alike {left right : Node} (h : left.Rearranges right) : left.Alike right := by
  induction h with
  | refl => exact alike_refl right
  | tail _ hstep ih => exact hstep.alike.symm.trans ih

/-! ## Alike trees are rearranged -/

/-- The children of an element may be rearranged one by one. -/
theorem rearranges_element {name : String} {front lefts rights : List Node}
    (h : List.Forall₂ (fun right left => Rearranges left right) rights lefts) :
    (element name (front ++ lefts)).Rearranges (element name (front ++ rights)) := by
  induction h generalizing front with
  | nil => exact .refl
  | @cons right left rights lefts hchild _ ih =>
    have hfirst : (element name (front ++ left :: rights)).Rearranges
        (element name (front ++ right :: rights)) :=
      Relation.ReflTransGen.lift (fun child => element name (front ++ child :: rights))
        (fun _ _ hc => .child hc) _ _ hchild
    have hrest := @ih (front ++ [left])
    simp only [List.append_assoc, List.singleton_append] at hrest
    exact hfirst.trans hrest

/-- **What covers a tree of distinct children is that tree rearranged.** -/
theorem Rearranges.of_covers {left right : Node} (hd : right.Distinct)
    (h : left.covers right = true) : left.Rearranges right := by
  induction right using treeInduction generalizing left with
  | text content =>
    rw [covers_text_iff.mp h]
    exact .refl
  | element name children ih =>
    obtain ⟨hp, hall⟩ := distinct_element_iff.mp hd
    obtain ⟨lefts, rfl, hl, hc⟩ := covers_element_iff.mp h
    have halike : ∀ child ∈ children, ∃ left ∈ lefts, child.Alike left := by
      intro child hm
      obtain ⟨left, hleft, hlc⟩ := hc child hm
      exact ⟨left, hleft, ((hall child hm).of_covers hlc).1⟩
    obtain ⟨partner, hb, hpartner⟩ := exists_bijective_of_alike hl halike hp
    have hrearranged : ∀ i, (lefts.get (partner i)).Rearranges (children.get i) := by
      intro i
      have hm := List.get_mem children i
      exact ih _ hm (hall _ hm) (hpartner i).2
    obtain ⟨partners, hperm, hpartners⟩ := exists_perm_of_bijective hb hrearranged
    -- first every child by itself, then all of them among one another
    have hchildren : (element name partners).Rearranges (element name children) :=
      @rearranges_element name [] partners children hpartners
    exact hchildren.tail (.root hperm)

/-- In a tree where no two siblings cover one another, none covers another one either. -/
theorem distinct_iff_not_covers {tree : Node} :
    tree.Distinct ↔ tree.EachElement fun _ children => children.Pairwise fun child other =>
      child.covers other = false ∧ other.covers child = false := by
  constructor
  · intro hd name children hm
    have hchildren : (element name children).Distinct := EachElement.of_mem_subtrees hd hm
    obtain ⟨hp, hall⟩ := distinct_element_iff.mp hchildren
    refine List.Pairwise.imp_of_mem (fun {child other} hchild hother hn => ?_) hp
    constructor
    · apply Bool.eq_false_iff.mpr
      exact fun hc => hn ((hall other hother).of_covers hc).1.symm
    · apply Bool.eq_false_iff.mpr
      exact fun hc => hn ((hall child hchild).of_covers hc).1
  · intro hd
    refine EachElement.imp hd fun name children hp => hp.imp fun hn ha => ?_
    exact Bool.false_ne_true (hn.1.symm.trans ha.1)

/-- **On trees of distinct children, to cover is to rearrange.**  A rearranged tree and the
tree it comes from cover one another.  If no element of a tree has two children that cover
one another, then only its rearrangements cover it, and it covers all of them. -/
theorem covers_exact (left right : Node) :
    (left.Rearranges right → left.covers right = true ∧ right.covers left = true) ∧
      (right.Distinct → left.covers right = true →
        left.Rearranges right ∧ right.covers left = true) := by
  refine ⟨Rearranges.alike, fun hd hc => ⟨.of_covers hd hc, ?_⟩⟩
  obtain ⟨⟨hback, -⟩, -⟩ := hd.of_covers hc
  exact hback

/-- The trees below hold the same siblings in another order on two levels. -/
theorem covers_exact_two_levels :
    let left := element "r"
      [element "a" [text "1", element "b" []], element "a" [text "2"], text "z"]
    let right := element "r"
      [text "z", element "a" [text "2"], element "a" [element "b" [], text "1"]]
    right.Distinct ∧ left.covers right = true ∧ left.Rearranges right ∧
      right.covers left = true := by
  intro left right
  have hd : right.Distinct := by decide
  have hc : left.covers right = true := by decide
  obtain ⟨hr, -⟩ := (covers_exact left right).2 hd hc
  exact ⟨hd, hc, hr, ((covers_exact left right).1 hr).2⟩

end Node
end TagPath
