import Mathlib
import TagPath.Proofs.Covering
import TagPath.Proofs.Matches

/-! # Matches in a tree and in its cover

A path without predicates asks for names and texts only.  A cover has the name of what it
covers, and a cover of each child, so what such a path matches in a tree is covered by
what it matches in a cover of the tree (`exists_selects_of_covers`).  With one more
covering, of a match by the match that is kept for it, the same holds of what is kept.

Where the children of the covered tree are distinct, covering goes both ways, and so does
this.  Then none of the matches kept in one tree is left without a partner in the other,
and no two share one: otherwise the first of the two would cover the second through their
partner.  So **both trees yield equally many matches** (`Path.evaluate_of_covers`).
-/
namespace TagPath

/-! ## From a tree to its cover -/

/-- A step without predicates lets the cover of a node pass with the node. -/
theorem Step.Passes.of_covers {name : String} {left right : Node}
    (h : (Step.named name []).Passes right) (hc : left.covers right = true) :
    (Step.named name []).Passes left := by
  obtain ⟨hn, -⟩ := h
  exact ⟨(Node.name_eq_of_covers hc).trans hn, by simp⟩

/-- **What steps without predicates ask for in a tree, they ask for in its cover**, up to
covering. -/
theorem exists_selects_of_covers {steps : List Step} {left right : Node} {place : Place}
    (hs : ∀ step ∈ steps, step.predicates = []) (hc : left.covers right = true)
    (h : Selects steps right place) :
    ∃ other, Selects steps left other ∧ other.node.covers place.node = true := by
  induction steps generalizing left right place with
  | nil => exact absurd h not_selects_nil
  | cons step rest ih =>
    obtain ⟨hstep, hrest⟩ := List.forall_mem_cons.mp hs
    cases step with
    | text =>
      obtain ⟨ht, rfl⟩ := selects_text_cons_iff.mp h
      obtain ⟨content, rfl⟩ := Node.isText_iff.mp ht
      obtain rfl := Node.covers_text_iff.mp hc
      exact ⟨_, h, hc⟩
    | named name predicates =>
      obtain rfl : predicates = [] := hstep
      by_cases hr : rest = []
      · subst hr
        obtain ⟨hp, rfl⟩ := selects_named_singleton_iff.mp h
        refine ⟨Place.root left, ?_, hc⟩
        exact selects_named_singleton_iff.mpr ⟨hp.of_covers hc, rfl⟩
      · obtain ⟨hp, index, child, inner, hchild, hi, rfl⟩ := (selects_named_cons_iff hr).mp h
        obtain ⟨child', hm, hcc⟩ :=
          Node.exists_child_of_covers hc (List.mem_of_getElem? hchild)
        obtain ⟨index', hchild'⟩ := List.getElem?_of_mem hm
        obtain ⟨inner', hi', hci⟩ := ih hrest hcc hi
        refine ⟨inner'.below index', ?_, hci⟩
        exact (selects_named_cons_iff hr).mpr
          ⟨hp.of_covers hc, index', child', inner', hchild', hi', rfl⟩

/-! ## What is kept -/

/-- Places of distinct children are kept in no greater number than places among which each
kept one has a cover. -/
theorem length_keepUncovered_le {places others : List Place}
    (hd : ∀ place ∈ places, place.node.Distinct)
    (h : ∀ place ∈ keepUncovered places, ∃ other ∈ others,
      other.node.covers place.node = true) :
    (keepUncovered places).length ≤ others.length := by
  refine length_le_of_pairwise h ?_
  apply List.Pairwise.imp_of_mem _ (pairwise_keepUncovered places)
  intro place later hplace hlater hn other hc hc'
  -- the cover that both have in common is covered by the first of them
  have hdistinct := hd place ((keepUncovered_sublist places).subset hplace)
  have hback := (hdistinct.of_covers hc).1.1
  exact absurd (Node.covers_trans hback hc') (by simp [hn])

namespace Path
variable {path : Path} {left right root : Node} {place : Place}

theorem node_mem_subtrees_of_mem_selections (h : place ∈ path.selections root) :
    place.node ∈ root.subtrees :=
  List.mem_map_of_mem ((selectionsFrom_sublist path.steps root).subset h)

/-- The matches that are kept in a tree are covered by some that are kept in its cover. -/
theorem exists_mem_evaluate_of_covers (hp : ∀ step ∈ path.steps, step.predicates = [])
    (hc : left.covers right = true) (h : place ∈ path.evaluate right) :
    ∃ kept ∈ path.evaluate left, kept.node.covers place.node = true := by
  obtain ⟨other, hother, hcover⟩ :=
    exists_selects_of_covers hp hc (matches_of_mem_evaluate h)
  obtain ⟨kept, hkept, hcover'⟩ := Matches.exists_covers hother
  exact ⟨kept, hkept, Node.covers_trans hcover' hcover⟩

theorem length_evaluate_le (hp : ∀ step ∈ path.steps, step.predicates = [])
    (hc : left.covers right = true) (hd : right.Distinct) :
    (path.evaluate right).length ≤ (path.evaluate left).length := by
  have hkept := path.evaluate_eq_keepUncovered right
  rw [hkept]
  refine length_keepUncovered_le (fun place hm => ?_) fun place hm => ?_
  · exact Node.EachElement.of_mem_subtrees hd (node_mem_subtrees_of_mem_selections hm)
  · exact exists_mem_evaluate_of_covers hp hc (hkept ▸ hm)

/-- **What a path without predicates yields in a tree is covered by what it yields in a
cover of the tree.**  If no element of the tree has two children that cover one another,
the converse holds too, and both yield equally many matches. -/
theorem evaluate_of_covers (hp : ∀ step ∈ path.steps, step.predicates = [])
    (hc : left.covers right = true) :
    (∀ place ∈ path.evaluate right,
        ∃ kept ∈ path.evaluate left, kept.node.covers place.node = true) ∧
      (right.Distinct →
        (∀ place ∈ path.evaluate left,
            ∃ kept ∈ path.evaluate right, kept.node.covers place.node = true) ∧
          (path.evaluate left).length = (path.evaluate right).length) := by
  refine ⟨fun place hm => exists_mem_evaluate_of_covers hp hc hm, fun hd => ?_⟩
  obtain ⟨⟨hback, -⟩, hd'⟩ := hd.of_covers hc
  refine ⟨fun place hm => exists_mem_evaluate_of_covers hp hback hm, ?_⟩
  apply Nat.le_antisymm
  · exact length_evaluate_le hp hback hd'
  · exact length_evaluate_le hp hc hd

/-- The two trees below hold the same children in another order on two levels. -/
theorem evaluate_of_covers_reordered :
    let path : Path := ⟨[.named "r" [], .named "a" [], .text], by simp⟩
    let left := Node.element "r"
      [.element "a" [.text "1", .element "b" []], .element "a" [.text "2"], .text "z"]
    let right := Node.element "r"
      [.text "z", .element "a" [.text "2"], .element "a" [.element "b" [], .text "1"]]
    (∀ step ∈ path.steps, step.predicates = []) ∧ left.covers right = true ∧
      right.Distinct ∧ (path.evaluate left).map (·.address) = [[0, 0], [1, 0]] ∧
      (path.evaluate right).length = 2 := by
  intro path left right
  have hp : ∀ step ∈ path.steps, step.predicates = [] := by decide
  have hc : left.covers right = true := by decide
  have hd : right.Distinct := by decide
  have hleft : (path.evaluate left).map (·.address) = [[0, 0], [1, 0]] := by decide
  have hlength : (path.evaluate left).length = 2 := by
    simpa using congrArg List.length hleft
  exact ⟨hp, hc, hd, hleft, ((evaluate_of_covers hp hc).2 hd).2 ▸ hlength⟩

/-- Where two children are alike, a cover may yield more. -/
example :
    let path : Path := ⟨[.named "r" [], .named "a" [], .text], by simp⟩
    let left := Node.element "r" [.element "a" [.text "1"], .element "a" [.text "2"]]
    let right := Node.element "r" [.element "a" [.text "1"], .element "a" [.text "1"]]
    left.covers right = true ∧ (path.evaluate left).length = 2 ∧
      (path.evaluate right).length = 1 := by
  decide

end Path
end TagPath
