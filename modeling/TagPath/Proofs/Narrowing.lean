import Mathlib
import TagPath.Proofs.Matches

/-! # Narrowing a path

A step narrows another one if it asks for the same kind and name and has all the predicates
of the other (`Step.Narrows`).  What it lets pass, the other lets pass too; so a path whose
steps narrow those of a second path matches only what the second one matches
(`Path.Narrows.matches`).  Of the predicates of a step, therefore, neither the order nor
the number of times counts: if each of two paths narrows the other, they match the same
places and yield the same list.

What a path yields need not get less when it is narrowed, as a match that is gone no longer
covers others.  All the same, what the narrow path yields is matched by the wide one, and
something that the wide one yields covers it.  Only where two paths ask for different texts
of one child at the same level have they no match in common: to match the same place they
would have to let the same node pass there (`Leads.exists_passes`).  In short, **predicates
act as a set and only narrow** (`Path.evaluate_predicates`).
-/
namespace TagPath

/-! ## Predicates of one node -/

/-- Predicates that hold on one node and ask for the same child ask for the same value. -/
theorem Predicate.value_eq_of_holds {first second : Predicate} {node : Node}
    (h : first.holds node = true) (h' : second.holds node = true)
    (hc : first.child = second.child) : first.value = second.value := by
  have hfound : first.found? node = second.found? node := by rw [found?, found?, hc]
  rw [holds_iff.mp h, holds_iff.mp h'] at hfound
  exact Option.some.inj hfound

/-! ## Narrow steps -/

/-- The narrow step asks for the same kind and name as the wide one, and for all that the
wide one asks for. -/
structure Step.Narrows (narrow wide : Step) : Prop where
  name : narrow.name? = wide.name?
  predicates : wide.predicates ⊆ narrow.predicates

namespace Step
variable {narrow wide : Step}

theorem isText_of_mem_predicates {step : Step} {predicate : Predicate}
    (h : predicate ∈ step.predicates) : step.isText = false := by
  cases step with
  | text => exact absurd h List.not_mem_nil
  | named => rfl

theorem Passes.holds {step : Step} {node : Node} {predicate : Predicate} (h : step.Passes node)
    (hm : predicate ∈ step.predicates) : predicate.holds node = true := by
  cases step with
  | text => exact h.elim
  | named => exact h.2 predicate hm

theorem isText_eq_of_name? (h : narrow.name? = wide.name?) : narrow.isText = wide.isText := by
  cases narrow <;> cases wide <;> simp_all [name?, isText]

theorem Narrows.passes (h : narrow.Narrows wide) {node : Node} (hp : narrow.Passes node) :
    wide.Passes node := by
  obtain ⟨hname, hpredicates⟩ := h
  cases narrow with
  | text => exact hp.elim
  | named name predicates =>
    cases wide with
    | text => cases hname
    | named name' predicates' =>
      obtain rfl : name = name' := Option.some.inj hname
      obtain ⟨hn, hall⟩ := hp
      exact ⟨hn, fun predicate hm => hall predicate (hpredicates hm)⟩

end Step

/-- Steps of the same names are for texts at the same levels. -/
theorem Step.isText_of_mem_take {left right : List Step} {level : Nat}
    (hn : left.map Step.name? = right.map Step.name?)
    (ht : ∀ step ∈ left.take level, step.isText = false) :
    ∀ step ∈ right.take level, step.isText = false := by
  intro step hm
  have hname : step.name? ∈ (right.take level).map Step.name? := List.mem_map_of_mem hm
  rw [List.map_take, ← hn, ← List.map_take] at hname
  obtain ⟨other, hother, he⟩ := List.mem_map.mp hname
  rw [← isText_eq_of_name? he]
  exact ht other hother

/-- Steps of the same names narrow one another as their predicates tell. -/
theorem Step.forall₂_narrows {narrow wide : List Step}
    (hn : narrow.map Step.name? = wide.map Step.name?)
    (hp : List.Forall₂ (fun step other => other.predicates ⊆ step.predicates) narrow wide) :
    List.Forall₂ Step.Narrows narrow wide := by
  induction hp with
  | nil => exact .nil
  | cons hsub _ ih =>
    rw [List.map_cons, List.map_cons, List.cons.injEq] at hn
    obtain ⟨hname, hrest⟩ := hn
    exact .cons ⟨hname, hsub⟩ (ih hrest)

/-- Steps ask for all the chains that narrower steps ask for. -/
theorem Leads.of_narrows {narrow wide : List Step} {chain : List Node}
    (hs : List.Forall₂ Step.Narrows narrow wide) (h : Leads narrow chain) :
    Leads wide chain := by
  induction hs generalizing chain with
  | nil => exact h
  | @cons step step' rest rest' hstep _ ih =>
    cases step with
    | text =>
      cases step' with
      | text => exact leads_text_cons_iff.mpr (leads_text_cons_iff.mp h)
      | named => cases hstep.name
    | named name predicates =>
      obtain ⟨node, below, rfl, hp, hrest⟩ := leads_named_cons_iff.mp h
      have hp' := hstep.passes hp
      cases step' with
      | text => exact hp'.elim
      | named => exact leads_named_cons_iff.mpr ⟨node, below, rfl, hp', ih hrest⟩

/-- Down to the first step for texts, each step lets the node of its level pass. -/
theorem Leads.exists_passes {steps : List Step} {chain : List Node} {level : Nat} {step : Step}
    (h : Leads steps chain) (hs : steps[level]? = some step) (hstep : step.isText = false)
    (ht : ∀ earlier ∈ steps.take level, earlier.isText = false) :
    ∃ node, chain[level]? = some node ∧ step.Passes node := by
  induction steps generalizing chain level with
  | nil => simp at hs
  | cons first rest ih =>
    have hfirst : first.isText = false := by
      cases level with
      | zero =>
        obtain rfl : first = step := by simpa using hs
        exact hstep
      | succ level => exact ht first (by simp)
    cases first with
    | text => cases hfirst
    | named name predicates =>
      obtain ⟨node, below, rfl, hp, hrest⟩ := leads_named_cons_iff.mp h
      cases level with
      | zero =>
        obtain rfl : Step.named name predicates = step := by simpa using hs
        exact ⟨node, rfl, hp⟩
      | succ level =>
        rw [List.getElem?_cons_succ] at hs ⊢
        exact ih hrest hs fun earlier hm => ht earlier (List.mem_cons_of_mem _ hm)

/-! ## Narrow paths -/

namespace Path
variable {left right narrow wide : Path} {root : Node} {place : Place}

/-- The paths have as many steps, and these ask for the same kinds and names in turn. -/
def SameNames (left right : Path) : Prop :=
  left.steps.map Step.name? = right.steps.map Step.name?

/-- Every step of the narrow path narrows the step of its level in the wide one. -/
def Narrows (narrow wide : Path) : Prop := List.Forall₂ Step.Narrows narrow.steps wide.steps

/-- At some level, above the first step for texts, the paths ask for different values of one
child. -/
def Clashes (left right : Path) : Prop :=
  ∃ level step other, left.steps[level]? = some step ∧ right.steps[level]? = some other ∧
    (∀ earlier ∈ left.steps.take level, earlier.isText = false) ∧
    ∃ first ∈ step.predicates, ∃ second ∈ other.predicates,
      first.child = second.child ∧ first.value ≠ second.value

/-- **A narrow path matches no more than a wide one.** -/
theorem Narrows.matches (h : narrow.Narrows wide) (hm : narrow.Matches root place) :
    wide.Matches root place := by
  obtain ⟨chain, hc, hl, hleads⟩ := hm
  exact ⟨chain, hc, hl, hleads.of_narrows h⟩

/-- Two paths that narrow one another yield the same. -/
theorem evaluate_eq_of_narrows (h : left.Narrows right) (h' : right.Narrows left) :
    left.evaluate root = right.evaluate root :=
  evaluate_eq_of_matches_iff fun _ => ⟨h.matches, h'.matches⟩

/-- Paths that clash match no place together. -/
theorem Clashes.address_ne {other : Place} (h : left.Clashes right) (hn : left.SameNames right)
    (hl : left.Matches root place) (hr : right.Matches root other) :
    place.address ≠ other.address := by
  intro haddress
  obtain ⟨level, step, step', hs, hs', ht, first, hfirst, second, hsecond, hchild, hvalue⟩ := h
  obtain ⟨chain, hc, -, hleads⟩ := hl
  obtain ⟨chain', hc', -, hleads'⟩ := hr
  obtain rfl : chain = chain' := by
    rw [haddress, hc'] at hc
    exact (Option.some.inj hc).symm
  obtain ⟨node, hnode, hp⟩ := hleads.exists_passes hs (Step.isText_of_mem_predicates hfirst) ht
  obtain ⟨node', hnode', hp'⟩ := hleads'.exists_passes hs'
    (Step.isText_of_mem_predicates hsecond) (Step.isText_of_mem_take hn ht)
  -- one node would have to pass both steps
  obtain rfl : node = node' := Option.some.inj (hnode.symm.trans hnode')
  exact hvalue (Predicate.value_eq_of_holds (hp.holds hfirst) (hp'.holds hsecond) hchild)

/-- **Predicates act as a set and only narrow.**  Let two paths have the same kinds of steps
and the same names.  If they have the same predicates at each step, in whatever order and
number, they yield the same list.  If the second path has all predicates of the first one,
what it yields is matched by the first path, and covered by something that the first path
yields.  If at some step they ask for different values of one child, they yield nothing in
common. -/
theorem evaluate_predicates {left right : Path} (root : Node) (hn : left.SameNames right) :
    (List.Forall₂ (fun step other => ∀ predicate,
        predicate ∈ step.predicates ↔ predicate ∈ other.predicates) left.steps right.steps →
      left.evaluate root = right.evaluate root) ∧
    (List.Forall₂ (fun step other => step.predicates ⊆ other.predicates)
        left.steps right.steps →
      ∀ place ∈ right.evaluate root, left.Matches root place ∧
        ∃ kept ∈ left.evaluate root, kept.node.covers place.node = true) ∧
    (left.Clashes right →
      ∀ place ∈ left.evaluate root, ∀ other ∈ right.evaluate root,
        place.address ≠ other.address) := by
  refine ⟨fun hp => ?same, fun hp => ?narrow, fun hclash => ?clash⟩
  case same =>
    have hleft : left.Narrows right :=
      Step.forall₂_narrows hn (hp.imp fun _ _ h predicate => (h predicate).mpr)
    have hright : right.Narrows left :=
      Step.forall₂_narrows hn.symm (hp.imp fun _ _ h predicate => (h predicate).mp).flip
    exact evaluate_eq_of_narrows hleft hright
  case narrow =>
    intro place hm
    have hnarrows : right.Narrows left := Step.forall₂_narrows hn.symm hp.flip
    have hmatches := hnarrows.matches (matches_of_mem_evaluate hm)
    exact ⟨hmatches, hmatches.exists_covers⟩
  case clash =>
    intro place hm other hm'
    exact hclash.address_ne hn (matches_of_mem_evaluate hm) (matches_of_mem_evaluate hm')

/-- The three items below have the same first texts in pairs. -/
theorem evaluate_predicates_items :
    let path (predicates : List Predicate) : Path :=
      ⟨[.named "r" [], .named "a" predicates], by simp⟩
    let item (first second : String) :=
      Node.element "a" [.element "c" [.text first], .element "d" [.text second]]
    let root := Node.element "r" [item "1" "x", item "1" "y", item "2" "x"]
    (path [⟨"c", "1"⟩, ⟨"d", "x"⟩]).evaluate root =
        (path [⟨"d", "x"⟩, ⟨"c", "1"⟩, ⟨"d", "x"⟩]).evaluate root ∧
      (∃ kept ∈ (path [⟨"c", "1"⟩]).evaluate root, kept.node.covers (item "1" "y") = true) ∧
      ∀ place ∈ (path [⟨"c", "1"⟩]).evaluate root,
        ∀ other ∈ (path [⟨"c", "2"⟩]).evaluate root, place.address ≠ other.address := by
  intro path item root
  have hnames (predicates predicates' : List Predicate) :
      (path predicates).SameNames (path predicates') := rfl
  have hsame := (evaluate_predicates root (hnames [⟨"c", "1"⟩, ⟨"d", "x"⟩]
    [⟨"d", "x"⟩, ⟨"c", "1"⟩, ⟨"d", "x"⟩])).1 (by simp [path, Step.predicates])
  have hnarrow := (evaluate_predicates root (hnames [⟨"c", "1"⟩]
    [⟨"d", "y"⟩, ⟨"c", "1"⟩])).2.1 (by simp [path, Step.predicates])
  have hyields : ⟨[1], item "1" "y"⟩ ∈ (path [⟨"d", "y"⟩, ⟨"c", "1"⟩]).evaluate root := by
    decide
  have hclashes : (path [⟨"c", "1"⟩]).Clashes (path [⟨"c", "2"⟩]) :=
    ⟨1, _, _, rfl, rfl, by simp [path, Step.isText], _, List.mem_cons_self, _,
      List.mem_cons_self, rfl, by decide⟩
  have hclash := (evaluate_predicates root (hnames [⟨"c", "1"⟩] [⟨"c", "2"⟩])).2.2 hclashes
  exact ⟨hsame, (hnarrow _ hyields).2, hclash⟩

/-- A narrow path may yield more than a wide one: without the predicate, the first child is
kept and covers the two others. -/
example :
    let path (predicates : List Predicate) : Path :=
      ⟨[.named "r" [], .named "a" predicates], by simp⟩
    let key (value : String) := Node.element "k" [.text value]
    let root := Node.element "r" [
      .element "a" [key "2", key "1", .element "b" []],
      .element "a" [key "1", key "2", key "2"],
      .element "a" [key "1", .element "b" [], .element "b" []]]
    ((path []).evaluate root).map (·.address) = [[0]] ∧
      ((path [⟨"k", "1"⟩]).evaluate root).map (·.address) = [[1], [2]] := by
  decide

end Path
end TagPath
