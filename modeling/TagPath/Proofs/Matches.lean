import Mathlib
import TagPath.Proofs.Selections
import TagPath.Proofs.Forest

/-! # The matches of a path

What a path asks for can be said about the nodes on the way from the root down to a
place.  If the path has no step for texts, it asks for one node for each step, and each
of them answers to the name of its step and meets its predicates.  Otherwise it asks for
a text where its first step for texts is, and for such nodes above it; steps behind that
one ask for nothing (`Path.Matches`).

Evaluation finds the matches in document order (`mem_selectionsFrom_iff`,
`selectionsFrom_sublist`), which is the lexicographic order of addresses
(`pairwise_before_places`).  It keeps a match unless one that it kept before covers it
(`mem_keepUncovered_iff`).  Both together say what a path yields, without the order in
which the tree is walked through and without what is kept on the way (`Path.evaluate_exact`).
-/
namespace TagPath

/-! ## Document order -/

/-- One place stands before another in document order: at the first level where their
addresses part it lies further left, or it lies above the other. -/
def Place.Before (first second : Place) : Prop := first.address < second.address

theorem Place.not_before_self (place : Place) : ¬ place.Before place :=
  List.lt_irrefl place.address

theorem Place.Before.asymm {first second : Place} (h : first.Before second) :
    ¬ second.Before first :=
  List.lt_asymm h

theorem Place.Before.trans {first second third : Place} (h : first.Before second)
    (h' : second.Before third) : first.Before third :=
  List.lt_trans h h'

instance : Std.Asymm Place.Before := ⟨fun _ _ => Place.Before.asymm⟩

theorem Place.before_below_iff {index : Nat} {first second : Place} :
    (first.below index).Before (second.below index) ↔ first.Before second :=
  List.cons_lt_cons_self

namespace Node

/-- A place below the child at some position or a later one begins its address so. -/
theorem address_of_mem_placesBelow {index : Nat} {nodes : List Node} {place : Place}
    (h : place ∈ placesBelow index nodes) :
    ∃ position rest, index ≤ position ∧ place.address = position :: rest := by
  rw [placesBelow_eq_flatMap] at h
  obtain ⟨position, inner, hle, rfl⟩ := exists_of_mem_flatMap_zipIdx h
  exact ⟨position, inner.address, hle, rfl⟩

/-- The places of a first child come before those of the children behind it. -/
theorem pairwise_before_placesBelow_cons {index : Nat} {node : Node} {rest : List Node}
    (hn : node.places.Pairwise Place.Before)
    (hr : (placesBelow (index + 1) rest).Pairwise Place.Before) :
    (placesBelow index (node :: rest)).Pairwise Place.Before := by
  rw [placesBelow, List.pairwise_append]
  refine ⟨?_, hr, ?_⟩
  · rw [List.pairwise_map]
    exact hn.imp Place.before_below_iff.mpr
  · intro first hf second hs
    obtain ⟨inner, -, rfl⟩ := List.mem_map.mp hf
    obtain ⟨position, tail, hle, he⟩ := address_of_mem_placesBelow hs
    rw [Place.Before, he]
    exact List.cons_lt_cons_iff.mpr (.inl (by omega))

theorem pairwise_before_placesBelow (index : Nat) (nodes : List Node) :
    (placesBelow index nodes).Pairwise Place.Before := by
  induction nodes using forestInduction generalizing index with
  | nil => exact List.Pairwise.nil
  | text content rest ih =>
    exact pairwise_before_placesBelow_cons (List.pairwise_singleton _ _) (ih _)
  | element name children rest ihc ihr =>
    refine pairwise_before_placesBelow_cons ?_ (ihr _)
    -- the element itself lies above all places inside
    rw [places, List.pairwise_cons]
    refine ⟨fun place hm => ?_, ihc 0⟩
    obtain ⟨position, tail, -, he⟩ := address_of_mem_placesBelow hm
    rw [Place.Before, he]
    exact List.nil_lt_cons _ _

/-- **The places of a tree are listed in document order.** -/
theorem pairwise_before_places (node : Node) : node.places.Pairwise Place.Before := by
  have h := pairwise_before_placesBelow 0 [node]
  rw [placesBelow, placesBelow, List.append_nil, List.pairwise_map] at h
  exact h.imp Place.before_below_iff.mp

theorem singleton_sublist_places (node : Node) : [Place.root node].Sublist node.places := by
  obtain ⟨rest, he⟩ := List.head?_eq_some_iff.mp (head?_places node)
  rw [he]
  exact (List.nil_sublist rest).cons_cons _

/-! ## Chains -/

/-- The nodes on the way from this node down to an address, both ends included, if the
address leads anywhere. -/
def chain? (node : Node) : Address → Option (List Node)
  | [] => some [node]
  | index :: rest => match node.children[index]? with
    | none => none
    | some child => (child.chain? rest).map (node :: ·)

@[simp] theorem chain?_nil (node : Node) : node.chain? [] = some [node] := by
  rw [chain?]

theorem chain?_cons_eq_some_iff {node : Node} {index : Nat} {rest : Address}
    {chain : List Node} :
    node.chain? (index :: rest) = some chain ↔
      ∃ child below, node.children[index]? = some child ∧ child.chain? rest = some below ∧
        chain = node :: below := by
  rw [chain?]
  cases node.children[index]? with
  | none => simp
  | some child => simp [eq_comm]

theorem length_of_chain? {node : Node} {address : Address} {chain : List Node}
    (h : node.chain? address = some chain) : chain.length = address.length + 1 := by
  induction address generalizing node chain with
  | nil => simp [← Option.some.inj h]
  | cons index rest ih =>
    obtain ⟨child, below, -, hb, rfl⟩ := chain?_cons_eq_some_iff.mp h
    rw [List.length_cons, List.length_cons, ih hb]

end Node

/-! ## What a path asks for -/

/-- A step for a name lets the nodes pass that answer to it and meet all predicates.  A
step for texts lets nothing pass, as there is nothing below a text. -/
def Step.Passes : Step → Node → Prop
  | named name predicates, node =>
      node.name = name ∧ ∀ predicate ∈ predicates, predicate.holds node = true
  | text, _ => False

/-- The nodes of a chain are what the steps ask for, from the root down. -/
def Leads (steps : List Step) (chain : List Node) : Prop :=
  List.Forall₂ Step.Passes steps chain ∨
    ∃ above behind ancestors content, steps = above ++ .text :: behind ∧
      chain = ancestors ++ [.text content] ∧ List.Forall₂ Step.Passes above ancestors

/-- A place, its address counted from a node, is one that some steps ask for. -/
def Selects (steps : List Step) (node : Node) (place : Place) : Prop :=
  ∃ chain, node.chain? place.address = some chain ∧ chain.getLast? = some place.node ∧
    Leads steps chain

/-- A place in a tree is one that a path asks for. -/
def Path.Matches (path : Path) (root : Node) (place : Place) : Prop :=
  Selects path.steps root place

/-- How many levels a path goes down: to its first step for texts, or else to its last
step. -/
def Path.reach (path : Path) : Nat :=
  min (path.steps.findIdx Step.isText) (path.steps.length - 1)

theorem Step.admits_named_iff {name : String} {predicates : List Predicate} {node : Node} :
    (named name predicates).admits node = true ↔ (named name predicates).Passes node := by
  simp [admits, Passes]

theorem leads_nil_iff {chain : List Node} : Leads [] chain ↔ chain = [] := by
  simp [Leads]

theorem leads_text_cons_iff {rest : List Step} {chain : List Node} :
    Leads (.text :: rest) chain ↔ ∃ content, chain = [.text content] := by
  constructor
  · rintro (h | ⟨above, behind, ancestors, content, he, rfl, h⟩)
    · obtain ⟨_, _, hp, -⟩ := List.forall₂_cons_left_iff.mp h
      exact hp.elim
    · cases h with
      | nil => exact ⟨content, rfl⟩
      | cons hp _ =>
        obtain ⟨rfl, -⟩ := List.cons.inj he
        exact hp.elim
  · rintro ⟨content, rfl⟩
    exact .inr ⟨[], rest, [], content, rfl, rfl, .nil⟩

theorem leads_named_cons_iff {name : String} {predicates : List Predicate} {rest : List Step}
    {chain : List Node} :
    Leads (.named name predicates :: rest) chain ↔
      ∃ node below, chain = node :: below ∧ (Step.named name predicates).Passes node ∧
        Leads rest below := by
  constructor
  · rintro (h | ⟨above, behind, ancestors, content, he, rfl, h⟩)
    · obtain ⟨node, below, hp, hr, rfl⟩ := List.forall₂_cons_left_iff.mp h
      exact ⟨node, below, rfl, hp, .inl hr⟩
    · cases h with
      | nil => exact Step.noConfusion (List.cons.inj he).1
      | @cons _ node _ ancestors hp hr =>
        obtain ⟨rfl, rfl⟩ := List.cons.inj he
        exact ⟨node, _, rfl, hp, .inr ⟨_, behind, ancestors, content, rfl, rfl, hr⟩⟩
  · rintro ⟨node, below, rfl, hp, h | ⟨above, behind, ancestors, content, rfl, rfl, h⟩⟩
    · exact .inl (.cons hp h)
    · exact .inr ⟨_ :: above, behind, node :: ancestors, content, rfl, rfl, .cons hp h⟩

/-- A chain that a path asks for ends where the path does. -/
theorem length_of_leads {steps : List Step} {chain : List Node} (hs : steps ≠ [])
    (h : Leads steps chain) :
    chain.length = min (steps.findIdx Step.isText) (steps.length - 1) + 1 := by
  induction steps generalizing chain with
  | nil => exact absurd rfl hs
  | cons step rest ih =>
    cases step with
    | text =>
      obtain ⟨content, rfl⟩ := leads_text_cons_iff.mp h
      simp [List.findIdx_cons, Step.isText]
    | named name predicates =>
      obtain ⟨node, below, rfl, -, hb⟩ := leads_named_cons_iff.mp h
      cases rest with
      | nil =>
        rw [leads_nil_iff.mp hb]
        simp
      | cons next rest =>
        rw [List.length_cons, ih (List.cons_ne_nil _ _) hb]
        simp only [List.findIdx_cons, Step.isText, cond_false, List.length_cons]
        omega

/-! ## Step by step -/

section Step
variable {node : Node} {place : Place} {rest : List Step}
  {name : String} {predicates : List Predicate}

theorem not_selects_nil : ¬ Selects [] node place := by
  rintro ⟨chain, -, hf, hl⟩
  rw [leads_nil_iff.mp hl] at hf
  cases hf

/-- A chain of one node ends where it begins. -/
theorem eq_root_of_chain?_singleton {first : Node}
    (hc : node.chain? place.address = some [first]) (hf : [first].getLast? = some place.node) :
    first = node ∧ place = Place.root node := by
  obtain ⟨address, found⟩ := place
  have hl := Node.length_of_chain? hc
  obtain rfl : address = [] := by simpa using hl
  obtain rfl : node = first := by simpa using hc
  obtain rfl : node = found := by simpa using hf
  exact ⟨rfl, rfl⟩

/-- A step for texts asks for the node itself, if it is a text. -/
theorem selects_text_cons_iff :
    Selects (.text :: rest) node place ↔ node.isText = true ∧ place = Place.root node := by
  constructor
  · rintro ⟨chain, hc, hf, hl⟩
    obtain ⟨content, rfl⟩ := leads_text_cons_iff.mp hl
    obtain ⟨rfl, he⟩ := eq_root_of_chain?_singleton hc hf
    exact ⟨rfl, he⟩
  · rintro ⟨ht, rfl⟩
    obtain ⟨content, rfl⟩ := Node.isText_iff.mp ht
    exact ⟨_, Node.chain?_nil _, rfl, leads_text_cons_iff.mpr ⟨content, rfl⟩⟩

/-- A step for a name, if it is the last one, asks for the node itself. -/
theorem selects_named_singleton_iff :
    Selects [.named name predicates] node place ↔
      (Step.named name predicates).Passes node ∧ place = Place.root node := by
  constructor
  · rintro ⟨chain, hc, hf, hl⟩
    obtain ⟨first, below, rfl, hp, hb⟩ := leads_named_cons_iff.mp hl
    obtain rfl := leads_nil_iff.mp hb
    obtain ⟨rfl, he⟩ := eq_root_of_chain?_singleton hc hf
    exact ⟨hp, he⟩
  · rintro ⟨hp, rfl⟩
    exact ⟨_, Node.chain?_nil _, rfl,
      leads_named_cons_iff.mpr ⟨node, [], rfl, hp, leads_nil_iff.mpr rfl⟩⟩

/-- Before other steps, a step for a name asks for what they ask for in a child. -/
theorem selects_named_cons_iff (hr : rest ≠ []) :
    Selects (.named name predicates :: rest) node place ↔
      (Step.named name predicates).Passes node ∧
        ∃ index child inner, node.children[index]? = some child ∧ Selects rest child inner ∧
          place = inner.below index := by
  constructor
  · rintro ⟨chain, hc, hf, hl⟩
    obtain ⟨first, below, rfl, hp, hb⟩ := leads_named_cons_iff.mp hl
    -- some step follows, so the chain goes on below the node
    have hlength := length_of_leads hr hb
    obtain ⟨next, below, rfl⟩ := List.exists_cons_of_length_eq_add_one hlength
    obtain ⟨address, found⟩ := place
    cases address with
    | nil => simp at hc
    | cons index tail =>
      obtain ⟨child, _, hchild, htail, he⟩ := Node.chain?_cons_eq_some_iff.mp hc
      obtain ⟨rfl, rfl⟩ := List.cons.inj he
      rw [List.getLast?_cons_cons] at hf
      exact ⟨hp, index, child, ⟨tail, found⟩, hchild, ⟨_, htail, hf, hb⟩, rfl⟩
  · rintro ⟨hp, index, child, inner, hchild, ⟨below, hc, hf, hl⟩, rfl⟩
    refine ⟨node :: below, Node.chain?_cons_eq_some_iff.mpr ⟨child, below, hchild, hc, rfl⟩, ?_,
      leads_named_cons_iff.mpr ⟨node, below, rfl, hp, hl⟩⟩
    rw [List.getLast?_cons, hf]
    rfl

end Step

/-! ## The walk through the tree -/

/-- **The walk finds the places that the steps ask for, and no others.** -/
theorem mem_selectionsFrom_iff {steps : List Step} {node : Node} {place : Place} :
    place ∈ selectionsFrom steps node ↔ Selects steps node place := by
  induction steps generalizing node place with
  | nil => simp [selectionsFrom, not_selects_nil]
  | cons step rest ih =>
    cases step with
    | text =>
      rw [selects_text_cons_iff, selectionsFrom]
      simp [Step.admits, Step.isText]
    | named name predicates =>
      by_cases hr : rest = []
      · subst hr
        rw [selects_named_singleton_iff, selectionsFrom, ← Step.admits_named_iff]
        simp
      · rw [selects_named_cons_iff hr, selectionsFrom, ← Step.admits_named_iff]
        simp only [Step.isText, List.isEmpty_eq_false_iff.mpr hr, Bool.or_self,
          Bool.false_eq_true, if_false, ← ih]
        rw [← Node.mem_flatMap_zipIdx_iff]
        simp

/-- **The walk goes in document order.** -/
theorem selectionsFrom_sublist (steps : List Step) (node : Node) :
    (selectionsFrom steps node).Sublist node.places := by
  induction steps generalizing node with
  | nil => exact List.nil_sublist _
  | cons step rest ih =>
    rw [selectionsFrom]
    split
    · split
      · exact node.singleton_sublist_places
      · cases node with
        | text content => exact List.nil_sublist _
        | element name children =>
          rw [Node.children_element, Node.places, Node.placesBelow_eq_flatMap]
          refine List.Sublist.cons _ (List.Sublist.flatMap_right _ fun entry _ => ?_)
          exact (ih entry.1).map _
    · exact List.nil_sublist _

/-! ## What is kept -/

/-- Induction over places as they are kept: after the first one, those go on that it
does not cover. -/
theorem keepInduction {motive : List Place → Prop} (nil : motive [])
    (cons : ∀ place rest, motive (rest.filter fun other => !place.node.covers other.node) →
      motive (place :: rest)) : ∀ places, motive places
  | [] => nil
  | place :: rest => cons place rest (keepInduction nil cons _)
termination_by places => places.length
decreasing_by exact Nat.lt_succ_of_le (List.length_filter_le _ _)

theorem keepUncovered_sublist (places : List Place) :
    (keepUncovered places).Sublist places := by
  induction places using keepInduction with
  | nil => rw [keepUncovered_nil]
  | cons place rest ih =>
    rw [keepUncovered_cons]
    exact (ih.trans List.filter_sublist).cons_cons place

/-- No place that is kept covers one that is kept later. -/
theorem pairwise_keepUncovered (places : List Place) :
    (keepUncovered places).Pairwise fun kept later => kept.node.covers later.node = false := by
  induction places using keepInduction with
  | nil => rw [keepUncovered_nil]; exact List.Pairwise.nil
  | cons place rest ih =>
    rw [keepUncovered_cons, List.pairwise_cons]
    refine ⟨fun later hm => ?_, ih⟩
    have hfilter := (keepUncovered_sublist _).subset hm
    simpa using (List.mem_filter.mp hfilter).2

/-- Every place is covered by one that is kept. -/
theorem exists_covers_of_mem {places : List Place} {place : Place} (h : place ∈ places) :
    ∃ kept ∈ keepUncovered places, kept.node.covers place.node = true := by
  induction places using keepInduction with
  | nil => simp at h
  | cons first rest ih =>
    rw [keepUncovered_cons]
    by_cases hc : first.node.covers place.node = true
    · exact ⟨first, List.mem_cons_self, hc⟩
    · rcases List.mem_cons.mp h with rfl | h
      · exact absurd place.node.covers_refl hc
      · obtain ⟨kept, hm, hk⟩ := ih (List.mem_filter.mpr ⟨h, by simpa using hc⟩)
        exact ⟨kept, List.mem_cons_of_mem _ hm, hk⟩

/-- **A place is kept unless one that was kept before covers it.** -/
theorem mem_keepUncovered_iff {places : List Place} {place : Place}
    (ho : places.Pairwise Place.Before) :
    place ∈ keepUncovered places ↔
      place ∈ places ∧ ∀ kept ∈ keepUncovered places, kept.Before place →
        kept.node.covers place.node = false := by
  induction places using keepInduction with
  | nil => simp
  | cons first rest ih =>
    obtain ⟨hfirst, hrest⟩ := List.pairwise_cons.mp ho
    have ih := ih (hrest.sublist List.filter_sublist)
    have hsub : ∀ kept ∈ keepUncovered (rest.filter fun other =>
        !first.node.covers other.node), kept ∈ rest :=
      fun kept hk => List.mem_of_mem_filter ((keepUncovered_sublist _).subset hk)
    rw [keepUncovered_cons, List.mem_cons, List.mem_cons]
    constructor
    · rintro (rfl | hm)
      · -- nothing stands before the first place
        refine ⟨.inl rfl, fun kept hk hb => ?_⟩
        rcases List.mem_cons.mp hk with rfl | hk
        · exact absurd hb kept.not_before_self
        · exact absurd hb (hfirst kept (hsub kept hk)).asymm
      · obtain ⟨hf, hall⟩ := ih.mp hm
        obtain ⟨hr, hc⟩ := List.mem_filter.mp hf
        refine ⟨.inr hr, fun kept hk hb => ?_⟩
        rcases List.mem_cons.mp hk with rfl | hk
        · simpa using hc
        · exact hall kept hk hb
    · rintro ⟨rfl | hr, hall⟩
      · exact .inl rfl
      · have hc := hall first List.mem_cons_self (hfirst place hr)
        refine .inr (ih.mpr ⟨List.mem_filter.mpr ⟨hr, by simpa using hc⟩, fun kept hk => ?_⟩)
        exact hall kept (List.mem_cons_of_mem _ hk)

/-! ## Evaluation -/

namespace Path
variable {path : Path} {root : Node} {place : Place}

theorem mem_selections_iff : place ∈ path.selections root ↔ path.Matches root place :=
  mem_selectionsFrom_iff

theorem pairwise_before_selections (path : Path) (root : Node) :
    (path.selections root).Pairwise Place.Before :=
  root.pairwise_before_places.sublist (selectionsFrom_sublist path.steps root)

theorem evaluate_sublist_selections (path : Path) (root : Node) :
    (path.evaluate root).Sublist (path.selections root) := by
  rw [evaluate_eq_keepUncovered]
  exact keepUncovered_sublist _

theorem matches_of_mem_evaluate (h : place ∈ path.evaluate root) : path.Matches root place :=
  mem_selections_iff.mp ((evaluate_sublist_selections path root).subset h)

/-- What a path matches is covered by something that it yields. -/
theorem Matches.exists_covers (h : path.Matches root place) :
    ∃ kept ∈ path.evaluate root, kept.node.covers place.node = true := by
  rw [evaluate_eq_keepUncovered]
  exact exists_covers_of_mem (mem_selections_iff.mpr h)

/-- Paths that match the same places of a tree yield the same ones in the same order. -/
theorem evaluate_eq_of_matches_iff {left right : Path}
    (h : ∀ place, left.Matches root place ↔ right.Matches root place) :
    left.evaluate root = right.evaluate root := by
  have hselections : left.selections root = right.selections root := by
    have hleft := pairwise_before_selections left root
    refine hleft.eq_of_mem_iff (pairwise_before_selections right root) fun place => ?_
    rw [mem_selections_iff, mem_selections_iff, h place]
  rw [evaluate_eq_keepUncovered, evaluate_eq_keepUncovered, hselections]

/-- All matches of a path lie at one depth. -/
theorem Matches.length_address (h : path.Matches root place) :
    place.address.length = path.reach := by
  obtain ⟨chain, hc, -, hl⟩ := h
  have hchain := Node.length_of_chain? hc
  have hsteps := length_of_leads path.steps_ne_nil hl
  rw [reach]
  omega

/-- **A path yields its matches in document order, without those that a match kept before
covers.**  All of them lie at the depth that the path reaches; no kept one covers a later
one, and every match is covered by a kept one. -/
theorem evaluate_exact (path : Path) (root : Node) :
    (path.evaluate root).Sublist root.places ∧
      (∀ place, place ∈ path.evaluate root ↔
        path.Matches root place ∧ ∀ kept ∈ path.evaluate root, kept.Before place →
          kept.node.covers place.node = false) ∧
      (∀ place ∈ path.evaluate root, place.address.length = path.reach) ∧
      ((path.evaluate root).Pairwise fun kept later =>
        kept.node.covers later.node = false) ∧
      ∀ place, path.Matches root place →
        ∃ kept ∈ path.evaluate root, kept.node.covers place.node = true := by
  refine ⟨(evaluate_sublist_selections path root).trans (selectionsFrom_sublist path.steps root),
    fun place => ?_, fun place hm => (matches_of_mem_evaluate hm).length_address, ?_,
    fun place hm => hm.exists_covers⟩
  · rw [← mem_selections_iff, evaluate_eq_keepUncovered]
    exact mem_keepUncovered_iff (pairwise_before_selections path root)
  · rw [evaluate_eq_keepUncovered]
    exact pairwise_keepUncovered _

/-- Covering is one-sided, so the order of the matches decides what is kept. -/
example :
    let path : Path := ⟨[.named "r" [], .named "a" []], by simp⟩
    let mixed := Node.element "a" [.element "b" [], .element "c" []]
    let twice := Node.element "a" [.element "b" [], .element "b" []]
    (path.evaluate (.element "r" [mixed, twice])).map (·.address) = [[0]] ∧
      (path.evaluate (.element "r" [twice, mixed])).map (·.address) = [[0], [1]] := by
  decide

end Path

end TagPath
