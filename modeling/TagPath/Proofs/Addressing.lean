import Mathlib
import TagPath.Proofs.Matches
import TagPath.Proofs.PathSpelling

/-! # Addressing a node by names

The way from the root down to a node passes some stops: the nodes of a chain, each with
predicates that hold on it (`Stop`).  The names of the stops, with their predicates in
brackets, joined by separators make the text of a path.  A name may not hold a separator
or a bracket, may not be `text()`, and the last one may not be empty behind others, as a
separator at the end is dropped; the predicates must be legible (`Stop.Askable`).

Then the text is compiled to one step for each stop (`Path.read_intercalate_source`), and
the node at the end of the chain is a match, so some match that is kept covers it.  As
each of the steps asks for a name, all matches lie as deep as the node does, below nodes
of the same names (`map_name_of_forall₂_passes`).  In short, **every node is addressed by
the names on the way to it** (`Path.read_source_and_evaluate`).
-/
namespace TagPath
open Text

/-! ## Stops -/

/-- Two readings of one list, related member by member. -/
theorem forall₂_map_of_forall {α β γ : Type} {R : β → γ → Prop} {f : α → β} {g : α → γ}
    {members : List α} (h : ∀ member ∈ members, R (f member) (g member)) :
    List.Forall₂ R (members.map f) (members.map g) := by
  apply List.forall₂_map_left_iff.mpr
  apply List.forall₂_map_right_iff.mpr
  exact List.forall₂_same.mpr h

/-- A node on the way down from the root, and the predicates that a path asks it for. -/
structure Stop where
  node : Node
  predicates : List Predicate := []

namespace Stop

/-- The step for the stop's name and predicates. -/
def step (stop : Stop) : Step := .named stop.node.name stop.predicates

/-- The text of that step: the name alone, or the name and the predicates behind it. -/
def source (stop : Stop) : String :=
  stop.node.name ++ String.join (stop.predicates.map Predicate.render)

/-- What lets the stop be asked for: the name and the predicates can be written in a path,
and for each predicate, the first child of that name has that first text. -/
structure Askable (stop : Stop) : Prop where
  name_separator : stepSeparator ∉ stop.node.name.toList
  name_opening : '[' ∉ stop.node.name.toList
  name_closing : ']' ∉ stop.node.name.toList
  name_ne : stop.node.name ≠ "text()"
  legible : ∀ predicate ∈ stop.predicates, predicate.Legible
  child_separator : ∀ predicate ∈ stop.predicates, stepSeparator ∉ predicate.child.toList
  value_separator : ∀ predicate ∈ stop.predicates, stepSeparator ∉ predicate.value.toList
  answer : ∀ predicate ∈ stop.predicates, ∃ child,
    stop.node.child? predicate.child = some child ∧
      child.textNode? = some (.text predicate.value)

end Stop

/-- A predicate holds exactly where the first child of its name has its value as the first
text. -/
theorem Predicate.holds_iff_textNode? {predicate : Predicate} {node : Node} :
    predicate.holds node = true ↔ ∃ child, node.child? predicate.child = some child ∧
      child.textNode? = some (.text predicate.value) := by
  rw [holds_iff, found?]
  cases node.child? predicate.child with
  | none => simp
  | some child =>
    cases ht : child.textNode? with
    | none => simp [ht]
    | some text =>
      obtain ⟨content, rfl⟩ := Node.isText_iff.mp (Node.isText_of_textNode? ht)
      simp [ht, Node.content?]

namespace Stop
variable {stop : Stop} {stops : List Stop}

theorem toList_source (stop : Stop) : stop.source.toList = stop.step.written := by
  rw [source, step, Step.written, String.toList_append, String.toList_join, List.flatMap_map]
  simp [Predicate.render]

/-- The stop's node is let pass by its step. -/
theorem Askable.passes (h : stop.Askable) : stop.step.Passes stop.node :=
  ⟨rfl, fun predicate hm => Predicate.holds_iff_textNode?.mpr (h.answer predicate hm)⟩

theorem Askable.spells (h : stop.Askable) : SpellsStep stop.step.written stop.step :=
  SpellsStep.named h.name_opening h.name_closing h.name_ne h.legible

/-- There is no separator in the text of a stop. -/
theorem Askable.separator_not_mem (h : stop.Askable) : stepSeparator ∉ stop.step.written := by
  rw [step, Step.written, List.mem_append, not_or]
  refine ⟨h.name_separator, fun hm => ?_⟩
  obtain ⟨predicate, hp, hm⟩ := List.mem_flatMap.mp hm
  have hchild := h.child_separator predicate hp
  have hvalue := h.value_separator predicate hp
  simp only [Predicate.written, stepSeparator] at hm hchild hvalue
  simp [hchild, hvalue] at hm

/-- The texts of some stops are parts of a path, if the last name is not empty or stands
alone. -/
theorem areParts_map_written (hne : stops ≠ []) (hs : ∀ stop ∈ stops, stop.Askable)
    (hlast : ∀ last ∈ stops.tail.getLast?, last.node.name ≠ "") :
    AreParts (stops.map fun stop => stop.step.written) := by
  refine ⟨by simpa using hne, fun part hm => ?_, fun part hm hnil => ?_⟩
  · obtain ⟨stop, hstop, rfl⟩ := List.mem_map.mp hm
    exact (hs stop hstop).separator_not_mem
  · rw [← List.map_tail, List.getLast?_map] at hm
    obtain ⟨last, hl, rfl⟩ := Option.map_eq_some_iff.mp hm
    rw [step, Step.written, List.append_eq_nil_iff] at hnil
    exact hlast last hl (String.toList_eq_nil_iff.mp hnil.1)

end Stop

/-! ## Steps that ask for names -/

/-- Steps none of which is for texts ask for one node each. -/
theorem leads_iff_of_not_isText {steps : List Step} {chain : List Node}
    (h : ∀ step ∈ steps, step.isText = false) :
    Leads steps chain ↔ List.Forall₂ Step.Passes steps chain := by
  refine ⟨fun hl => ?_, .inl⟩
  rcases hl with hl | ⟨above, behind, ancestors, content, rfl, -, -⟩
  · exact hl
  · have htext := h .text (by simp)
    cases htext

/-- Nodes that the steps of some stops let pass have the names of the stops. -/
theorem map_name_of_forall₂_passes {stops : List Stop} {chain : List Node}
    (h : List.Forall₂ Step.Passes (stops.map Stop.step) chain) :
    chain.map Node.name = stops.map (·.node.name) := by
  induction stops generalizing chain with
  | nil =>
    cases h
    rfl
  | cons stop rest ih =>
    cases h with
    | cons hp hrest => rw [List.map_cons, List.map_cons, hp.1, ih hrest]

/-- Behind a first stop, the last one is not at the root. -/
theorem Stop.name_ne_of_mem_getLast?_tail {stops : List Stop} {last : Stop} {address : Address}
    (hlength : stops.length = address.length + 1) (hl : stops.getLast? = some last)
    (hn : last.node.name ≠ "" ∨ address = []) :
    ∀ final ∈ stops.tail.getLast?, final.node.name ≠ "" := by
  intro final hf
  cases stops with
  | nil => cases hl
  | cons first rest =>
    rw [List.tail_cons] at hf
    rw [List.getLast?_cons, Option.mem_def.mp hf] at hl
    obtain rfl : final = last := by simpa using hl
    rcases hn with hn | rfl
    · exact hn
    · obtain rfl : rest = [] := by simpa using hlength
      cases hf

namespace Path
variable {stops : List Stop} {root : Node} {place : Place}

/-- The path of the steps for some stops. -/
def ofStops (stops : List Stop) (hne : stops ≠ []) : Path :=
  ⟨stops.map Stop.step, by simpa using hne⟩

/-- **The texts of some stops, joined by separators, are compiled to their steps.** -/
theorem read_intercalate_source (hne : stops ≠ []) (hs : ∀ stop ∈ stops, stop.Askable)
    (hlast : ∀ last ∈ stops.tail.getLast?, last.node.name ≠ "") :
    Path.read (some ("/".intercalate (stops.map Stop.source))) = .ok (ofStops stops hne) := by
  have hparts := Stop.areParts_map_written hne hs hlast
  have htext : ("/".intercalate (stops.map Stop.source)).toList =
      [stepSeparator].intercalate (stops.map fun stop => stop.step.written) := by
    rw [String.toList_intercalate, List.map_map]
    congr 1
    exact List.map_congr_left fun stop _ => stop.toList_source
  exact read_of_areParts hparts htext (forall₂_map_of_forall fun stop hm => (hs stop hm).spells)

/-- The path of some stops matches at the end of each chain that its steps let pass. -/
theorem matches_ofStops_iff {hne : stops ≠ []} :
    (ofStops stops hne).Matches root place ↔
      ∃ chain, root.chain? place.address = some chain ∧ chain.getLast? = some place.node ∧
        List.Forall₂ Step.Passes (stops.map Stop.step) chain := by
  have hsteps : ∀ step ∈ stops.map Stop.step, step.isText = false := by
    intro step hm
    obtain ⟨stop, -, rfl⟩ := List.mem_map.mp hm
    rfl
  apply exists_congr
  intro chain
  show _ ∧ _ ∧ Leads (stops.map Stop.step) chain ↔ _
  rw [leads_iff_of_not_isText hsteps]

/-- A chain of stops is matched at its end. -/
theorem matches_ofStops (hne : stops ≠ []) {address : Address} {last : Stop}
    (hc : root.chain? address = some (stops.map (·.node))) (hl : stops.getLast? = some last)
    (hs : ∀ stop ∈ stops, stop.Askable) :
    (ofStops stops hne).Matches root ⟨address, last.node⟩ := by
  apply matches_ofStops_iff.mpr
  refine ⟨stops.map (·.node), hc, by simp [hl], ?_⟩
  exact forall₂_map_of_forall fun stop hm => (hs stop hm).passes

/-- **Every node is addressed by the names on the way to it.**  The names of the nodes from
the root down, joined by separators, are compiled to one step for each of them.  What the
path yields lies at the node's depth below nodes of the same names, and something of it
covers the node.  Names may be followed by predicates that hold on their nodes. -/
theorem read_source_and_evaluate {address : Address} {last : Stop}
    (hc : root.chain? address = some (stops.map (·.node))) (hl : stops.getLast? = some last)
    (hn : last.node.name ≠ "" ∨ address = []) (hs : ∀ stop ∈ stops, stop.Askable) :
    ∃ path, Path.read (some ("/".intercalate (stops.map Stop.source))) = .ok path ∧
      path.steps = stops.map Stop.step ∧ path.steps.length = address.length + 1 ∧
      (∃ kept ∈ path.evaluate root, kept.node.covers last.node = true) ∧
      ∀ place ∈ path.evaluate root, place.address.length = address.length ∧
        ∃ chain, root.chain? place.address = some chain ∧
          chain.getLast? = some place.node ∧
          chain.map Node.name = stops.map (·.node.name) := by
  have hlength : stops.length = address.length + 1 := by
    simpa using Node.length_of_chain? hc
  have hne : stops ≠ [] := List.ne_nil_of_length_eq_add_one hlength
  have hlast := Stop.name_ne_of_mem_getLast?_tail hlength hl hn
  have hmatch := matches_ofStops hne hc hl hs
  refine ⟨ofStops stops hne, read_intercalate_source hne hs hlast, rfl,
    by simpa [ofStops] using hlength, hmatch.exists_covers, fun place hm => ?_⟩
  obtain ⟨chain, hchain, hfinal, hpasses⟩ :=
    matches_ofStops_iff.mp (matches_of_mem_evaluate hm)
  have hchainlength := Node.length_of_chain? hchain
  have hpasseslength := hpasses.length_eq
  rw [List.length_map] at hpasseslength
  exact ⟨by omega, chain, hchain, hfinal, map_name_of_forall₂_passes hpasses⟩

/-- The text below asks the second stop for a predicate, which tells it from its sibling. -/
theorem read_source_and_evaluate_second :
    ∃ path, Path.read (some "r/a b[c= 2[]/d") = .ok path ∧
      path.steps = [.named "r" [], .named "a b" [⟨"c", " 2["⟩], .named "d" []] ∧
      ∃ kept ∈ path.evaluate (.element "r" [
          .element "a b" [.element "c" [.text "1"], .element "d" []],
          .element "a b" [.element "c" [.text " 2["], .element "d" [.text "x"]]]),
        kept.node.covers (.element "d" [.text "x"]) = true := by
  let target := Node.element "d" [.text "x"]
  let second := Node.element "a b" [.element "c" [.text " 2["], target]
  let root := Node.element "r"
    [.element "a b" [.element "c" [.text "1"], .element "d" []], second]
  let stops : List Stop := [⟨root, []⟩, ⟨second, [⟨"c", " 2["⟩]⟩, ⟨target, []⟩]
  have hc : root.chain? [1, 1] = some (stops.map (·.node)) := by decide
  have hlegible : (⟨"c", " 2["⟩ : Predicate).Legible :=
    ⟨⟨by decide, by decide, by decide⟩, ⟨by decide, by decide, by decide⟩,
      by simpa using (by decide : isBlank 'c' = false),
      by simpa using (by decide : isBlank '[' = false)⟩
  have hroot : (⟨root, []⟩ : Stop).Askable :=
    ⟨by decide, by decide, by decide, by decide, nofun, nofun, nofun, nofun⟩
  have hsecond : (⟨second, [⟨"c", " 2["⟩]⟩ : Stop).Askable :=
    ⟨by decide, by decide, by decide, by decide, List.forall_mem_singleton.mpr hlegible,
      by decide, by decide, List.forall_mem_singleton.mpr ⟨_, rfl, rfl⟩⟩
  have htarget : (⟨target, []⟩ : Stop).Askable :=
    ⟨by decide, by decide, by decide, by decide, nofun, nofun, nofun, nofun⟩
  have hs : ∀ stop ∈ stops, stop.Askable := by
    simp only [stops, List.forall_mem_cons]
    exact ⟨hroot, hsecond, htarget, nofun⟩
  have hl : stops.getLast? = some ⟨target, []⟩ := rfl
  obtain ⟨path, hread, hsteps, -, hkept, -⟩ :=
    read_source_and_evaluate hc hl (.inl (by decide)) hs
  have htext : "/".intercalate (stops.map Stop.source) = "r/a b[c= 2[]/d" := by decide
  rw [htext] at hread
  exact ⟨path, hread, hsteps, hkept⟩

end Path
end TagPath
