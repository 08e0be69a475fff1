import Mathlib
import TagPath.Path.Extraction
import TagPath.Proofs.CoveredMatches

/-! # Texts among the matches

A text is covered by equal texts only.  So of several equal texts that a path matches the
first one is kept, and no others: what a path yields as strings lists the texts of all
matched text nodes, each once, in the order in which they first stand in the document
(`ListsTexts`), and no other list does (`ListsTexts.eq`).

Whether there are any is a matter of the kind of the path.  If it has a step for texts, all
matches are texts (`isText_of_matches`), and the single answers are those of the first
string.  If it has none, the last step asks for a name, which is a text's only if it is the
name that all texts answer to; for other names all matches are elements, and every typed
answer is empty.  A tree without elements of that name cannot tell the two ways of asking
for texts apart.  All this together is **extraction by the kind of a path**
(`Path.extraction_exact`).
-/
namespace TagPath

theorem Node.content?_eq_some_iff {node : Node} {content : String} :
    node.content? = some content ↔ node = .text content := by
  cases node <;> simp [content?]

theorem Node.content?_eq_none_iff {node : Node} :
    node.content? = none ↔ node.isText = false := by
  cases node <;> simp [content?]

/-! ## First matches -/

/-- No place covers one that is kept, if it stands before it, be it kept or not. -/
theorem not_covers_of_mem_keepUncovered {places : List Place} {kept other : Place}
    (ho : places.Pairwise Place.Before) (hk : kept ∈ keepUncovered places)
    (hm : other ∈ places) (hb : other.Before kept) : ¬ other.node.covers kept.node = true := by
  induction places using keepInduction with
  | nil => exact absurd hm List.not_mem_nil
  | cons first rest ih =>
    obtain ⟨hfirst, hrest⟩ := List.pairwise_cons.mp ho
    rw [keepUncovered_cons] at hk
    rcases List.mem_cons.mp hk with rfl | hk
    · -- nothing stands before the first place
      rcases List.mem_cons.mp hm with rfl | hm
      · exact absurd hb other.not_before_self
      · exact absurd hb (hfirst other hm).asymm
    · have hfilter := (keepUncovered_sublist _).subset hk
      have hc : ¬ first.node.covers kept.node = true := by
        simpa using (List.mem_filter.mp hfilter).2
      rcases List.mem_cons.mp hm with rfl | hm
      · exact hc
      · -- if the first place covered the other one, it would cover what that one covers
        intro hother
        have hne : ¬ first.node.covers other.node = true :=
          fun h => hc (Node.covers_trans h hother)
        have hmem : other ∈ rest.filter fun other => !first.node.covers other.node :=
          List.mem_filter.mpr ⟨hm, by simpa using hne⟩
        exact ih (hrest.sublist List.filter_sublist) hk hmem hother

namespace Path
variable {path : Path} {root : Node} {place other : Place}

theorem not_covers_of_before (h : place ∈ path.evaluate root) (hm : path.Matches root other)
    (hb : other.Before place) : ¬ other.node.covers place.node = true :=
  not_covers_of_mem_keepUncovered (pairwise_before_selections path root)
    (path.evaluate_eq_keepUncovered root ▸ h) (mem_selections_iff.mpr hm) hb

/-- One address is matched at one place. -/
theorem Matches.eq_of_address_eq (h : path.Matches root place) (h' : path.Matches root other)
    (he : place.address = other.address) : place = other := by
  obtain ⟨address, node⟩ := place
  obtain ⟨address', node'⟩ := other
  obtain ⟨chain, hc, hl, -⟩ := h
  obtain ⟨chain', hc', hl', -⟩ := h'
  obtain rfl : address = address' := he
  obtain rfl : chain = chain' := Option.some.inj (hc.symm.trans hc')
  obtain rfl : node = node' := Option.some.inj (hl.symm.trans hl')
  rfl

/-- Of two matches, one stands before the other. -/
theorem Matches.before_or_eq_or_before (h : path.Matches root place)
    (h' : path.Matches root other) :
    place.Before other ∨ place = other ∨ other.Before place := by
  rcases lt_trichotomy place.address other.address with hlt | he | hlt
  · exact .inl hlt
  · exact .inr (.inl (h.eq_of_address_eq h' he))
  · exact .inr (.inr hlt)

/-! ## Strings -/

/-- Some match with the one text stands before all matches with the other. -/
def FirstBefore (path : Path) (root : Node) (content later : String) : Prop :=
  ∃ place, path.Matches root place ∧ place.node = .text content ∧
    ∀ other, path.Matches root other → other.node = .text later → place.Before other

/-- The texts of the text nodes that a path matches, each once, in the order in which they
first stand in the document. -/
structure ListsTexts (path : Path) (root : Node) (contents : List String) : Prop where
  nodup : contents.Nodup
  mem_iff : ∀ content, content ∈ contents ↔
    ∃ place, path.Matches root place ∧ place.node = .text content
  ordered : contents.Pairwise (path.FirstBefore root)

theorem FirstBefore.asymm {content later : String} (h : path.FirstBefore root content later) :
    ¬ path.FirstBefore root later content := by
  rintro ⟨other, hother, ho, hall'⟩
  obtain ⟨place, hplace, hp, hall⟩ := h
  exact (hall other hother ho).asymm (hall' place hplace hp)

instance (path : Path) (root : Node) : Std.Asymm (path.FirstBefore root) :=
  ⟨fun _ _ => FirstBefore.asymm⟩

/-- There is only one list of the texts. -/
theorem ListsTexts.eq {contents contents' : List String} (h : path.ListsTexts root contents)
    (h' : path.ListsTexts root contents') : contents = contents' := by
  refine h.ordered.eq_of_mem_iff h'.ordered fun content => ?_
  rw [h.mem_iff, h'.mem_iff]

theorem mem_strings_iff {content : String} :
    content ∈ path.strings root ↔
      ∃ place, path.Matches root place ∧ place.node = .text content := by
  rw [strings, List.mem_filterMap]
  constructor
  · rintro ⟨place, hm, hc⟩
    exact ⟨place, matches_of_mem_evaluate hm, Node.content?_eq_some_iff.mp hc⟩
  · rintro ⟨place, hm, hn⟩
    obtain ⟨kept, hk, hc⟩ := hm.exists_covers
    rw [hn, Node.covers_text_iff] at hc
    exact ⟨kept, hk, Node.content?_eq_some_iff.mpr hc⟩

theorem pairwise_firstBefore_strings (path : Path) (root : Node) :
    (path.strings root).Pairwise (path.FirstBefore root) := by
  rw [strings, List.pairwise_filterMap]
  have hbefore : (path.evaluate root).Pairwise Place.Before :=
    (pairwise_before_selections path root).sublist (evaluate_sublist_selections path root)
  refine hbefore.imp_of_mem ?_
  intro place later hplace hlater hb content hc content' hc'
  have hnode := Node.content?_eq_some_iff.mp hc
  have hnode' := Node.content?_eq_some_iff.mp hc'
  have hmatches := matches_of_mem_evaluate hlater
  refine ⟨place, matches_of_mem_evaluate hplace, hnode, fun other hother hn => ?_⟩
  rcases hother.before_or_eq_or_before hmatches with h | rfl | h
  · -- an equal text before the kept one would cover it
    have hcovers : other.node.covers later.node = true := by
      rw [hn, hnode']
      exact Node.covers_refl _
    exact absurd hcovers (not_covers_of_before hlater hother h)
  · exact hb
  · exact hb.trans h

/-- **The strings of a path list its matched texts**, each once, in document order. -/
theorem listsTexts_strings (path : Path) (root : Node) :
    path.ListsTexts root (path.strings root) :=
  ⟨(pairwise_firstBefore_strings path root).nodup, fun _ => mem_strings_iff,
    pairwise_firstBefore_strings path root⟩

end Path

/-! ## The last step -/

/-- Behind steps for names, a last step asks for a node that it admits. -/
theorem leads_concat_iff {above : List Step} {step : Step} {chain : List Node}
    (h : ∀ earlier ∈ above, earlier.isText = false) :
    Leads (above ++ [step]) chain ↔
      ∃ ancestors node, chain = ancestors ++ [node] ∧
        List.Forall₂ Step.Passes above ancestors ∧ step.admits node = true := by
  induction above generalizing chain with
  | nil =>
    cases step with
    | text =>
      rw [List.nil_append, leads_text_cons_iff]
      simp [Step.admits, Node.isText_iff]
    | named name predicates =>
      rw [List.nil_append, leads_named_cons_iff]
      simp [leads_nil_iff, Step.admits_named_iff]
  | cons first above ih =>
    obtain ⟨hfirst, habove⟩ := List.forall_mem_cons.mp h
    cases first with
    | text => cases hfirst
    | named name predicates =>
      rw [List.cons_append, leads_named_cons_iff]
      simp only [ih habove]
      constructor
      · rintro ⟨first, below, rfl, hp, ancestors, node, rfl, hall, ha⟩
        exact ⟨first :: ancestors, node, rfl, .cons hp hall, ha⟩
      · rintro ⟨_, node, rfl, hall, ha⟩
        cases hall with
        | @cons _ first _ ancestors hp hall =>
          exact ⟨first, ancestors ++ [node], rfl, hp, ancestors, node, rfl, hall, ha⟩

/-- If some step asks for texts, what is asked for is a text. -/
theorem Leads.isText_of_getLast? {steps : List Step} {chain : List Node} {last : Node}
    (h : Leads steps chain) (ht : .text ∈ steps) (hl : chain.getLast? = some last) :
    last.isText = true := by
  induction steps generalizing chain with
  | nil => exact absurd ht List.not_mem_nil
  | cons step rest ih =>
    cases step with
    | text =>
      obtain ⟨content, rfl⟩ := leads_text_cons_iff.mp h
      obtain rfl := Option.some.inj hl
      rfl
    | named name predicates =>
      obtain ⟨node, below, rfl, -, hrest⟩ := leads_named_cons_iff.mp h
      have htext : .text ∈ rest := by simpa using ht
      -- a step follows, so the chain goes on below the node
      have hlength := length_of_leads (List.ne_nil_of_mem htext) hrest
      obtain ⟨next, below, rfl⟩ := List.exists_cons_of_length_eq_add_one hlength
      rw [List.getLast?_cons_cons] at hl
      exact ih hrest htext hl

namespace Path
variable {path : Path} {root : Node} {place : Place}

/-- Where none but the last step may ask for texts, a match is a node that the last step
admits, below nodes that pass the others. -/
theorem matches_iff_of_steps {above : List Step} {step : Step}
    (hs : path.steps = above ++ [step]) (h : ∀ earlier ∈ above, earlier.isText = false) :
    path.Matches root place ↔
      ∃ ancestors, root.chain? place.address = some (ancestors ++ [place.node]) ∧
        List.Forall₂ Step.Passes above ancestors ∧ step.admits place.node = true := by
  rw [Matches, Selects, hs]
  constructor
  · rintro ⟨chain, hc, hl, hleads⟩
    obtain ⟨ancestors, node, rfl, hall, ha⟩ := (leads_concat_iff h).mp hleads
    obtain rfl : node = place.node := by simpa using hl
    exact ⟨ancestors, hc, hall, ha⟩
  · rintro ⟨ancestors, hc, hall, ha⟩
    exact ⟨_, hc, by simp, (leads_concat_iff h).mpr ⟨ancestors, _, rfl, hall, ha⟩⟩

/-! ## Answers by the kind of the path -/

/-- All matches of a path with a step for texts are texts. -/
theorem isText_of_matches (ht : .text ∈ path.steps) (h : path.Matches root place) :
    place.node.isText = true := by
  obtain ⟨chain, -, hl, hleads⟩ := h
  exact hleads.isText_of_getLast? ht hl

/-- If the last step asks for a name other than that of texts, no match is a text. -/
theorem isText_eq_false_of_matches (hs : ∀ step ∈ path.steps, step.isText = false)
    (hn : (path.steps.getLast path.steps_ne_nil).name? ≠ some Node.textNodeName)
    (h : path.Matches root place) : place.node.isText = false := by
  have hsteps := (List.dropLast_append_getLast path.steps_ne_nil).symm
  have habove : ∀ step ∈ path.steps.dropLast, step.isText = false :=
    fun step hm => hs step (List.mem_of_mem_dropLast hm)
  obtain ⟨-, -, -, ha⟩ := (matches_iff_of_steps hsteps habove).mp h
  cases hlast : path.steps.getLast path.steps_ne_nil with
  | text =>
    have htext := hs _ (List.getLast_mem path.steps_ne_nil)
    rw [hlast] at htext
    cases htext
  | named name predicates =>
    rw [hlast] at ha hn
    obtain ⟨hname, -⟩ := Step.admits_named_iff.mp ha
    cases hnode : place.node with
    | element => rfl
    | text content =>
      rw [hnode] at hname
      exact absurd (congrArg some hname.symm) hn

/-- If only texts are yielded, the first match's text is the first string. -/
theorem anyText?_eq_head?_strings (h : ∀ place ∈ path.evaluate root, place.node.isText = true) :
    path.anyText? root = (path.strings root).head? := by
  rw [anyText?, any?, strings]
  cases hm : path.evaluate root with
  | nil => rfl
  | cons place rest =>
    obtain ⟨content, hc⟩ := Node.isText_iff.mp (h place (by simp [hm]))
    simp [hc, Node.content?]

/-- If no text is yielded, there are no strings. -/
theorem strings_eq_nil (h : ∀ place ∈ path.evaluate root, place.node.isText = false) :
    path.strings root = [] :=
  List.filterMap_eq_nil_iff.mpr fun place hm => Node.content?_eq_none_iff.mpr (h place hm)

/-- If no text is yielded, the first match has none. -/
theorem anyText?_eq_none (h : ∀ place ∈ path.evaluate root, place.node.isText = false) :
    path.anyText? root = none := by
  rw [anyText?, any?]
  cases hm : path.evaluate root with
  | nil => rfl
  | cons place rest => exact Node.content?_eq_none_iff.mpr (h place (by simp [hm]))

/-- What one path matches, a path that differs in the last step matches too, if its last step
admits every node of the tree that the other's does. -/
theorem matches_of_admits {left right : Path} {above : List Step} {step step' : Step}
    (hl : left.steps = above ++ [step]) (hr : right.steps = above ++ [step'])
    (h : ∀ earlier ∈ above, earlier.isText = false)
    (ha : ∀ node ∈ root.subtrees, step.admits node = true → step'.admits node = true)
    (hm : left.Matches root place) : right.Matches root place := by
  have hsub := node_mem_subtrees_of_mem_selections (mem_selections_iff.mpr hm)
  obtain ⟨ancestors, hc, hall, hstep⟩ := (matches_iff_of_steps hl h).mp hm
  exact (matches_iff_of_steps hr h).mpr ⟨ancestors, hc, hall, ha _ hsub hstep⟩

/-- On a tree without elements of the name that texts answer to, asking for texts and asking
for that name is the same. -/
theorem evaluate_eq_of_textNodeName {other : Path} {above : List Step}
    (h : ∀ step ∈ above, step.isText = false) (hp : path.steps = above ++ [.text])
    (ho : other.steps = above ++ [.named Node.textNodeName []])
    (hr : root.EachElement fun name _ => name ≠ Node.textNodeName) :
    path.evaluate root = other.evaluate root := by
  have hadmits : ∀ node ∈ root.subtrees,
      Step.text.admits node = true ↔ (Step.named Node.textNodeName []).admits node = true := by
    intro node hm
    cases node with
    | text content => simp [Step.admits]
    | element name children => simp [Step.admits, hr name children hm]
  refine evaluate_eq_of_matches_iff fun place => ⟨?_, ?_⟩
  · exact matches_of_admits hp ho h fun node hm => (hadmits node hm).mp
  · exact matches_of_admits ho hp h fun node hm => (hadmits node hm).mpr

/-- **What is extracted follows the kind of the path.**  With a step for texts, all matches
are texts, the strings are the matched texts, each once, in document order, and the single
answers come from the first string.  Without one, and with a last name other than that of
texts, all matches are elements, and no text and no number is extracted.  Where no element
bears the name of texts, that name in place of a last step for texts, the only one of the
path, leaves every answer as it is. -/
theorem extraction_exact (path : Path) (root : Node) :
    (.text ∈ path.steps →
      (∀ place, path.Matches root place → place.node.isText = true) ∧
        (∀ contents, path.ListsTexts root contents ↔ contents = path.strings root) ∧
        path.string root = (path.strings root).head?.getD "" ∧
        path.numbers root = (path.strings root).filterMap readNumber ∧
        path.number? root = (path.strings root).head?.bind readNumber) ∧
    ((∀ step ∈ path.steps, step.isText = false) →
      (path.steps.getLast path.steps_ne_nil).name? ≠ some Node.textNodeName →
        (∀ place, path.Matches root place → place.node.isText = false) ∧
          path.strings root = [] ∧ path.numbers root = [] ∧ path.string root = "" ∧
          path.number? root = none) ∧
    ∀ (other : Path) (above : List Step), (∀ step ∈ above, step.isText = false) →
      path.steps = above ++ [.text] → other.steps = above ++ [.named Node.textNodeName []] →
      root.EachElement (fun name _ => name ≠ Node.textNodeName) →
        path.evaluate root = other.evaluate root ∧ path.any? root = other.any? root ∧
          path.string root = other.string root ∧ path.number? root = other.number? root ∧
          path.strings root = other.strings root ∧ path.numbers root = other.numbers root := by
  refine ⟨fun ht => ?texts, fun hs hn => ?elements, fun other above h hp ho hr => ?sentinel⟩
  case texts =>
    have hall : ∀ place, path.Matches root place → place.node.isText = true :=
      fun _ => isText_of_matches ht
    have hfirst : path.anyText? root = (path.strings root).head? :=
      anyText?_eq_head?_strings fun place hm => hall place (matches_of_mem_evaluate hm)
    refine ⟨hall, fun contents => ⟨fun h => h.eq (listsTexts_strings path root), ?_⟩, ?_, rfl, ?_⟩
    · rintro rfl
      exact listsTexts_strings path root
    · rw [string, hfirst]
    · rw [number?, hfirst]
  case elements =>
    have hall : ∀ place, path.Matches root place → place.node.isText = false :=
      fun _ => isText_eq_false_of_matches hs hn
    have hyielded : ∀ place ∈ path.evaluate root, place.node.isText = false :=
      fun place hm => hall place (matches_of_mem_evaluate hm)
    have hstrings := strings_eq_nil hyielded
    have hfirst := anyText?_eq_none hyielded
    refine ⟨hall, hstrings, ?_, ?_, ?_⟩
    · rw [numbers, hstrings, List.filterMap_nil]
    · rw [string, hfirst, Option.getD_none]
    · rw [number?, hfirst, Option.bind_none]
  case sentinel =>
    have hevaluate := evaluate_eq_of_textNodeName h hp ho hr
    simp only [any?, string, number?, strings, numbers, anyText?, hevaluate, and_self]

/-- Below, the first text is no number, the second one is, and the third one is the first
again. -/
theorem extraction_exact_repeated :
    let path (last : Step) : Path := ⟨[.named "r" [], .named "a" [], last], by simp⟩
    let root := Node.element "r"
      [.element "a" [.text "x", .element "b" []], .element "a" [.text "2,000"], .text "z",
        .element "a" [.text "x"]]
    (path .text).ListsTexts root ["x", "2,000"] ∧ (path .text).string root = "x" ∧
      (path .text).number? root = none ∧
      (path (.named "b" [])).strings root = [] ∧ (path (.named "b" [])).string root = "" ∧
      (path .text).evaluate root = (path (.named "CDATA" [])).evaluate root := by
  intro path root
  have hstrings : ["x", "2,000"] = (path .text).strings root := by decide
  have hnumber : readNumber "x" = none := by decide
  obtain ⟨htexts, -, hsentinel⟩ := extraction_exact (path .text) root
  obtain ⟨-, hlists, hstring, -, hfirst⟩ := htexts (by simp [path])
  obtain ⟨-, helements, -⟩ := extraction_exact (path (.named "b" [])) root
  obtain ⟨-, hnone, -, hempty, -⟩ := helements (by simp [path, Step.isText])
    (by simp [path, Step.name?, Node.textNodeName])
  obtain ⟨hevaluate, -⟩ := hsentinel (path (.named "CDATA" [])) [.named "r" [], .named "a" []]
    (by simp [Step.isText]) rfl rfl (by decide)
  refine ⟨(hlists _).mpr hstrings, ?_, ?_, hnone, hempty, hevaluate⟩
  · rw [hstring, ← hstrings]
    rfl
  · rw [hfirst, ← hstrings]
    exact hnumber

end Path
end TagPath
