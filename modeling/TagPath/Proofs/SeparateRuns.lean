import TagPath.Proofs.AllOrNothing
import TagPath.Proofs.CoveredMatches
import TagPath.Proofs.Indentation

/-! # Separate runs

A run answers several paths one after the other, as if each had a run of its own.  The
entries of all paths are put together before they become lines, so this is a matter of
empty entries: by itself an empty entry is no line, beside others it is one
(`textOfEntries_eq_join`).  But what is reported of the matches is not empty
(`Mode.empty_notMem_report`): no text below the root is (`Node.empty_notMem_subtrees`), a
node that is no empty text is written with a character at least, and so is a number.  Only
the text of the first match may be empty, where there is no match or no text.  Hence **the
text of a run is the texts of the runs of its paths, one behind the other**.
-/
namespace TagPath
open Text

/-! ## Lines of entries -/

/-- Between entries there is a line break, so only one entry can be written without a
character. -/
theorem joined_eq_empty_iff {entries : List String} :
    "\n".intercalate entries = "" ↔ entries = [] ∨ entries = [""] := by
  match entries with
  | [] => simp
  | [entry] => simp
  | entry :: next :: rest => simp [String.intercalate_cons_cons]

theorem joined_append_break {entries : List String} (h : entries ≠ []) :
    "\n".intercalate entries ++ "\n" = String.join (entries.map (· ++ "\n")) := by
  induction entries with
  | nil => exact absurd rfl h
  | cons entry rest ih =>
    cases rest with
    | nil => simp
    | cons next rest =>
      rw [String.intercalate_cons_cons, String.append_assoc, ih (List.cons_ne_nil _ _)]
      exact String.join_cons.symm

/-- **Every entry is a line**, unless the empty text is the only entry. -/
theorem textOfEntries_eq_join {entries : List String} (h : entries ≠ [""]) :
    textOfEntries entries = String.join (entries.map (· ++ "\n")) := by
  unfold textOfEntries
  by_cases hnil : entries = []
  · rw [hnil]
    rfl
  · have hjoined : "\n".intercalate entries ≠ "" := fun he =>
      (joined_eq_empty_iff.mp he).elim hnil h
    rw [if_neg hjoined, joined_append_break hnil]

/-- Entries that are not empty can be written in two parts. -/
theorem textOfEntries_append {entries others : List String} (h : "" ∉ entries)
    (h' : "" ∉ others) :
    textOfEntries (entries ++ others) = textOfEntries entries ++ textOfEntries others := by
  have hjoin : ∀ {entries : List String}, "" ∉ entries →
      textOfEntries entries = String.join (entries.map (· ++ "\n")) := by
    intro entries hne
    apply textOfEntries_eq_join
    rintro rfl
    exact hne List.mem_cons_self
  have hboth : "" ∉ entries ++ others := by
    rw [List.mem_append]
    exact not_or.mpr ⟨h, h'⟩
  rw [hjoin h, hjoin h', hjoin hboth, List.map_append, String.join_append]

/-- **Entries that are not empty can be written block by block.** -/
theorem textOfEntries_flatMap {α : Type} {items : List α} {entriesOf : α → List String}
    (h : ∀ item ∈ items, "" ∉ entriesOf item) :
    textOfEntries (items.flatMap entriesOf) =
      String.join (items.map fun item => textOfEntries (entriesOf item)) := by
  induction items with
  | nil => rfl
  | cons item rest ih =>
    obtain ⟨hitem, hrest⟩ := List.forall_mem_cons.mp h
    have hempty : "" ∉ rest.flatMap entriesOf := by simpa using hrest
    rw [List.flatMap_cons, textOfEntries_append hitem hempty, ih hrest]
    exact String.join_cons.symm

/-- The empty entry is a line beside another one, and none by itself. -/
example : textOfEntries ["", ""] = "\n\n" ∧ textOfEntries [""] = "" := by decide

/-! ## Texts below the root -/

namespace Node

/-- **No text below the root is empty.** -/
theorem empty_notMem_subtrees {tree : Node} (h : tree.EachElement Tidy)
    (hroot : tree ≠ .text "") : .text "" ∉ tree.subtrees := by
  induction tree using treeInduction with
  | text content => simpa [eq_comm] using hroot
  | element name children ih =>
    obtain ⟨⟨-, horderly⟩, hchildren⟩ := eachElement_element_iff.mp h
    rw [subtrees_element, List.mem_cons, List.mem_flatMap]
    rintro (he | ⟨child, hc, hm⟩)
    · cases he
    · refine ih child hc (hchildren child hc) ?_ hm
      rintro rfl
      exact (horderly.run _ hc "" rfl).ne_nil rfl

/-! ## Entries -/

theorem written_ne_nil {node : Node} (h : node ≠ .text "") : node.written ≠ [] := by
  cases node with
  | element name children => simp [openingTag]
  | text content => simpa using h

/-- The written form stays in order when it is laid out. -/
theorem written_sublist_laidOut (width : Nat) (node : Node) :
    node.written.Sublist (node.laidOut width) := by
  have hline : ∀ line : Line, line.content.Sublist (line.indented width) := fun line =>
    List.sublist_append_right _ _
  rw [← flatMap_content_lines 0, laidOut]
  induction node.lines 0 with
  | nil => exact List.Sublist.refl []
  | cons line rest ih =>
    cases rest with
    | nil => simpa using hline line
    | cons next rest =>
      rw [List.flatMap_cons, List.map_cons, List.map_cons, List.intercalate_cons_cons]
      exact ((hline line).trans (List.sublist_append_left _ _)).append ih

end Node

theorem Layout.render_ne_empty (layout : Layout) {node : Node} (h : node ≠ .text "") :
    layout.render node ≠ "" := by
  cases layout with
  | compact => exact mt String.ofList_eq_empty_iff.mp (Node.written_ne_nil h)
  | indented width =>
    refine mt String.ofList_eq_empty_iff.mp ?_
    intro hnil
    have hsub := Node.written_sublist_laidOut width node
    rw [hnil] at hsub
    exact Node.written_ne_nil h (List.sublist_nil.mp hsub)

theorem positional_ne_nil (coefficient : Nat) (place : Int) :
    positional coefficient place ≠ [] := by
  cases place with
  | ofNat zeros => simp [positional, Nat.toDigits_ne_nil]
  | negSucc zeros => simp [positional]

theorem renderNumber_ne_empty (number : Float) : renderNumber number ≠ "" := by
  refine mt String.ofList_eq_empty_iff.mp ?_
  unfold writtenNumber
  dsimp only
  split
  · exact List.cons_ne_nil _ _
  · split
    · exact List.cons_ne_nil _ _
    · exact positional_ne_nil _ _

/-- **No entry is empty**, unless a text is asked for where there may be none. -/
theorem Mode.empty_notMem_report {mode : Mode} {path : Path} {root : Node} (hm : mode ≠ .string)
    (hroot : .text "" ∉ root.subtrees) (layout : Layout) :
    "" ∉ mode.report layout path root := by
  have hnode : ∀ place ∈ path.evaluate root, place.node ≠ .text "" := by
    intro place hp he
    have hselected := (path.evaluate_sublist_selections root).subset hp
    exact hroot (he ▸ Path.node_mem_subtrees_of_mem_selections hselected)
  cases mode with
  | string => exact absurd rfl hm
  | nodes =>
    intro hmem
    obtain ⟨place, hp, he⟩ := List.mem_map.mp hmem
    exact layout.render_ne_empty (hnode place hp) he
  | any =>
    intro hmem
    obtain ⟨place, hp, he⟩ := List.mem_map.mp hmem
    have hkept := List.mem_of_mem_head? (Option.mem_toList.mp hp)
    exact layout.render_ne_empty (hnode place hkept) he
  | strings =>
    intro hmem
    obtain ⟨place, hp, he⟩ := List.mem_filterMap.mp hmem
    refine hnode place hp ?_
    cases hn : place.node with
    | element name children =>
      rw [hn] at he
      cases he
    | text content =>
      rw [hn] at he
      cases he
      rfl
  | number | numbers =>
    intro hmem
    obtain ⟨number, -, he⟩ := List.mem_map.mp hmem
    exact renderNumber_ne_empty number he

/-! ## Runs -/

theorem Options.reportAll_eq_join {options : Options} {root : Node}
    (hm : options.mode ≠ .string) (hroot : .text "" ∉ root.subtrees) (paths : List Path) :
    options.reportAll root paths =
      String.join (paths.map fun path => options.reportAll root [path]) := by
  have hne : ∀ path ∈ paths, "" ∉ options.mode.report options.layout path root := fun _ _ =>
    Mode.empty_notMem_report hm hroot _
  simp only [reportAll, entries, textOfEntries_flatMap hne, List.flatMap_singleton]

/-- A text has no more bytes than the texts joined. -/
theorem utf8ByteSize_le_join {texts : List String} {text : String} (h : text ∈ texts) :
    text.utf8ByteSize ≤ (String.join texts).utf8ByteSize := by
  induction texts with
  | nil => cases h
  | cons first rest ih =>
    rw [String.join_cons, String.utf8ByteSize_append]
    rcases List.mem_cons.mp h with rfl | h
    · exact Nat.le_add_right _ _
    · exact Nat.le_add_left_of_le (ih h)

/-- Two lists that match a third one match one another. -/
theorem forall₂_of_common {α β γ : Type} {R : α → β → Prop} {S : α → γ → Prop}
    {T : β → γ → Prop} {xs : List α} {ys : List β} {zs : List γ} (h : List.Forall₂ R xs ys)
    (h' : List.Forall₂ S xs zs) (hT : ∀ x y, ∀ z ∈ zs, R x y → S x z → T y z) :
    List.Forall₂ T ys zs := by
  induction h generalizing zs with
  | nil =>
    cases h'
    exact .nil
  | cons hR _ ih =>
    cases h' with
    | cons hS hrest =>
      refine .cons (hT _ _ _ List.mem_cons_self hR hS) (ih hrest fun x y z hz => ?_)
      exact hT x y z (List.mem_cons_of_mem _ hz)

namespace World
variable {read : List String → Reading} {arguments : List String} {alones : List (List String)}
  {options : Options} {world : World} {document : String} {root : Node}

/-- **Several paths are answered as by separate runs.**  The document's tree is not the empty
text, all paths can be compiled, and all texts can be held.  With the same options but one
path alone, each run ends with what is reported of its path, and the run of all paths ends
with these texts joined. -/
theorem run_separate (h : read arguments = .run options)
    (halone : List.Forall₂ (fun source alone =>
      read alone = .run { options with paths := [source] }) options.paths alones)
    (hm : options.mode ≠ .string) (hs : options.Supplies world document)
    (hd : Node.read options.limits (some document) = .ok root) (hroot : root ≠ .text "")
    (hp : ∀ source ∈ options.paths, ∃ path, Compiles source path)
    (ho : ¬ options.Overflows world) :
    ∃ paths, List.Forall₂ Compiles options.paths paths ∧
      let texts := paths.map fun path => options.reportAll root [path]
      List.Forall₂ (fun alone text =>
        world.Answers (world.run read alone) options.output text) alones texts ∧
      world.Answers (world.run read arguments) options.output (String.join texts) := by
  obtain ⟨paths, hpaths⟩ | ⟨before, _, source, behind, cause, he, -, hfault⟩ :=
    forall_compiled_or_exists_first options.paths
  case inr =>
    obtain ⟨path, hok⟩ := hp source (by simp [he])
    exact absurd hfault hok.ne_error
  obtain ⟨hcanonical, -⟩ := read_eq_ok_iff_spells.mp hd
  have hempty := Node.empty_notMem_subtrees hcanonical.tidy hroot
  have hjoin := Options.reportAll_eq_join hm hempty paths
  have hanswer := Options.answer_eq_reportAll hs hd hpaths ho
  have hheld : ∀ path ∈ paths, Held (options.reportAll root [path]) := by
    intro path hpath
    by_contra hlarge
    refine ho (.answer hs hd hpaths fun hall => hlarge (held_of_le hall ?_))
    rw [hjoin]
    exact utf8ByteSize_le_join (List.mem_map_of_mem hpath)
  refine ⟨paths, hpaths, ?_, hjoin ▸ run_of_answer h hs hanswer⟩
  -- each path is answered alone as it is among the others
  rw [List.forall₂_map_right_iff]
  refine forall₂_of_common halone hpaths fun source alone path hmem hread hsource => ?_
  let single : Options := { options with paths := [source] }
  have hsupplies : single.Supplies world document := hs.of_input_eq rfl
  have hsingle : single.answer document = .ok (options.reportAll root [path]) := by
    have hread : Node.read single.limits (some document) = .ok root := hd
    exact (Options.answer_of_compiles hread (.cons hsource .nil)).trans (if_pos (hheld path hmem))
  have hrun := run_of_answer hread hsupplies hsingle
  exact hrun

/-- An entry of several lines, a path without a match, and a last entry of one line. -/
theorem run_separate_pretty :
    let world : World := { standardInput := .ok "<r><a><c></c></a><b>2</b></r>".toUTF8 }
    let output := fun arguments => (world.run readArguments arguments).2.output
    output ["-p", "r/a", "--pretty", "-p", "r/d", "-p", "r/b"] =
        "<a>\n  <c></c>\n</a>\n<b>2</b>\n".toUTF8 ∧
      output ["--pretty", "-p", "r/a"] = "<a>\n  <c></c>\n</a>\n".toUTF8 ∧
      output ["--pretty", "-p", "r/d"] = "".toUTF8 ∧
      output ["--pretty", "-p", "r/b"] = "<b>2</b>\n".toUTF8 := by
  intro world output
  let options : Options := { paths := ["r/a", "r/d", "r/b"], layout := .indented 2 }
  let root : Node := .element "r" [.element "a" [.element "c" []], .element "b" [.text "2"]]
  let path : String → Path := fun name => ⟨[.named "r" [], .named name []], by simp⟩
  have hpaths : List.Forall₂ Compiles options.paths [path "a", path "d", path "b"] :=
    .cons (Path.ofChars_eq_ok_iff.mpr (by cbv)) <| .cons (Path.ofChars_eq_ok_iff.mpr (by cbv)) <|
      .cons (Path.ofChars_eq_ok_iff.mpr (by cbv)) .nil
  have hs : options.Supplies world "<r><a><c></c></a><b>2</b></r>" :=
    .stream rfl rfl (fromUTF8?_toUTF8 _) (by decide)
  have hd : Node.read {} (some "<r><a><c></c></a><b>2</b></r>") = .ok root := by
    rw [Node.read_eq]
    cbv
  have hall : options.reportAll root [path "a", path "d", path "b"] =
      "<a>\n  <c></c>\n</a>\n<b>2</b>\n" := by decide
  have ho : ¬ options.Overflows world :=
    Options.not_overflows hs hd (List.append_nil _).symm hpaths (by simp)
      (hall ▸ by decide)
  have hread : readArguments ["-p", "r/a", "--pretty", "-p", "r/d", "-p", "r/b"] =
      .run options := by decide +kernel
  have halone : ∀ source ∈ options.paths, readArguments ["--pretty", "-p", source] =
      .run { options with paths := [source] } := by decide +kernel
  obtain ⟨paths, hcompiles, halone, htogether⟩ := run_separate hread
    (List.forall₂_map_right_iff.mpr (List.forall₂_same.mpr halone))
    (by decide) hs hd (by simp [root]) (fun source hm => exists_of_forall₂_of_mem hpaths hm) ho
  obtain rfl := forall₂_compiles_unique hcompiles hpaths
  have houtput : ∀ {arguments text}, world.Answers (world.run readArguments arguments) none text →
      output arguments = text.toUTF8 := by
    intro arguments text hanswers
    obtain ⟨hwritten, -⟩ := (hanswers.delivered rfl).2.stream rfl
    exact hwritten.trans ByteArray.empty_append
  obtain _ | ⟨hfirst, _ | ⟨hsecond, _ | ⟨hthird, _ | _⟩⟩⟩ := halone
  refine ⟨(houtput htogether).trans ?_, (houtput hfirst).trans ?_, (houtput hsecond).trans ?_,
    (houtput hthird).trans ?_⟩
  all_goals exact congrArg String.toUTF8 (by decide)

end World
end TagPath
