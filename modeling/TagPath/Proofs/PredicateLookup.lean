import Mathlib
import TagPath.Proofs.Addressing
import TagPath.Proofs.MatchedTexts

/-! # Predicates and paths that look up the same text

A predicate looks at the first child of its name and at the first text of that child.  A
path can ask for the same: from the element's own name it goes on to the child's name and
then to texts (`Path.childTexts`).  But a path looks at all children of the name and at all
their texts.  So the value of a predicate that holds is among the strings of the path, while
other strings may come from other children or from texts behind the first one.

Where at most one child bears the name, and has at most one text, the first one is the only
one (`find?_eq_some_iff_of_length_filter_le`), and **a predicate holds exactly if its value
is all that the path yields** (`Predicate.holds_iff_strings`).
-/
namespace TagPath
open Text

/-! ## Looking up the only one -/

section Only
variable {α : Type} {p : α → Bool} {members : List α}

/-- Where at most one member of a list fits, a search finds each member that fits. -/
theorem find?_eq_some_iff_of_length_filter_le (h : (members.filter p).length ≤ 1) {member : α} :
    members.find? p = some member ↔ member ∈ members ∧ p member = true := by
  rw [← List.head?_filter, ← List.mem_filter]
  cases hf : members.filter p with
  | nil => simp
  | cons first rest =>
    obtain rfl : rest = [] := by simpa [hf] using h
    simp [eq_comm]

/-- At most one member fits, so two that fit are the same. -/
theorem eq_of_length_filter_le (h : (members.filter p).length ≤ 1) {member other : α}
    (hm : member ∈ members ∧ p member = true) (ho : other ∈ members ∧ p other = true) :
    member = other := by
  rw [← find?_eq_some_iff_of_length_filter_le h] at hm ho
  exact Option.some.inj (hm.symm.trans ho)

end Only

/-! ## Names as steps -/

/-- A name that is a step for itself when it is written in a path. -/
structure IsStepName (name : String) : Prop where
  separator : stepSeparator ∉ name.toList
  opening : '[' ∉ name.toList
  closing : ']' ∉ name.toList
  ne : name ≠ "text()"

theorem IsStepName.spells {name : String} (h : IsStepName name) :
    SpellsStep name.toList (.named name []) := by
  have hs := SpellsStep.named h.opening h.closing h.ne (List.forall_mem_nil Predicate.Legible)
  simpa [Step.written] using hs

namespace Path

/-- The path that asks for all texts of children called `child` in an element called
`name`. -/
def childTexts (name child : String) : Path :=
  ⟨[.named name [], .named child [], .text], by simp⟩

theorem read_childTexts {name child : String} (hn : IsStepName name) (hc : IsStepName child) :
    Path.read (some (name ++ "/" ++ child ++ "/text()")) = .ok (childTexts name child) := by
  have hparts : AreParts [name.toList, child.toList, Step.textName] := by
    refine ⟨by simp, ?_, by simp [Step.textName]⟩
    simp only [List.forall_mem_cons]
    exact ⟨hn.separator, hc.separator, by decide, nofun⟩
  refine read_of_areParts hparts ?_ (.cons hn.spells (.cons hc.spells (.cons .text .nil)))
  simp [stepSeparator, Step.textName]

variable {name child : String} {children : List Node}

/-- The path matches exactly the texts of the children of the name. -/
theorem mem_strings_childTexts_iff {content : String} :
    content ∈ (childTexts name child).strings (.element name children) ↔
      ∃ found ∈ children, found.name = child ∧ .text content ∈ found.children := by
  rw [mem_strings_iff]
  constructor
  · rintro ⟨place, hm, hn⟩
    obtain ⟨-, index, found, inner, hfound, hi, rfl⟩ := (selects_named_cons_iff (by simp)).mp hm
    obtain ⟨hp, index', last, rest, hlast, hr, rfl⟩ := (selects_named_cons_iff (by simp)).mp hi
    obtain ⟨-, rfl⟩ := selects_text_cons_iff.mp hr
    obtain rfl : last = .text content := hn
    exact ⟨found, List.mem_of_getElem? hfound, hp.1, List.mem_of_getElem? hlast⟩
  · rintro ⟨found, hm, hname, ht⟩
    obtain ⟨index, hfound⟩ := List.getElem?_of_mem hm
    obtain ⟨index', hlast⟩ := List.getElem?_of_mem ht
    have htext : Selects [.text] (.text content) (Place.root (.text content)) :=
      selects_text_cons_iff.mpr ⟨rfl, rfl⟩
    have hchild : Selects [.named child [], .text] found
        ((Place.root (.text content)).below index') :=
      (selects_named_cons_iff (by simp)).mpr
        ⟨⟨hname, by simp⟩, index', _, _, hlast, htext, rfl⟩
    refine ⟨((Place.root (.text content)).below index').below index, ?_, rfl⟩
    exact (selects_named_cons_iff (by simp)).mpr
      ⟨⟨rfl, by simp⟩, index, found, _, hfound, hchild, rfl⟩

end Path

/-! ## Two ways of looking up -/

/-- At most one of the nodes bears the name, and that one has at most one text. -/
structure AtMostOneText (name : String) (nodes : List Node) : Prop where
  named : (nodes.filter (·.name == name)).length ≤ 1
  texts : ∀ node ∈ nodes, node.name = name → (node.children.filter Node.isText).length ≤ 1

theorem Node.textNode?_of_name_ne {node : Node} (h : node.name ≠ Node.textNodeName) :
    node.textNode? = node.children.find? Node.isText := by
  cases node with
  | element name children => rfl
  | text content => exact absurd rfl h

namespace Predicate
variable {name child value : String} {children : List Node}

/-- A predicate for elements is two searches, one below the other. -/
theorem holds_element_iff (hc : child ≠ Node.textNodeName) :
    (⟨child, value⟩ : Predicate).holds (.element name children) = true ↔
      ∃ found, children.find? (·.name == child) = some found ∧
        found.children.find? Node.isText = some (.text value) := by
  rw [holds_iff_textNode?]
  refine exists_congr fun found => and_congr_right fun hf => ?_
  have hname : found.name = child := by simpa using List.find?_some hf
  rw [Node.textNode?_of_name_ne (hname ▸ hc)]

/-- What a predicate finds, the path finds. -/
theorem mem_strings_of_holds (hc : child ≠ Node.textNodeName)
    (h : (⟨child, value⟩ : Predicate).holds (.element name children) = true) :
    value ∈ (Path.childTexts name child).strings (.element name children) := by
  obtain ⟨found, hf, ht⟩ := (holds_element_iff hc).mp h
  apply Path.mem_strings_childTexts_iff.mpr
  refine ⟨found, List.mem_of_find?_eq_some hf, ?_, List.mem_of_find?_eq_some ht⟩
  simpa using List.find?_some hf

/-- Where there is one text at most to be found, the predicate finds what the path finds. -/
theorem holds_of_mem_strings (hc : child ≠ Node.textNodeName)
    (hone : AtMostOneText child children)
    (h : value ∈ (Path.childTexts name child).strings (.element name children)) :
    (⟨child, value⟩ : Predicate).holds (.element name children) = true := by
  obtain ⟨found, hm, hname, ht⟩ := Path.mem_strings_childTexts_iff.mp h
  apply (holds_element_iff hc).mpr
  refine ⟨found, ?_, ?_⟩
  · exact (find?_eq_some_iff_of_length_filter_le hone.named).mpr ⟨hm, by simpa using hname⟩
  · exact (find?_eq_some_iff_of_length_filter_le (hone.texts found hm hname)).mpr ⟨ht, rfl⟩

/-- Then the path finds one text at most. -/
theorem eq_of_mem_strings (hone : AtMostOneText child children) {content content' : String}
    (h : content ∈ (Path.childTexts name child).strings (.element name children))
    (h' : content' ∈ (Path.childTexts name child).strings (.element name children)) :
    content = content' := by
  obtain ⟨found, hm, hname, ht⟩ := Path.mem_strings_childTexts_iff.mp h
  obtain ⟨found', hm', hname', ht'⟩ := Path.mem_strings_childTexts_iff.mp h'
  obtain rfl : found = found' :=
    eq_of_length_filter_le hone.named ⟨hm, by simpa using hname⟩ ⟨hm', by simpa using hname'⟩
  have hsame : Node.text content = .text content' :=
    eq_of_length_filter_le (hone.texts found hm hname) ⟨ht, rfl⟩ ⟨ht', rfl⟩
  exact Node.text.inj hsame

/-- **A predicate and a path look up the same text.**  The names of an element and of a
child, and a step for texts behind them, are compiled to a path.  The value of a predicate
on that child, if it holds, is among the strings of the path.  If at most one child bears
the name, and has at most one text, then the predicate holds exactly if its value is the
only string of the path. -/
theorem holds_iff_strings (hn : IsStepName name) (hc : IsStepName child)
    (hne : child ≠ Node.textNodeName) :
    ∃ path, Path.read (some (name ++ "/" ++ child ++ "/text()")) = .ok path ∧ ∀ value,
      ((⟨child, value⟩ : Predicate).holds (.element name children) = true →
        value ∈ path.strings (.element name children)) ∧
      (AtMostOneText child children →
        ((⟨child, value⟩ : Predicate).holds (.element name children) = true ↔
          path.strings (.element name children) = [value])) := by
  refine ⟨_, Path.read_childTexts hn hc, fun value =>
    ⟨mem_strings_of_holds hne, fun hone => ?_⟩⟩
  constructor
  · intro h
    have hvalue := mem_strings_of_holds hne h
    have hnodup := (Path.listsTexts_strings (.childTexts name child) (.element name children)).nodup
    apply List.perm_singleton.mp
    refine (List.perm_ext_iff_of_nodup hnodup (List.nodup_singleton value)).mpr fun content => ?_
    rw [List.mem_singleton]
    constructor
    · exact fun hm => eq_of_mem_strings hone hm hvalue
    · rintro rfl
      exact hvalue
  · intro h
    exact holds_of_mem_strings hne hone (by simp [h])

/-- The element below has one child of the name, between texts, with one text between
elements. -/
theorem holds_iff_strings_mixed :
    let children := [.text "7", .element "b" [], .element "c d" [.element "b" [.text "8"],
      .text " 9", .element "b" []], .text "10"]
    ∃ path, Path.read (some "r s/c d/text()") = .ok path ∧
      path.strings (.element "r s" children) = [" 9"] ∧
      (⟨"c d", " 9"⟩ : Predicate).holds (.element "r s" children) = true ∧
      (⟨"c d", "8"⟩ : Predicate).holds (.element "r s" children) = false := by
  intro children
  have hname : IsStepName "r s" := ⟨by decide, by decide, by decide, by decide⟩
  have hchild : IsStepName "c d" := ⟨by decide, by decide, by decide, by decide⟩
  have hone : AtMostOneText "c d" children := ⟨by decide, by decide⟩
  have hholds : (⟨"c d", " 9"⟩ : Predicate).holds (.element "r s" children) = true := by decide
  obtain ⟨path, hread, hpath⟩ := @holds_iff_strings _ _ children hname hchild (by decide)
  have hstrings := ((hpath " 9").2 hone).mp hholds
  exact ⟨path, hread, hstrings, hholds, by decide⟩

/-- The first child of the name decides the predicate, also where a second one has the
value. -/
example :
    let root := Node.element "r" [.element "c" [.text "1"], .element "c" [.text "2"]]
    (Path.childTexts "r" "c").strings root = ["1", "2"] ∧
      (⟨"c", "2"⟩ : Predicate).holds root = false := by
  decide

end Predicate
end TagPath
