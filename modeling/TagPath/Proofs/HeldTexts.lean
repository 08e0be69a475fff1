import Mathlib
import TagPath.Document.Layout

/-! # Texts that are made piece by piece

A text of several lines is made line by line, and each line from its spaces and its content;
each piece must be held before the next one is made.  A piece has no more bytes than the
whole, so nothing depends on the pieces: **the text is made exactly if it can be held as a
whole** (`Node.renderIndented?_eq_held?`, `Layout.render?_eq_held?`).

The number of a line's spaces is a product, and a machine may reduce it modulo `2 ^ 64`.
This makes no difference either (`Node.renderIndented?_eq_wrapped`): a line of each level is
there before the product of the next level is so large, and cannot be held.
-/
namespace TagPath
open Text

/-! ## Pieces of a text -/

theorem Text.held_of_le {text whole : String} (h : Held whole)
    (hs : text.utf8ByteSize ≤ whole.utf8ByteSize) : Held text :=
  Nat.lt_of_le_of_lt hs h

/-- A line has no more bytes than the lines joined. -/
theorem utf8ByteSize_le_intercalate {lines : List String} {line : String} (h : line ∈ lines) :
    line.utf8ByteSize ≤ ("\n".intercalate lines).utf8ByteSize := by
  induction lines with
  | nil => cases h
  | cons first rest ih =>
    cases rest with
    | nil =>
      obtain rfl := List.mem_singleton.mp h
      simp
    | cons next rest =>
      rw [String.intercalate_cons_cons, String.utf8ByteSize_append, String.utf8ByteSize_append]
      rcases List.mem_cons.mp h with rfl | h
      · omega
      · have hrest := ih h
        omega

/-- Texts are made one after the other exactly if all of them can be held. -/
theorem mapM_held? (texts : List String) :
    texts.mapM held? = if ∀ text ∈ texts, Held text then some texts else none := by
  induction texts with
  | nil => rfl
  | cons text rest ih =>
    rw [List.mapM_cons, ih]
    by_cases hall : ∀ other ∈ text :: rest, Held other
    · obtain ⟨ht, hr⟩ := List.forall_mem_cons.mp hall
      rw [if_pos hall, if_pos hr, held?_eq_some_iff.mpr ⟨ht, rfl⟩]
      rfl
    · rw [if_neg hall]
      by_cases ht : Held text
      · rw [if_neg fun hr => hall (List.forall_mem_cons.mpr ⟨ht, hr⟩)]
        simp
      · rw [held?_eq_none_iff.mpr ht]
        rfl

/-- Making all lines and then joining them succeeds exactly if the joined text can be held. -/
theorem mapM_held?_bind_intercalate (lines : List String) :
    ((lines.mapM held?).bind fun lines => held? ("\n".intercalate lines)) =
      held? ("\n".intercalate lines) := by
  rw [mapM_held?]
  split
  · rfl
  · rename_i hline
    refine (held?_eq_none_iff.mpr fun hall => hline fun line hm => ?_).symm
    exact held_of_le hall (utf8ByteSize_le_intercalate hm)

/-! ## Lines -/

theorem utf8ByteSize_spaces (count : Nat) :
    (String.ofList (List.replicate count ' ')).utf8ByteSize = count := by
  have hspace : ' '.utf8Size = 1 := by decide
  rw [String.utf8ByteSize_ofList]
  induction count with
  | zero => rfl
  | succ count ih => rw [List.replicate_succ, String.utf8Len_cons, ih, hspace]

/-- Spaces can be held exactly if they are few enough. -/
theorem spaces?_eq_held? (count : Nat) :
    spaces? count = held? (String.ofList (List.replicate count ' ')) := by
  simp only [spaces?, held?, Held, utf8ByteSize_spaces]

/-- A line is made exactly if it can be held with its spaces. -/
theorem Line.indented?_eq_held? (width : Nat) (line : Line) :
    line.indented? width = held? (String.ofList (line.indented width)) := by
  have hline : String.ofList (line.indented width) =
      String.ofList (List.replicate (line.level * width) ' ') ++ String.ofList line.content := by
    rw [indented, String.ofList_append]
  rw [indented?, spaces?_eq_held?, hline]
  set pad := String.ofList (List.replicate (line.level * width) ' ')
  by_cases hpad : Held pad
  · rw [held?_eq_some_iff.mpr ⟨hpad, rfl⟩]
    rfl
  · rw [held?_eq_none_iff.mpr hpad]
    refine (held?_eq_none_iff.mpr fun hall => hpad (held_of_le hall ?_)).symm
    rw [String.utf8ByteSize_append]
    exact Nat.le_add_right _ _

/-- **A tree over several lines is made exactly if the text can be held as a whole.** -/
theorem Node.renderIndented?_eq_held? (width : Nat) (node : Node) :
    node.renderIndented? width = held? (node.renderIndented width) := by
  have hlines : Line.indented? width = held? ∘ fun line => String.ofList (line.indented width) :=
    funext fun line => line.indented?_eq_held? width
  have hjoined : "\n".intercalate ((node.lines 0).map fun line =>
      String.ofList (line.indented width)) = node.renderIndented width := by
    rw [← String.toList_inj, String.toList_intercalate, renderIndented, String.toList_ofList,
      laidOut, List.map_map]
    simp only [Function.comp_def, String.toList_ofList]
  rw [renderIndented?, hlines, ← List.mapM_map, mapM_held?_bind_intercalate, hjoined]

theorem Layout.render?_eq_held? (layout : Layout) (node : Node) :
    layout.render? node = held? (layout.render node) := by
  cases layout with
  | compact => rfl
  | indented width => exact node.renderIndented?_eq_held? width

/-! ## Reduced products -/

/-- One text that is not made is enough for a list of texts not to be made. -/
theorem mapM_eq_none {α : Type} {make : α → Option String} {items : List α} {item : α}
    (h : item ∈ items) (hn : make item = none) : items.mapM make = none := by
  induction items with
  | nil => cases h
  | cons first rest ih =>
    rw [List.mapM_cons]
    rcases List.mem_cons.mp h with rfl | h
    · rw [hn]
      rfl
    · rw [ih h]
      cases make first <;> rfl

theorem mapM_congr {α : Type} {make make' : α → Option String} {items : List α}
    (h : ∀ item ∈ items, make item = make' item) : items.mapM make = items.mapM make' := by
  induction items with
  | nil => rfl
  | cons first rest ih =>
    obtain ⟨hfirst, hrest⟩ := List.forall_mem_cons.mp h
    rw [List.mapM_cons, List.mapM_cons, hfirst, ih hrest]

/-- The text of a line, the number of its spaces reduced modulo `2 ^ 64`. -/
def Line.wrapped? (width : Nat) (line : Line) : Option String :=
  (spaces? (line.level * width % 2 ^ 64)).bind fun pad => held? (pad ++ String.ofList line.content)

theorem Line.wrapped?_eq_indented? {width : Nat} {line : Line} (h : line.level * width < 2 ^ 64) :
    line.wrapped? width = line.indented? width := by
  rw [wrapped?, indented?, Nat.mod_eq_of_lt h]

theorem Line.indented?_eq_none {width : Nat} {line : Line} (h : heldBound ≤ line.level * width) :
    line.indented? width = none := by
  rw [indented?, spaces?, if_neg (Nat.not_lt_of_le h)]
  rfl

namespace Node

mutual

/-- Between the level of a node and that of one of its lines, no level is without a line. -/
theorem exists_line_of_level_le {level between : Nat} {line : Line} (node : Node)
    (h : line ∈ node.lines level) (hl : level ≤ between) (hb : between ≤ line.level) :
    ∃ other ∈ node.lines level, other.level = between := by
  match node with
  | text content =>
    obtain rfl := List.mem_singleton.mp h
    exact ⟨_, h, Nat.le_antisymm hl hb⟩
  | element name children =>
    rw [lines] at h ⊢
    split at h
    · rename_i hbreaks
      rw [if_pos hbreaks]
      by_cases he : between = level
      · exact ⟨_, List.mem_cons_self, he.symm⟩
      · have hline : line ∈ linesOfAll (level + 1) children := by
          rcases List.mem_cons.mp h with rfl | h
          · exact absurd (Nat.le_antisymm hb hl) he
          · rcases List.mem_append.mp h with h | h
            · exact h
            · obtain rfl := List.mem_singleton.mp h
              exact absurd (Nat.le_antisymm hb hl) he
        obtain ⟨other, hm, hlevel⟩ :=
          exists_line_of_level_le_all children hline (by omega) hb
        exact ⟨other, List.mem_cons_of_mem _ (List.mem_append_left _ hm), hlevel⟩
    · rename_i hbreaks
      rw [if_neg hbreaks]
      obtain rfl := List.mem_singleton.mp h
      exact ⟨_, List.mem_singleton_self _, Nat.le_antisymm hl hb⟩

theorem exists_line_of_level_le_all {level between : Nat} {line : Line} (nodes : List Node)
    (h : line ∈ linesOfAll level nodes) (hl : level ≤ between) (hb : between ≤ line.level) :
    ∃ other ∈ linesOfAll level nodes, other.level = between := by
  match nodes with
  | [] => cases h
  | node :: rest =>
    rw [linesOfAll, List.mem_append] at h
    simp only [linesOfAll, List.mem_append]
    rcases h with h | h
    · obtain ⟨other, hm, he⟩ := exists_line_of_level_le node h hl hb
      exact ⟨other, .inl hm, he⟩
    · obtain ⟨other, hm, he⟩ := exists_line_of_level_le_all rest h hl hb
      exact ⟨other, .inr hm, he⟩

end

/-- **A machine that reduces products modulo `2 ^ 64` makes the same text**, or none. -/
theorem renderIndented?_eq_wrapped {width : Nat} (hw : width < 2 ^ 64) (node : Node) :
    node.renderIndented? width = ((node.lines 0).mapM (Line.wrapped? width)).bind fun lines =>
      held? ("\n".intercalate lines) := by
  rw [renderIndented?]
  congr 1
  have hbound : heldBound = 2 ^ 63 := rfl
  by_cases hlarge : ∃ level, (∃ line ∈ node.lines 0, line.level = level) ∧
      heldBound ≤ level * width
  · -- the first level with too many spaces still has fewer than are reduced
    obtain ⟨line, hm, hlevel⟩ := (Nat.find_spec hlarge).1
    have hspaces := (Nat.find_spec hlarge).2
    have hmin : ∀ level < line.level, level * width < heldBound := by
      intro level hlt
      obtain ⟨other, ho, he⟩ := exists_line_of_level_le node hm (Nat.zero_le level) hlt.le
      have hnot := Nat.find_min hlarge (hlevel ▸ hlt)
      exact Nat.lt_of_not_le fun hle => hnot ⟨⟨other, ho, he⟩, hle⟩
    rw [← hlevel] at hspaces
    have hbelow : line.level * width < 2 ^ 64 := by
      match hl : line.level with
      | 0 => simp
      | 1 => omega
      | level + 2 =>
        have hprevious := hmin (level + 1) (by omega)
        rw [Nat.add_mul (level + 1) 1 width]
        have hwidth : width ≤ (level + 1) * width := Nat.le_mul_of_pos_left width (by omega)
        omega
    have hnone := Line.indented?_eq_none hspaces
    rw [mapM_eq_none hm hnone, mapM_eq_none hm ((Line.wrapped?_eq_indented? hbelow).trans hnone)]
  · refine mapM_congr fun line hm => (Line.wrapped?_eq_indented? ?_).symm
    have hlt : line.level * width < heldBound :=
      Nat.lt_of_not_le fun hle => hlarge ⟨line.level, ⟨line, hm, rfl⟩, hle⟩
    omega

end Node
end TagPath
