import TagPath.Proofs.Canonical
import TagPath.Proofs.OpenElements

/-! # What reading makes of content

The reader takes content off piece by piece.  A text piece is the longest run without
`<`, an element piece ends at the first place of its closing tag
(`takePiece_eq_text_iff`, `takePiece_eq_element_iff`).  `Contents limits depth nodes
content` says without a reader what the nodes of some content are: they are orderly
and nestable, the content is their tokens with blanks in between, and they are not
nested too deep.  Its two laws follow the reader's steps: content with a text in
front, or with an element in front, has the piece and the contents behind it
(`contents_text_cons_iff`, `contents_element_cons_iff`).  By induction over the pieces
(`contentInduction`), **reading content gives exactly its nodes**
(`readContent_eq_ok_iff`).
-/
namespace TagPath
open Text

/-! ## Pieces -/

/-- An opening tag is at fault if its closing tag does not stand behind it. -/
theorem takePiece_openingTag_of_not_infix {name after : List Char} (h : '>' ∉ name)
    (hn : ¬ closingTag name <:+: after) :
    takePiece (openingTag name ++ after) = .error (.missingClosingTag (String.ofList name)) := by
  have he : openingTag name ++ after = '<' :: (name ++ '>' :: after) := by simp [openingTag]
  have hcut : cut? (closingTag name) after = none :=
    (cut?_eq_none_iff (closingTag_ne_nil _)).mpr hn
  rw [he]
  simp only [takePiece, cut?_singleton_append h, hcut]

theorem takePiece_eq_element_iff {content name body behind : List Char} :
    takePiece content = .ok (.element name body, behind) ↔
      content = openingTag name ++ body ++ closingTag name ++ behind ∧
        '>' ∉ name ∧ ¬ closingTag name <:+: body := by
  constructor
  · intro h
    refine ⟨eq_of_takePiece h, ?_⟩
    unfold takePiece at h
    split at h
    · split at h
      · simp at h
      · rename_i hn
        obtain ⟨-, hname⟩ := cut?_singleton_eq_some_iff.mp hn
        split at h
        · simp at h
        · rename_i hb
          simp only [Except.ok.injEq, Prod.mk.injEq, Piece.element.injEq] at h
          obtain ⟨⟨rfl, rfl⟩, rfl⟩ := h
          exact ⟨hname, not_infix_of_cut? (closingTag_ne_nil _) hb⟩
    · simp at h
  · rintro ⟨rfl, hn, hb⟩
    have hc : cut? (closingTag name) (body ++ closingTag name ++ behind) = some (body, behind) :=
      (isTag_closingTag hn).cut?_eq_some_iff.mpr ⟨rfl, hb⟩
    have he : openingTag name ++ body ++ closingTag name ++ behind =
        '<' :: (name ++ '>' :: (body ++ closingTag name ++ behind)) := by simp [openingTag]
    rw [he]
    simp only [takePiece, cut?_singleton_append hn, hc]

theorem takePiece_eq_text_iff {content run behind : List Char} (hc : content ≠ []) :
    takePiece content = .ok (.text run, behind) ↔
      content = run ++ behind ∧ run ≠ [] ∧ '<' ∉ run ∧ ∀ c ∈ behind.head?, c = '<' := by
  constructor
  · intro h
    have hr : run ≠ [] := written_ne_nil_of_takePiece hc h
    unfold takePiece at h
    split at h
    · split at h
      · simp at h
      · split at h <;> simp at h
    · simp only [Except.ok.injEq, Prod.mk.injEq, Piece.text.injEq] at h
      obtain ⟨he, hn, hb⟩ := takeWhile_ne_and_dropWhile_ne_iff.mp h
      exact ⟨he, hr, hn, hb⟩
  · rintro ⟨he, hr, hn, hb⟩
    obtain ⟨htake, hdrop⟩ := takeWhile_ne_and_dropWhile_ne_iff.mpr ⟨he, hn, hb⟩
    obtain ⟨c, run, rfl⟩ := List.exists_cons_of_ne_nil hr
    subst he
    unfold takePiece
    split
    · -- content that begins with `<` has no run in front
      rename_i he
      obtain ⟨rfl, -⟩ := List.cons.inj he
      exact absurd List.mem_cons_self hn
    · rw [htake, hdrop]

/-! ## Reading a piece -/

/-- An element that may be entered has the nodes of its body as children. -/
theorem readElement_of_le {limits : Limits} {depth : Nat} (hd : depth + 1 ≤ limits.maxDepth)
    (name body : List Char) :
    readElement limits depth name body =
      (readContent limits (depth + 1) (trim body)).map (.element (String.ofList name)) := by
  simp only [readElement, Limits.enter_eq_ok_iff.mpr ⟨rfl, hd⟩]
  cases readContent limits (depth + 1) (trim body) <;> rfl

theorem readElement_eq_ok_iff {limits : Limits} {depth : Nat} {name body : List Char}
    {node : Node} :
    readElement limits depth name body = .ok node ↔
      ∃ children, node = .element (String.ofList name) children ∧
        depth + 1 ≤ limits.maxDepth ∧
        readContent limits (depth + 1) (trim body) = .ok children := by
  by_cases hd : depth + 1 ≤ limits.maxDepth
  · rw [readElement_of_le hd]
    cases readContent limits (depth + 1) (trim body) with
    | error halt => simp [Except.map]
    | ok children => simp [Except.map, hd, eq_comm]
  · rw [readElement, Limits.enter, if_pos (Nat.lt_of_not_le hd)]
    simp [hd]

theorem readContent_eq_ok_iff_of_text {limits : Limits} {depth : Nat}
    {content run behind : List Char} {nodes : List Node} (hc : content ≠ [])
    (h : takePiece content = .ok (.text run, behind)) :
    readContent limits depth content = .ok nodes ↔
      ∃ rest, nodes = .text (String.ofList run) :: rest ∧
        readContent limits depth (trimStart behind) = .ok rest := by
  rw [readContent_of_text hc h]
  cases readContent limits depth (trimStart behind) with
  | error halt => simp
  | ok rest => simp [eq_comm]

theorem readContent_eq_ok_iff_of_element {limits : Limits} {depth : Nat}
    {content name body behind : List Char} {nodes : List Node} (hc : content ≠ [])
    (h : takePiece content = .ok (.element name body, behind)) :
    readContent limits depth content = .ok nodes ↔
      ∃ children rest, nodes = .element (String.ofList name) children :: rest ∧
        depth + 1 ≤ limits.maxDepth ∧
        readContent limits (depth + 1) (trim body) = .ok children ∧
        readContent limits depth (trimStart behind) = .ok rest := by
  rw [readContent_of_element hc h]
  constructor
  · intro hr
    split at hr
    · cases hr
    · rename_i node he
      obtain ⟨children, rfl, hd, hch⟩ := readElement_eq_ok_iff.mp he
      split at hr
      · cases hr
      · rename_i rest hrest
        cases hr
        exact ⟨children, rest, rfl, hd, hch, hrest⟩
  · rintro ⟨children, rest, rfl, hd, hch, hr⟩
    rw [readElement_eq_ok_iff.mpr ⟨children, rfl, hd, hch⟩, hr]

/-! ## Contents -/

/-- The nodes of some content that stands inside `depth` elements. -/
structure Contents (limits : Limits) (depth : Nat) (nodes : List Node)
    (content : List Char) : Prop where
  orderly : Orderly nodes
  nestable : ∀ node ∈ nodes, node.Nestable
  spaced : Spaced (Node.tokensAll nodes) content
  nesting_le : depth + Node.nestingAll nodes ≤ limits.maxDepth

/-- A tag stands in what children take up, with blanks around it, exactly if it stands
in their written form. -/
theorem infix_iff_infix_writtenAll {nodes : List Node} {mark start part final : List Char}
    (hm : IsTag mark) (ho : Orderly nodes) (hn : ∀ node ∈ nodes, node.Nestable)
    (hs : Blanks start) (hf : Blanks final) (h : Spaced (Node.tokensAll nodes) part) :
    mark <:+: start ++ part ++ final ↔ mark <:+: Node.writtenAll nodes := by
  have hplain := Node.plain_of_mem_tokensAll ho fun node hnode => (hn node hnode).tidy
  rw [List.append_assoc, hm.infix_append_iff (sealed_of_not_mem hs.not_mem),
    hm.infix_append_iff (h.sealed hplain), h.infix_iff_infix_flatMap hm hplain,
    Node.flatMap_written_tokensAll]
  simp [hm.not_infix hs.not_mem, hm.not_infix hf.not_mem]

/-- A text in front of a tag is not followed by blanks that are passed over. -/
theorem trimStart_of_head? {behind : List Char} (h : ∀ c ∈ behind.head?, c = '<') :
    trimStart behind = behind := by
  apply trimStart_eq_self
  intro c hc
  rw [h c hc]
  exact isBlank_mark (by simp)

section Contents
variable {limits : Limits} {depth : Nat} {content : List Char}

theorem contents_nil_iff (hd : depth ≤ limits.maxDepth) :
    Contents limits depth [] content ↔ content = [] := by
  constructor
  · intro h
    exact spaced_nil_iff.mp h.spaced
  · rintro rfl
    exact ⟨orderly_nil, by simp, .nil, hd⟩

/-- **A text in front**: it is the first piece, and the other nodes are the contents of
what stands behind it. -/
theorem contents_text_cons_iff {run : String} {rest : List Node} (hc : content ≠ [])
    (ht : Trimmed content) :
    Contents limits depth (.text run :: rest) content ↔
      ∃ behind, takePiece content = .ok (.text run.toList, behind) ∧
        Contents limits depth rest (trimStart behind) := by
  constructor
  · rintro ⟨ho, hn, hs, hd⟩
    obtain ⟨hrun, hnext, -, ho⟩ := orderly_text_cons_iff.mp ho
    rw [Node.tokensAll_cons, Node.tokens_text, List.singleton_append,
      spaced_text_cons_iff] at hs
    obtain ⟨behind, hs, rfl⟩ := hs
    have hb := (ho.isText_head?_iff hs).mp hnext
    refine ⟨behind, (takePiece_eq_text_iff hc).mpr ⟨rfl, hrun.ne_nil, hrun.not_mem, hb⟩, ho,
      fun node hm => hn node (List.mem_cons_of_mem _ hm), ?_, ?_⟩
    · rw [trimStart_of_head? hb]
      exact hs
    · simpa using hd
  · rintro ⟨behind, hp, ho, hn, hs, hd⟩
    obtain ⟨rfl, hr, hlt, hb⟩ := (takePiece_eq_text_iff hc).mp hp
    rw [trimStart_of_head? hb] at hs
    have hrun : IsRun run.toList := by
      refine ⟨hr, hlt, fun c hm => ht.first c ?_⟩
      rw [List.head?_append, Option.mem_def.mp hm]
      rfl
    -- a run ends only before a `<`, so no text follows
    have hnext := (ho.isText_head?_iff hs).mpr hb
    refine ⟨orderly_text_cons_iff.mpr ⟨hrun, hnext, ?_, ho⟩, ?_, ?_, by simpa using hd⟩
    · rintro rfl
      rw [Node.tokensAll_nil, spaced_nil_iff] at hs
      subst hs
      simpa using ht.final
    · intro node hm
      rcases List.mem_cons.mp hm with rfl | hm
      · exact Node.nestable_text run
      · exact hn node hm
    · exact .cons rfl hs

/-- **An element in front**: it is the first piece, its children are the contents of its
body one level deeper, and the other nodes are the contents of what stands behind. -/
theorem contents_element_cons_iff {name : String} {children rest : List Node} :
    Contents limits depth (.element name children :: rest) content ↔
      ∃ body behind, takePiece content = .ok (.element name.toList body, behind) ∧
        Contents limits (depth + 1) children (trim body) ∧
        Contents limits depth rest (trimStart behind) := by
  constructor
  · rintro ⟨ho, hn, hs, hd⟩
    obtain ⟨⟨⟨hname, hoc⟩, hclose⟩, hnc⟩ :=
      Node.nestable_element_iff.mp (hn _ List.mem_cons_self)
    have hor := orderly_element_cons_iff.mp ho
    obtain ⟨start, inner, final, gap, behind, hst, hf, hg, hi, hb, rfl⟩ :=
      spaced_element_cons_iff.mp hs
    have hbody : ¬ closingTag name.toList <:+: start ++ inner ++ final := by
      rwa [infix_iff_infix_writtenAll (isTag_closingTag hname) hoc hnc hst hf hi]
    rw [Node.nestingAll_cons, Node.nesting_element] at hd
    refine ⟨start ++ inner ++ final, gap ++ behind,
      takePiece_eq_element_iff.mpr ⟨rfl, hname, hbody⟩, ⟨hoc, hnc, ?_, by omega⟩,
      ⟨hor, fun node hm => hn node (List.mem_cons_of_mem _ hm), ?_, by omega⟩⟩
    · rw [trim_append hst hf (hoc.first_of_spaced hi)]
      exact hoc.spaced_trimEnd hi
    · rw [trimStart_append_of_all hg, trimStart_eq_self (hor.first_of_spaced hb)]
      exact hb
  · rintro ⟨body, behind, hp, ⟨hoc, hnc, hi, hdc⟩, ⟨hor, hnr, hb, hdr⟩⟩
    obtain ⟨rfl, hname, hbody⟩ := takePiece_eq_element_iff.mp hp
    obtain ⟨start, final, hst, hf, hbe⟩ := exists_trim body
    obtain ⟨gap, hg, hbe'⟩ := exists_trimStart behind
    have hclose : ¬ closingTag name.toList <:+: Node.writtenAll children := by
      rwa [← infix_iff_infix_writtenAll (isTag_closingTag hname) hoc hnc hst hf hi, ← hbe]
    refine ⟨orderly_element_cons_iff.mpr hor, ?_, ?_, ?_⟩
    · intro node hm
      rcases List.mem_cons.mp hm with rfl | hm
      · exact Node.nestable_element_iff.mpr ⟨⟨⟨hname, hoc⟩, hclose⟩, hnc⟩
      · exact hnr node hm
    · refine spaced_element_cons_iff.mpr
        ⟨start, trim body, final, gap, trimStart behind, hst, hf, hg, hi, hb, ?_⟩
      rw [← hbe, ← hbe']
    · rw [Node.nestingAll_cons, Node.nesting_element]
      omega

/-- Content that is not empty has a first piece, and its nodes begin with that piece. -/
theorem Contents.cases {nodes : List Node} (hc : content ≠ []) (ht : Trimmed content)
    (h : Contents limits depth nodes content) :
    (∃ run behind rest, takePiece content = .ok (.text run, behind) ∧
        nodes = .text (String.ofList run) :: rest ∧
        Contents limits depth rest (trimStart behind)) ∨
      ∃ name body behind children rest, takePiece content = .ok (.element name body, behind) ∧
        nodes = .element (String.ofList name) children :: rest ∧
        Contents limits (depth + 1) children (trim body) ∧
        Contents limits depth rest (trimStart behind) := by
  rcases nodes with _ | ⟨⟨name, children⟩ | run, rest⟩
  · exact absurd (spaced_nil_iff.mp h.spaced) hc
  · obtain ⟨body, behind, hp, hch, hr⟩ := contents_element_cons_iff.mp h
    refine .inr ⟨name.toList, body, behind, children, rest, hp, ?_, hch, hr⟩
    rw [String.ofList_toList]
  · obtain ⟨behind, hp, hr⟩ := (contents_text_cons_iff hc ht).mp h
    refine .inl ⟨run.toList, behind, rest, hp, ?_, hr⟩
    rw [String.ofList_toList]

/-- The contents of content that cannot be taken apart are not defined. -/
theorem not_contents_of_error {cause : DocumentError} {nodes : List Node} (hc : content ≠ [])
    (ht : Trimmed content) (h : takePiece content = .error cause) :
    ¬ Contents limits depth nodes content := by
  intro hcontents
  rcases hcontents.cases hc ht with ⟨_, _, _, hp, -⟩ | ⟨_, _, _, _, _, hp, -⟩
  · cases h.symm.trans hp
  · cases h.symm.trans hp

/-- With a text as its first piece, content has a text as its first node. -/
theorem contents_iff_of_text {run behind : List Char} {nodes : List Node} (hc : content ≠ [])
    (ht : Trimmed content) (h : takePiece content = .ok (.text run, behind)) :
    Contents limits depth nodes content ↔
      ∃ rest, nodes = .text (String.ofList run) :: rest ∧
        Contents limits depth rest (trimStart behind) := by
  constructor
  · intro hcontents
    rcases hcontents.cases hc ht with ⟨_, _, rest, hp, he, hr⟩ | ⟨_, _, _, _, _, hp, -⟩
    · cases h.symm.trans hp
      exact ⟨rest, he, hr⟩
    · cases h.symm.trans hp
  · rintro ⟨rest, rfl, hr⟩
    refine (contents_text_cons_iff hc ht).mpr ⟨behind, ?_, hr⟩
    rw [String.toList_ofList]
    exact h

/-- With an element as its first piece, content has that element as its first node. -/
theorem contents_iff_of_element {name body behind : List Char} {nodes : List Node}
    (hc : content ≠ []) (ht : Trimmed content)
    (h : takePiece content = .ok (.element name body, behind)) :
    Contents limits depth nodes content ↔
      ∃ children rest, nodes = .element (String.ofList name) children :: rest ∧
        Contents limits (depth + 1) children (trim body) ∧
        Contents limits depth rest (trimStart behind) := by
  constructor
  · intro hcontents
    rcases hcontents.cases hc ht with ⟨_, _, _, hp, -⟩ | ⟨_, _, _, children, rest, hp, he, hch, hr⟩
    · cases h.symm.trans hp
    · cases h.symm.trans hp
      exact ⟨children, rest, he, hch, hr⟩
  · rintro ⟨children, rest, rfl, hch, hr⟩
    refine contents_element_cons_iff.mpr ⟨body, behind, ?_, hch, hr⟩
    rw [String.toList_ofList]
    exact h

end Contents

/-! ## Reading -/

/-- **Reading content gives its nodes, and nothing else.** -/
theorem readContent_eq_ok_iff {limits : Limits} {depth : Nat} {content : List Char}
    {nodes : List Node} (hd : depth ≤ limits.maxDepth) (ht : Trimmed content) :
    readContent limits depth content = .ok nodes ↔ Contents limits depth nodes content := by
  -- each case is the reader's step on one side and the law of `Contents` for the same
  -- piece on the other; what is left to read stays trimmed
  induction content using contentInduction generalizing depth nodes with
  | nil =>
    rw [readContent_nil]
    constructor
    · rintro ⟨⟩
      exact (contents_nil_iff hd).mpr rfl
    · intro h
      rw [h.orderly.eq_nil_of_spaced_nil h.spaced]
  | fault content cause hc h =>
    rw [readContent_of_error hc h]
    exact iff_of_false (by simp) (not_contents_of_error hc ht h)
  | text content run behind hc h ih =>
    have hb := ht.trimStart ⟨run, (eq_of_takePiece h).symm⟩
    rw [readContent_eq_ok_iff_of_text hc h, contents_iff_of_text hc ht h]
    exact exists_congr fun rest => and_congr_right fun _ => ih hd hb
  | element content name body behind hc h ihb ihr =>
    have hb := ht.trimStart ⟨_, (eq_of_takePiece h).symm⟩
    rw [readContent_eq_ok_iff_of_element hc h, contents_iff_of_element hc ht h]
    constructor
    · rintro ⟨children, rest, rfl, hd', hch, hr⟩
      exact ⟨children, rest, rfl, (ihb hd' (trimmed_trim body)).mp hch, (ihr hd hb).mp hr⟩
    · rintro ⟨children, rest, rfl, hch, hr⟩
      have hd' := Nat.le_trans (Nat.le_add_right _ _) hch.nesting_le
      exact ⟨children, rest, rfl, hd', (ihb hd' (trimmed_trim body)).mpr hch, (ihr hd hb).mpr hr⟩

end TagPath
