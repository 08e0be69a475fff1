import TagPath.Proofs.Content

/-! # Documents and the trees they spell

A reader gives a tree for a document exactly if the tree is canonical, the document
spells it, and both are within the limits (`read_eq_ok_iff_spells`).  Both directions
are worth having by themselves: nothing is lost or invented in reading
(`canonical_and_spells_of_read`), and no layout of a canonical tree is refused
(`read_of_canonical_of_spells`).  Together they let every element of a tree that was
read be written down and read again (`read_render_of_read`).
-/
namespace TagPath
open Text

/-! ## Whole documents -/

section Whole
variable {limits : Limits} {depth : Nat} {text : List Char}

/-- A document that does not begin with `<` is a text. -/
theorem readWhole_of_text (h : text.head? ≠ some '<') :
    readWhole limits depth text = .ok (.text (String.ofList text)) := by
  unfold readWhole
  split
  · exact absurd rfl h
  · rfl

/-- A document between two tags of one name is an element. -/
theorem readWhole_of_tags {name body : List Char} (h : '>' ∉ name) :
    readWhole limits depth (openingTag name ++ body ++ closingTag name) =
      readElement limits depth name body := by
  have he : openingTag name ++ body ++ closingTag name =
      '<' :: (name ++ '>' :: (body ++ closingTag name)) := by simp [openingTag]
  rw [he, readWhole, cut?_singleton_append h]
  simp only [dropEnding?_eq_some_iff.mpr rfl]

/-- There are no other documents. -/
theorem text_or_tags_of_readWhole {tree : Node} (h : readWhole limits depth text = .ok tree) :
    (text.head? ≠ some '<' ∧ tree = .text (String.ofList text)) ∨
      ∃ name body, '>' ∉ name ∧ text = openingTag name ++ body ++ closingTag name ∧
        readElement limits depth name body = .ok tree := by
  unfold readWhole at h
  split at h
  · split at h
    · cases h
    · rename_i hn
      obtain ⟨rfl, hname⟩ := cut?_singleton_eq_some_iff.mp hn
      split at h
      · cases h
      · rename_i hb
        obtain rfl := dropEnding?_eq_some_iff.mp hb
        exact .inr ⟨_, _, hname, by simp [openingTag], h⟩
  · rename_i hne
    cases h
    refine .inl ⟨fun hh => ?_, rfl⟩
    obtain ⟨rest, rfl⟩ := List.head?_eq_some_iff.mp hh
    exact hne rest rfl

/-- What is read from a trimmed document is canonical, and the document is its tokens. -/
theorem spaced_of_readWhole {tree : Node} (hd : depth ≤ limits.maxDepth) (ht : Trimmed text)
    (h : readWhole limits depth text = .ok tree) :
    tree.Canonical ∧ Spaced tree.tokens text ∧ depth + tree.nesting ≤ limits.maxDepth := by
  rcases text_or_tags_of_readWhole h with ⟨hh, rfl⟩ | ⟨name, body, hn, rfl, he⟩
  · refine ⟨⟨?_, ?_⟩, ?_, hd⟩
    · rw [String.toList_ofList, ht.trim_eq]
    · rwa [String.toList_ofList]
    · rw [Node.tokens_text, String.toList_ofList]
      exact spaced_text_cons_iff.mpr ⟨[], .nil, (List.append_nil _).symm⟩
  · obtain ⟨children, rfl, hd', hch⟩ := readElement_eq_ok_iff.mp he
    have hcontents := (readContent_eq_ok_iff hd' (trimmed_trim body)).mp hch
    obtain ⟨start, final, hs, hf, hbody⟩ := exists_trim body
    -- the closing tag ends the document, so it may also stand in the body
    refine ⟨⟨⟨?_, hcontents.orderly⟩, hcontents.nestable⟩, ?_, ?_⟩
    · rwa [String.toList_ofList]
    · have hsp : Spaced (Node.tokensAll [.element (String.ofList name) children])
          (openingTag name ++ body ++ closingTag name) := by
        refine spaced_element_cons_iff.mpr ⟨start, trim body, final, [], [], hs, hf, blanks_nil,
          hcontents.spaced, .nil, ?_⟩
        rw [← hbody, String.toList_ofList, List.append_nil, List.append_nil]
      simpa using hsp
    · have hle := hcontents.nesting_le
      rw [Node.nesting_element]
      omega

/-- A canonical tree is read from any trimmed document that is its tokens. -/
theorem readWhole_of_spaced {tree : Node} (ht : Trimmed text) (hc : tree.Canonical)
    (hs : Spaced tree.tokens text) (hn : depth + tree.nesting ≤ limits.maxDepth) :
    readWhole limits depth text = .ok tree := by
  cases tree with
  | text content =>
    rw [Node.tokens_text, spaced_text_cons_iff] at hs
    obtain ⟨_, ⟨⟩, rfl⟩ := hs
    rw [List.append_nil, readWhole_of_text hc.2, String.ofList_toList]
  | element name children =>
    obtain ⟨⟨hname, ho⟩, hnest⟩ := hc
    have hs' : Spaced (Node.tokensAll [.element name children]) text := by simpa using hs
    obtain ⟨start, inner, final, gap, _, hst, hf, hg, hi, ⟨⟩, rfl⟩ :=
      spaced_element_cons_iff.mp hs'
    -- a trimmed document has no gap behind the closing tag
    have he := trimEnd_eq_self ht.final
    rw [List.append_nil, trimEnd_append hg, trimEnd_append_closingTag] at he
    rw [List.append_nil, ← he, readWhole_of_tags hname]
    rw [Node.nesting_element] at hn
    have hinner : Spaced (Node.tokensAll children) (trim (start ++ inner ++ final)) := by
      rw [trim_append hst hf (ho.first_of_spaced hi)]
      exact ho.spaced_trimEnd hi
    refine readElement_eq_ok_iff.mpr ⟨children, by rw [String.ofList_toList], by omega, ?_⟩
    have hd : depth + 1 ≤ limits.maxDepth := by omega
    exact (readContent_eq_ok_iff hd (trimmed_trim _)).mpr ⟨ho, hnest, hinner, by omega⟩

/-- **Reading a trimmed document gives the canonical tree that it is the tokens of, and
nothing else.** -/
theorem readWhole_eq_ok_iff {tree : Node} (hd : depth ≤ limits.maxDepth) (ht : Trimmed text) :
    readWhole limits depth text = .ok tree ↔
      tree.Canonical ∧ Spaced tree.tokens text ∧ depth + tree.nesting ≤ limits.maxDepth := by
  constructor
  · intro h
    exact spaced_of_readWhole hd ht h
  · rintro ⟨hc, hs, hn⟩
    exact readWhole_of_spaced ht hc hs hn

end Whole

/-! ## Documents with blanks at their ends -/

/-- Blanks at the ends of a document do not matter for what it spells. -/
theorem spells_iff_spaced_trim {document : List Char} {tree : Node} (hc : tree.Canonical) :
    Spells document tree ↔ Spaced tree.tokens (trim document) := by
  constructor
  · rintro ⟨start, body, final, hs, hf, hb, rfl⟩
    cases tree with
    | text content =>
      rw [Node.tokens_text, spaced_text_cons_iff] at hb
      obtain ⟨_, ⟨⟩, rfl⟩ := hb
      have ht : Trimmed content.toList := hc.1 ▸ trimmed_trim content.toList
      rw [List.append_nil, trim_append hs hf ht.first, trimEnd_eq_self ht.final]
      exact spaced_text_cons_iff.mpr ⟨[], .nil, (List.append_nil _).symm⟩
    | element name children =>
      have ho : Orderly [.element name children] := orderly_element_cons_iff.mpr orderly_nil
      have hb' : Spaced (Node.tokensAll [.element name children]) body := by simpa using hb
      rw [trim_append hs hf (ho.first_of_spaced hb')]
      simpa using ho.spaced_trimEnd hb'
  · intro h
    obtain ⟨start, final, hs, hf, he⟩ := exists_trim document
    exact ⟨start, trim document, final, hs, hf, h, he⟩

/-- A document that is not too long is read without the blanks at its ends. -/
theorem read_of_size_le {limits : Limits} {document : String}
    (h : document.utf8ByteSize ≤ limits.maxSize) :
    Node.read limits (some document) =
      (readWhole limits 0 (trim document.toList)).mapError Halt.cause := by
  simp only [Node.read_eq, readDocument, Limits.admitSize_eq_ok_iff.mpr h]

theorem read_eq_ok_iff {limits : Limits} {document : String} {tree : Node} :
    Node.read limits (some document) = .ok tree ↔
      document.utf8ByteSize ≤ limits.maxSize ∧
        readWhole limits 0 (trim document.toList) = .ok tree := by
  by_cases hs : document.utf8ByteSize ≤ limits.maxSize
  · rw [read_of_size_le hs]
    simp only [hs, true_and]
    cases readWhole limits 0 (trim document.toList) <;> simp [Except.mapError]
  · simp only [Node.read_eq, readDocument, Limits.admitSize, if_pos (Nat.lt_of_not_le hs)]
    simp [hs, Except.mapError]

/-- **A reader gives exactly the canonical tree that the document spells**, if both are
within the limits. -/
theorem read_eq_ok_iff_spells {limits : Limits} {document : String} {tree : Node} :
    Node.read limits (some document) = .ok tree ↔
      tree.Canonical ∧ Spells document.toList tree ∧ tree.nesting ≤ limits.maxDepth ∧
        document.utf8ByteSize ≤ limits.maxSize := by
  rw [read_eq_ok_iff, readWhole_eq_ok_iff (Nat.zero_le _) (trimmed_trim _), Nat.zero_add]
  constructor
  · rintro ⟨hsize, hc, hs, hn⟩
    exact ⟨hc, (spells_iff_spaced_trim hc).mpr hs, hn, hsize⟩
  · rintro ⟨hc, hs, hn, hsize⟩
    exact ⟨hsize, hc, (spells_iff_spaced_trim hc).mp hs, hn⟩

/-! ## Round trips -/

/-- Leaving characters out does not lengthen a text. -/
theorem utf8ByteSize_le_of_sublist {left right : List Char} (h : left.Sublist right) :
    (String.ofList left).utf8ByteSize ≤ (String.ofList right).utf8ByteSize := by
  rw [String.utf8ByteSize_ofList, String.utf8ByteSize_ofList]
  exact String.utf8Len_le_of_sublist h

/-- The written form of a subtree has no more bytes than a document of the tree. -/
theorem utf8ByteSize_render_le {document : String} {tree node : Node}
    (h : Spells document.toList tree) (hn : node ∈ tree.subtrees) :
    node.render.utf8ByteSize ≤ document.utf8ByteSize := by
  have := utf8ByteSize_le_of_sublist ((Node.written_infix hn).sublist.trans h.sublist)
  rwa [String.ofList_toList] at this

/-- **What was read can be written and read again.**  For the tree of a document and for
every element in it, the written form is a document of just that tree, under the limits
of the first reading: it is not longer than the document, and its tree is not nested
deeper. -/
theorem read_render_of_read {limits : Limits} {document : String} {tree : Node}
    (h : Node.read limits (some document) = .ok tree) :
    ∀ node ∈ tree.subtrees, node = tree ∨ node.isText = false →
      Node.read limits (some node.render) = .ok node ∧
        node.render.utf8ByteSize ≤ document.utf8ByteSize ∧ node.nesting ≤ tree.nesting ∧
        tree.nesting ≤ limits.maxDepth := by
  obtain ⟨hc, hs, hd, hsize⟩ := read_eq_ok_iff_spells.mp h
  intro node hn hor
  have hcanonical : node.Canonical := by
    rcases hor with rfl | ht
    · exact hc
    · exact hc.of_mem_subtrees hn ht
  have hspells : Spells node.render.toList node := by
    rw [Node.render, String.toList_ofList]
    exact spells_written node
  -- the written form of the subtree stands in that of the tree, and the document holds it
  -- with blanks in between
  have hbytes := utf8ByteSize_render_le hs hn
  have hnesting := Node.nesting_le_of_mem_subtrees hn
  refine ⟨read_eq_ok_iff_spells.mpr ⟨hcanonical, hspells, ?_, ?_⟩, hbytes, hnesting, hd⟩
  · exact Nat.le_trans hnesting hd
  · exact Nat.le_trans hbytes hsize

/-- The inner element below holds blanks, a name with marks and a text of its own. -/
theorem read_render_of_read_inner :
    Node.read {} (some "\t<a b> x <b> </b>y<c/<d>1<b></b></c/<d>\n</a b> ") =
        .ok (.element "a b" [.text "x ", .element "b" [], .text "y",
          .element "c/<d" [.text "1", .element "b" []]]) ∧
      Node.read {} (some "<c/<d>1<b></b></c/<d>") =
        .ok (.element "c/<d" [.text "1", .element "b" []]) := by
  have h : Node.read {} (some "\t<a b> x <b> </b>y<c/<d>1<b></b></c/<d>\n</a b> ") =
      .ok (.element "a b" [.text "x ", .element "b" [], .text "y",
        .element "c/<d" [.text "1", .element "b" []]]) := by cbv
  exact ⟨h, (read_render_of_read h (.element "c/<d" [.text "1", .element "b" []])
    (by decide) (.inr rfl)).1⟩

/-! ## Nothing lost, nothing invented -/

/-- **A tree that was read is canonical, and its document is its written form with blanks
in between**: behind opening tags, around closing tags, and at the two ends.  All other
characters of the document are those of the written form, in their order. -/
theorem canonical_and_spells_of_read {limits : Limits} {document : String} {tree : Node}
    (h : Node.read limits (some document) = .ok tree) :
    tree.Canonical ∧ Spells document.toList tree ∧
      document.toList.filter (!isBlank ·) = tree.written.filter (!isBlank ·) := by
  obtain ⟨hc, hs, -, -⟩ := read_eq_ok_iff_spells.mp h
  exact ⟨hc, hs, hs.filter_blank⟩

theorem canonical_and_spells_of_read_mixed :
    Node.read {} (some " <a> x <b>\u3000</b> y </a>\n") =
        .ok (.element "a" [.text "x ", .element "b" [], .text "y"]) ∧
      Spells " <a> x <b>\u3000</b> y </a>\n".toList
        (.element "a" [.text "x ", .element "b" [], .text "y"]) := by
  have h : Node.read {} (some " <a> x <b>\u3000</b> y </a>\n") =
      .ok (.element "a" [.text "x ", .element "b" [], .text "y"]) := by cbv
  exact ⟨h, (canonical_and_spells_of_read h).2.1⟩

/-- **However a canonical tree is laid out, it is read back**, if the limits admit its
nesting and the size of the document. -/
theorem read_of_canonical_of_spells {limits : Limits} {document : String} {tree : Node}
    (hc : tree.Canonical) (hs : Spells document.toList tree)
    (hd : tree.nesting ≤ limits.maxDepth) (hsize : document.utf8ByteSize ≤ limits.maxSize) :
    Node.read limits (some document) = .ok tree :=
  read_eq_ok_iff_spells.mpr ⟨hc, hs, hd, hsize⟩

theorem read_of_canonical_of_spells_wide :
    Node.read ⟨2, 40⟩ (some "\n<a>\u3000x <b c>\t</b c> </a>") =
      .ok (.element "a" [.text "x ", .element "b c" []]) := by
  have hc : (Node.element "a" [.text "x ", .element "b c" []]).Canonical := by decide
  have hinner : Spaced (Node.tokensAll [.text "x ", .element "b c" []])
      "x <b c>\t</b c>".toList :=
    spaced_text_cons_iff.mpr ⟨"<b c>\t</b c>".toList,
      spaced_element_cons_iff.mpr ⟨['\t'], [], [], [], [], by decide, by decide, by decide,
        .nil, .nil, by decide⟩, by decide⟩
  have hs : Spells "\n<a>\u3000x <b c>\t</b c> </a>".toList
      (.element "a" [.text "x ", .element "b c" []]) := by
    refine ⟨['\n'], "<a>\u3000x <b c>\t</b c> </a>".toList, [], by decide, by decide, ?_,
      by decide⟩
    have h : Spaced (Node.tokensAll [.element "a" [.text "x ", .element "b c" []]])
        "<a>\u3000x <b c>\t</b c> </a>".toList :=
      spaced_element_cons_iff.mpr ⟨['\u3000'], _, [' '], [], [], by decide, by decide,
        by decide, hinner, .nil, by decide⟩
    simpa using h
  exact read_of_canonical_of_spells hc hs (by decide) (by decide)

end TagPath
