import TagPath.Proofs.ByteOffset
import TagPath.Proofs.DepthLimit

/-! # Reading by byte offsets

A document can be read without taking it apart: a search gives the offset where a tag ends,
the offsets of tags are added up, and what stands between two of them is sliced out.  Such a
reading asks for slices of which it is not plain that they are there.  The root's body ends
where its closing tag begins, which might be before its opening tag ends; the rest of some
content begins where a sum of lengths says; and the reading goes on as long as something is
left, so it ends only if each round takes something away.

`readDocumentAt` is this reading.  It stops with an exit of its own where a slice is not
there, and it may go on for a given number of rounds only.  **Neither ever happens**: the
root's tags do not overlap (`rootAt_of_tags`), each round takes up a whole piece of the
content and hands on slices that are shorter (`roundAt_eq`, `Round.Advances`), and with more
rounds than the document has bytes the reading gives just what the reader gives
(`readDocumentAt_eq`).
-/
namespace TagPath
open Text
open String (utf8Len)

/-! ## Exits -/

/-- How a reading by offsets ends without a result. -/
inductive Exit (ε : Type) where
  /-- The document is at fault. -/
  | fault (error : ε)
  /-- There is no slice between two offsets. -/
  | noSlice
  /-- All rounds are used up. -/
  | noRounds
deriving Repr, DecidableEq

/-- The same exit, with more told about a fault. -/
def Exit.map {ε δ : Type} (tell : ε → δ) : Exit ε → Exit δ
  | fault error => fault (tell error)
  | noSlice => noSlice
  | noRounds => noRounds

/-! ## The reading -/

/-- The name in the tag at the beginning, and the offset behind the tag. -/
def openingTagAt (text : List Char) : Except (Exit DocumentError) (List Char × Nat) :=
  match offsetOf? ['>'] text with
  | none => .error (.fault .unclosedBracket)
  | some mark => match slice? 1 mark text with
    | none => .error .noSlice
    | some name => .ok (name, mark + 1)

/-- The name and the body of the root.  The body ends as many bytes before the end of the
document as the closing tag has. -/
def rootAt (text : List Char) : Except (Exit DocumentError) (List Char × List Char) :=
  match openingTagAt text with
  | .error exit => .error exit
  | .ok (name, start) =>
    if (closingTag name).isSuffixOf text then
      match (utf8Len text).psub (utf8Len (closingTag name)) with
      | none => .error .noSlice
      | some stop => match slice? start stop text with
        | none => .error .noSlice
        | some body => .ok (name, body)
    else .error (.fault (.missingClosingTag (String.ofList name)))

/-- What a round of reading content comes to. -/
structure Round where
  piece : Piece
  /-- How many bytes of the content the round takes up. -/
  consumed : Nat
deriving Repr, DecidableEq

/-- A round: the first piece of the content, which is not empty. -/
def roundAt (content : List Char) : Except (Exit DocumentError) Round :=
  if content.head? = some '<' then
    match openingTagAt content with
    | .error exit => .error exit
    | .ok (name, start) => match sliceFrom? start content with
      | none => .error .noSlice
      | some tail => match offsetOf? (closingTag name) tail with
        | none => .error (.fault (.missingClosingTag (String.ofList name)))
        | some position => match slice? start (position + start) content with
          | none => .error .noSlice
          | some body =>
            .ok ⟨.element name body, position + start + utf8Len (closingTag name)⟩
  else
    let stop := (offsetOf? ['<'] content).getD (utf8Len content)
    match slice? 0 stop content with
    | none => .error .noSlice
    | some run => .ok ⟨.text run, stop⟩

/-- Reads an element whose body is read by `readBody` at the given depth. -/
def elementAt (limits : Limits) (depth : Nat) (name : List Char)
    (readBody : Nat → Except (Exit Halt) (List Node)) : Except (Exit Halt) Node :=
  match limits.enter depth with
  | .error halt => .error (.fault halt)
  | .ok inner => (readBody inner).map (.element (String.ofList name))

/-- Reads element content round by round, while `depth` elements are open. -/
def readContentAt (limits : Limits) : (rounds depth : Nat) → (content : List Char) →
    Except (Exit Halt) (List Node)
  | 0, _, _ => .error .noRounds
  | rounds + 1, depth, content =>
    if content = [] then .ok []
    else match roundAt content with
    | .error exit => .error (exit.map (⟨·, depth⟩))
    | .ok round =>
      let first : Except (Exit Halt) Node := match round.piece with
        | .text run => .ok (.text (String.ofList run))
        | .element name body =>
          elementAt limits depth name fun inner => readContentAt limits rounds inner (trim body)
      match first with
      | .error exit => .error exit
      | .ok node => match sliceFrom? round.consumed content with
        | none => .error .noSlice
        | some behind => (readContentAt limits rounds depth (trim behind)).map (node :: ·)

/-- Reads a document without blanks at its ends. -/
def readWholeAt (limits : Limits) (rounds depth : Nat) (text : List Char) :
    Except (Exit Halt) Node :=
  if text.head? = some '<' then
    match rootAt text with
    | .error exit => .error (exit.map (⟨·, depth⟩))
    | .ok (name, body) =>
      elementAt limits depth name fun inner => readContentAt limits rounds inner (trim body)
  else .ok (.text (String.ofList text))

/-- Reads a document, which may be missing, by offsets. -/
def readDocumentAt (limits : Limits) (rounds depth : Nat) :
    Option String → Except (Exit Halt) Node
  | none => .error (.fault ⟨.missingInput, depth⟩)
  | some document => match limits.admitSize document.utf8ByteSize with
    | .error cause => .error (.fault ⟨cause, depth⟩)
    | .ok () => readWholeAt limits rounds depth (trim document.toList)

/-! ## Tags -/

theorem utf8Len_openingTag (name : List Char) :
    utf8Len (openingTag name) = utf8Len name + 2 := by
  have hlt : '<'.utf8Size = 1 := by decide
  have hgt : '>'.utf8Size = 1 := by decide
  simp [openingTag, hlt, hgt]

/-- The tag at the beginning is found with its name, and the offset behind it. -/
theorem openingTagAt_append {name : List Char} (hn : '>' ∉ name) (after : List Char) :
    openingTagAt (openingTag name ++ after) = .ok (name, utf8Len (openingTag name)) := by
  have hlt : '<'.utf8Size = 1 := by decide
  have hcut : cut? ['>'] (openingTag name ++ after) = some ('<' :: name, after) :=
    cut?_singleton_eq_some_iff.mpr ⟨by simp [openingTag], by simp [hn]⟩
  have hmark : offsetOf? ['>'] (openingTag name ++ after) = some (utf8Len name + 1) :=
    offsetOf?_eq_some_iff.mpr ⟨_, _, hcut, by simp [hlt]⟩
  have hname : slice? 1 (utf8Len name + 1) (openingTag name ++ after) = some name :=
    slice?_eq_some_iff.mpr ⟨['<'], '>' :: after, by simp [openingTag], by simp [hlt],
      Nat.add_comm _ _⟩
  simp only [openingTagAt, hmark, hname, utf8Len_openingTag]

theorem openingTagAt_of_not_mem {rest : List Char} (h : '>' ∉ rest) :
    openingTagAt ('<' :: rest) = .error (.fault .unclosedBracket) := by
  have hcut : cut? ['>'] ('<' :: rest) = none := cut?_singleton_eq_none_iff.mpr (by simp [h])
  simp only [openingTagAt, offsetOf?, hcut, Option.map_none]

/-- What begins like an element begins with a tag, or has no `>`. -/
theorem not_mem_or_exists_openingTag (rest : List Char) :
    '>' ∉ rest ∨ ∃ name after, '>' ∉ name ∧ '<' :: rest = openingTag name ++ after := by
  cases hcut : cut? ['>'] rest with
  | none => exact .inl (cut?_singleton_eq_none_iff.mp hcut)
  | some parts =>
    obtain ⟨rfl, hn⟩ := cut?_singleton_eq_some_iff.mp hcut
    exact .inr ⟨parts.1, parts.2, hn, by simp [openingTag]⟩

/-- A tag that was found at the beginning stands there. -/
theorem openingTag_of_openingTagAt {text name : List Char} {start : Nat}
    (hh : text.head? = some '<') (h : openingTagAt text = .ok (name, start)) :
    '>' ∉ name ∧ start = utf8Len (openingTag name) ∧ ∃ after, text = openingTag name ++ after := by
  obtain ⟨rest, rfl⟩ := List.head?_eq_some_iff.mp hh
  rcases not_mem_or_exists_openingTag rest with hn | ⟨name', after, hn, he⟩
  · rw [openingTagAt_of_not_mem hn] at h
    cases h
  · rw [he, openingTagAt_append hn] at h
    obtain ⟨rfl, rfl⟩ := Prod.mk.inj (Except.ok.inj h)
    exact ⟨hn, rfl, after, he⟩

/-! ## The root -/

/-- **The root's tags do not overlap**: a document that begins with an opening tag and ends
with the closing tag for it has a body between the two. -/
theorem exists_body_of_suffix {name after : List Char} (hn : '>' ∉ name)
    (h : closingTag name <:+ openingTag name ++ after) : ∃ body, after = body ++ closingTag name := by
  have hcut : cut? ['>'] (name ++ '>' :: after) = some (name, after) :=
    cut?_singleton_append hn after
  have he : '<' :: (name ++ '>' :: after) = openingTag name ++ after := by simp [openingTag]
  obtain ⟨body, hb⟩ := (closingTag_suffix_iff hcut).mp (he ▸ h)
  exact ⟨body, hb.symm⟩

/-- The body is the slice between the tags. -/
theorem slice?_body (name body behind : List Char) :
    slice? (utf8Len (openingTag name)) (utf8Len body + utf8Len (openingTag name))
      (openingTag name ++ body ++ closingTag name ++ behind) = some body :=
  slice?_eq_some_iff.mpr ⟨openingTag name, closingTag name ++ behind, by simp, rfl,
    Nat.add_comm _ _⟩

theorem rootAt_of_tags {name : List Char} (hn : '>' ∉ name) (body : List Char) :
    rootAt (openingTag name ++ body ++ closingTag name) = .ok (name, body) := by
  have hopen : openingTagAt (openingTag name ++ body ++ closingTag name) =
      .ok (name, utf8Len (openingTag name)) := by
    rw [List.append_assoc]
    exact openingTagAt_append hn _
  have hsuffix : (closingTag name).isSuffixOf (openingTag name ++ body ++ closingTag name) = true :=
    List.isSuffixOf_iff_suffix.mpr (List.suffix_append _ _)
  have hstop : (utf8Len (openingTag name ++ body ++ closingTag name)).psub
      (utf8Len (closingTag name)) = some (utf8Len body + utf8Len (openingTag name)) :=
    Nat.psub_eq_some.mpr (by simp only [String.utf8Len_append]; omega)
  have hbody : slice? (utf8Len (openingTag name)) (utf8Len body + utf8Len (openingTag name))
      (openingTag name ++ body ++ closingTag name) = some body := by
    simpa using slice?_body name body []
  simp only [rootAt, hopen, hsuffix, hstop, hbody, if_true]

theorem rootAt_of_rootFault {text : List Char} {cause : DocumentError} (h : RootFault text cause) :
    rootAt text = .error (.fault cause) := by
  cases h with
  | bracket hn => simp only [rootAt, openingTagAt_of_not_mem hn]
  | @closing name after hn hc =>
    have hsuffix : (closingTag name).isSuffixOf (openingTag name ++ after) = false :=
      Bool.eq_false_iff.mpr (mt List.isSuffixOf_iff_suffix.mp hc)
    simp [rootAt, openingTagAt_append hn, hsuffix]

theorem RootFault.head?_eq {text : List Char} {cause : DocumentError} (h : RootFault text cause) :
    text.head? = some '<' := by
  cases h <;> simp [openingTag]

/-! ## Rounds -/

/-- A round that makes headway: it takes up at least one byte and no more than there are, up
to a character boundary, and so loses nothing of the content; and the body of an element is
a slice of the content that has fewer bytes. -/
structure Round.Advances (round : Round) (content : List Char) : Prop where
  pos : 1 ≤ round.consumed
  le : round.consumed ≤ utf8Len content
  boundary : (String.Pos.Raw.mk round.consumed).IsValid (String.ofList content)
  behind : ∃ behind, sliceFrom? round.consumed content = some behind ∧
    content = round.piece.written ++ behind
  body : ∀ name body, round.piece = .element name body →
    (∃ start stop, slice? start stop content = some body) ∧ utf8Len body < utf8Len content

/-- The round that takes up a piece and nothing else. -/
def Round.ofPiece (piece : Piece) : Round := ⟨piece, utf8Len piece.written⟩

/-- What a round comes to if it takes just the first piece off the content. -/
def takeRound (content : List Char) : Except (Exit DocumentError) Round :=
  match takePiece content with
  | .error cause => .error (.fault cause)
  | .ok (piece, _) => .ok (Round.ofPiece piece)

/-- Behind an opening tag, a round goes on to the first place of the closing tag. -/
theorem roundAt_openingTag {name : List Char} (hn : '>' ∉ name) (after : List Char) :
    roundAt (openingTag name ++ after) = takeRound (openingTag name ++ after) := by
  have hh : (openingTag name ++ after).head? = some '<' := by simp [openingTag]
  have htail : sliceFrom? (utf8Len (openingTag name)) (openingTag name ++ after) = some after :=
    sliceFrom?_eq_some_iff.mpr ⟨_, rfl, rfl⟩
  simp only [roundAt, if_pos hh, openingTagAt_append hn, htail, takeRound]
  cases hcut : cut? (closingTag name) after with
  | none =>
    have hi := (cut?_eq_none_iff (closingTag_ne_nil name)).mp hcut
    have hpiece := takePiece_openingTag_of_not_infix hn hi
    simp only [hpiece, offsetOf?, hcut, Option.map_none]
  | some parts =>
    obtain ⟨body, behind⟩ := parts
    obtain ⟨rfl, hb⟩ := (isTag_closingTag hn).cut?_eq_some_iff.mp hcut
    have hposition := offsetOf?_eq_some_iff.mpr ⟨_, _, hcut, rfl⟩
    have hassoc : openingTag name ++ (body ++ closingTag name ++ behind) =
        openingTag name ++ body ++ closingTag name ++ behind := by simp
    rw [hassoc, takePiece_eq_element_iff.mpr ⟨rfl, hn, hb⟩]
    simp only [hposition, slice?_body, Round.ofPiece, Piece.written, String.utf8Len_append,
      Except.ok.injEq, Round.mk.injEq, true_and]
    omega

/-- Where no tag begins, a round goes on to the next `<` or to the end. -/
theorem roundAt_of_head?_ne {content : List Char} (hh : content.head? ≠ some '<') :
    roundAt content = takeRound content := by
  have hrun : slice? 0 (utf8Len (content.takeWhile (· != '<'))) content =
      some (content.takeWhile (· != '<')) :=
    slice?_eq_some_iff.mpr ⟨[], content.dropWhile (· != '<'),
      by simp [List.takeWhile_append_dropWhile], rfl, Nat.zero_add _⟩
  have hpiece : takePiece content =
      .ok (.text (content.takeWhile (· != '<')), content.dropWhile (· != '<')) := by
    unfold takePiece
    split
    · exact absurd rfl hh
    · rfl
  simp only [roundAt, if_neg hh, offsetOf?_getD, hrun, takeRound, hpiece, Round.ofPiece,
    Piece.written]

/-- **A round takes the first piece off the content**, and every slice it asks for is there. -/
theorem roundAt_eq (content : List Char) : roundAt content = takeRound content := by
  by_cases hh : content.head? = some '<'
  · obtain ⟨rest, rfl⟩ := List.head?_eq_some_iff.mp hh
    rcases not_mem_or_exists_openingTag rest with hn | ⟨name, after, hn, he⟩
    · have hcut := cut?_singleton_eq_none_iff.mpr hn
      simp [roundAt, takeRound, openingTagAt_of_not_mem hn, takePiece, hcut]
    · rw [he]
      exact roundAt_openingTag hn after
  · exact roundAt_of_head?_ne hh

theorem utf8Len_pos {text : List Char} (h : text ≠ []) : 0 < utf8Len text :=
  Nat.pos_of_ne_zero (mt String.utf8Len_eq_zero.mp h)

/-- What a round leaves is what stands behind its piece. -/
theorem sliceFrom?_of_takePiece {content behind : List Char} {piece : Piece}
    (h : takePiece content = .ok (piece, behind)) :
    sliceFrom? (utf8Len piece.written) content = some behind :=
  sliceFrom?_eq_some_iff.mpr ⟨_, eq_of_takePiece h, rfl⟩

theorem advances_of_takePiece {content behind : List Char} {piece : Piece} (hc : content ≠ [])
    (h : takePiece content = .ok (piece, behind)) :
    (Round.ofPiece piece).Advances content where
  pos := utf8Len_pos (written_ne_nil_of_takePiece hc h)
  le := by
    have hp : piece.written <+: content := ⟨behind, (eq_of_takePiece h).symm⟩
    exact String.utf8Len_le_of_prefix hp
  boundary := by
    have hs := splitAtByte?_eq_some_iff.mpr ⟨eq_of_takePiece h, rfl⟩
    exact isSome_splitAtByte?_iff.mp (Option.isSome_iff_exists.mpr ⟨_, hs⟩)
  behind := ⟨behind, sliceFrom?_of_takePiece h, eq_of_takePiece h⟩
  body := by
    rintro name body rfl
    rw [eq_of_takePiece h]
    refine ⟨⟨_, _, slice?_body name body behind⟩, ?_⟩
    simp only [Piece.written, String.utf8Len_append, utf8Len_openingTag]
    omega

/-! ## The whole reading -/

theorem utf8Len_trim_le (text : List Char) : utf8Len (trim text) ≤ utf8Len text := by
  obtain ⟨start, final, -, -, he⟩ := exists_trim text
  conv => rhs; rw [he]
  exact String.utf8Len_le_of_infix (List.infix_append _ _ _)

/-- Reading the body of an element by offsets is reading the body. -/
theorem elementAt_eq {limits : Limits} {name body : List Char}
    {readBody : Nat → Except (Exit Halt) (List Node)}
    (h : ∀ depth, readBody depth = (readContent limits depth (trim body)).mapError .fault)
    (depth : Nat) :
    elementAt limits depth name readBody =
      (readElement limits depth name body).mapError .fault := by
  unfold elementAt readElement
  cases limits.enter depth with
  | error halt => rfl
  | ok inner =>
    simp only [h]
    cases readContent limits inner (trim body) <;> rfl

/-- What is behind a piece ends where the content ends, and so without blanks. -/
theorem trim_behind {content behind : List Char} {piece : Piece} (ht : Trimmed content)
    (h : takePiece content = .ok (piece, behind)) : trim behind = trimStart behind := by
  have hs : behind <:+ content := ⟨piece.written, (eq_of_takePiece h).symm⟩
  exact trimEnd_eq_self (ht.trimStart hs).final

theorem utf8Len_behind_lt {content behind : List Char} {piece : Piece} (hc : content ≠ [])
    (h : takePiece content = .ok (piece, behind)) : utf8Len (trim behind) < utf8Len content := by
  have hpos := utf8Len_pos (written_ne_nil_of_takePiece hc h)
  have hle := utf8Len_trim_le behind
  rw [eq_of_takePiece h, String.utf8Len_append]
  omega

/-- **With more rounds than bytes, content is read to its end.** -/
theorem readContentAt_eq {limits : Limits} {rounds depth : Nat} {content : List Char}
    (ht : Trimmed content) (hr : utf8Len content < rounds) :
    readContentAt limits rounds depth content =
      (readContent limits depth content).mapError .fault := by
  induction rounds generalizing depth content with
  | zero => cases hr
  | succ rounds ih =>
    by_cases hc : content = []
    · subst hc
      simp [readContentAt, Except.mapError]
    rw [readContentAt, if_neg hc, roundAt_eq, takeRound]
    cases hp : takePiece content with
    | error cause =>
      rw [readContent_of_error hc hp]
      rfl
    | ok parts =>
      obtain ⟨piece, behind⟩ := parts
      -- both slices that are handed on have fewer bytes, so the rounds left are enough
      have hbehind : readContentAt limits rounds depth (trim behind) =
          (readContent limits depth (trimStart behind)).mapError .fault := by
        have hlt := utf8Len_behind_lt hc hp
        rw [← trim_behind ht hp]
        exact ih (trimmed_trim behind) (by omega)
      simp only [Round.ofPiece, sliceFrom?_of_takePiece hp, hbehind]
      cases piece with
      | text run =>
        rw [readContent_of_text hc hp]
        cases readContent limits depth (trimStart behind) <;> rfl
      | element name body =>
        have hbody : ∀ inner, readContentAt limits rounds inner (trim body) =
            (readContent limits inner (trim body)).mapError .fault := by
          intro inner
          have hlt := ((advances_of_takePiece hc hp).body name body rfl).2
          have hle := utf8Len_trim_le body
          exact ih (trimmed_trim body) (by omega)
        dsimp only
        rw [readContent_of_element hc hp, elementAt_eq hbody]
        cases readElement limits depth name body with
        | error halt => rfl
        | ok node => cases readContent limits depth (trimStart behind) <;> rfl

theorem readWholeAt_eq {limits : Limits} {rounds depth : Nat} {text : List Char}
    (hr : utf8Len text < rounds) :
    readWholeAt limits rounds depth text = (readWhole limits depth text).mapError .fault := by
  rcases text_or_rootFault_or_tags text with hh | ⟨cause, hf⟩ | ⟨name, body, hn, rfl⟩
  · rw [readWholeAt, if_neg hh, readWhole_of_text hh]
    rfl
  · rw [readWholeAt, if_pos hf.head?_eq, rootAt_of_rootFault hf, readWhole_of_rootFault hf]
    rfl
  · have hh : (openingTag name ++ body ++ closingTag name).head? = some '<' := by
      simp [openingTag]
    have hbody : ∀ inner, readContentAt limits rounds inner (trim body) =
        (readContent limits inner (trim body)).mapError .fault := by
      intro inner
      have hle := utf8Len_trim_le body
      simp only [String.utf8Len_append] at hr
      exact readContentAt_eq (trimmed_trim body) (by omega)
    rw [readWholeAt, if_pos hh, rootAt_of_tags hn, readWhole_of_tags hn]
    exact elementAt_eq hbody depth

/-- **A reading by offsets is a reading**: given more rounds than the document has bytes, it
ends, never for want of a slice, with the reader's result or the reader's fault. -/
theorem readDocumentAt_eq {limits : Limits} {rounds depth : Nat} {document : Option String}
    (hr : ∀ text ∈ document, text.utf8ByteSize < rounds) :
    readDocumentAt limits rounds depth document =
      (readDocument limits depth document).mapError .fault := by
  cases document with
  | none => rfl
  | some document =>
    simp only [readDocumentAt, readDocument]
    cases limits.admitSize document.utf8ByteSize with
    | error cause => rfl
    | ok _ =>
      have hle := utf8Len_trim_le document.toList
      have hsize : utf8Len document.toList = document.utf8ByteSize := by
        rw [← String.utf8ByteSize_ofList, String.ofList_toList]
      have hlt := hr document rfl
      exact readWholeAt_eq (by omega)

/-- **No slice is missing, and each round makes headway.**  Where the root's tags stand, the
one ends before the other begins, and the body is between them.  A round of reading content
either finds a fault in it or takes a piece off it.  And the whole reading, given more rounds
than the document has bytes, comes to what the reader comes to: it ends with the same tree, or
at the same fault with as many elements open as the reader's counter says. -/
theorem reading_by_offsets :
    (∀ text name start, text.head? = some '<' → openingTagAt text = .ok (name, start) →
      closingTag name <:+ text →
        start + utf8Len (closingTag name) ≤ utf8Len text ∧
          ∃ body, text = openingTag name ++ body ++ closingTag name ∧
            slice? start (utf8Len text - utf8Len (closingTag name)) text = some body ∧
            rootAt text = .ok (name, body)) ∧
      (∀ content, content ≠ [] →
        (∃ cause, roundAt content = .error (.fault cause)) ∨
          ∃ round, roundAt content = .ok round ∧ round.Advances content) ∧
      ∀ limits rounds depth document, (∀ text ∈ document, text.utf8ByteSize < rounds) →
        readDocumentAt limits rounds depth document =
            (readDocument limits depth document).mapError .fault ∧
          ((∃ tree, readDocumentAt limits rounds depth document = .ok tree ∧
              Reader.read ⟨document, limits, depth⟩ = (.ok tree, ⟨document, limits, depth⟩)) ∨
            ∃ halt, readDocumentAt limits rounds depth document = .error (.fault halt) ∧
              Reader.read ⟨document, limits, depth⟩ =
                (.error halt.cause, ⟨document, limits, halt.depth⟩)) := by
  refine ⟨fun text name start hh ho hs => ?_, fun content hc => ?_,
    fun limits rounds depth document hr => ?_⟩
  · obtain ⟨hn, rfl, after, rfl⟩ := openingTag_of_openingTagAt hh ho
    obtain ⟨body, rfl⟩ := exists_body_of_suffix hn hs
    have hstop : utf8Len (openingTag name ++ (body ++ closingTag name)) -
        utf8Len (closingTag name) = utf8Len body + utf8Len (openingTag name) := by
      simp only [String.utf8Len_append]
      omega
    have hbody := slice?_body name body []
    rw [List.append_nil, List.append_assoc] at hbody
    refine ⟨?_, body, (List.append_assoc _ _ _).symm, hstop ▸ hbody, ?_⟩
    · simp only [String.utf8Len_append]
      omega
    · rw [← List.append_assoc]
      exact rootAt_of_tags hn body
  · rw [roundAt_eq, takeRound]
    cases hp : takePiece content with
    | error cause => exact .inl ⟨cause, rfl⟩
    | ok parts => exact .inr ⟨_, rfl, advances_of_takePiece hc hp⟩
  · have hread := @readDocumentAt_eq limits rounds depth document hr
    refine ⟨hread, ?_⟩
    rw [hread, Reader.read_eq]
    cases readDocument limits depth document with
    | ok tree => exact .inl ⟨tree, rfl, rfl⟩
    | error halt => exact .inr ⟨halt, rfl, rfl⟩

/-- The name and the text take up two bytes for each character. -/
theorem reading_by_offsets_two_bytes :
    (∃ body, "<é>ü</é>".toList = openingTag ['é'] ++ body ++ closingTag ['é'] ∧
        slice? 4 6 "<é>ü</é>".toList = some body) ∧
      (∃ round, roundAt "ü<b></b>".toList = .ok round ∧ round.Advances "ü<b></b>".toList) ∧
      readDocumentAt {} 12 0 (some "<é>ü</é>") = .ok (.element "é" [.text "ü"]) := by
  obtain ⟨hroot, hround, hread⟩ := reading_by_offsets
  refine ⟨?_, ?_, ?_⟩
  · obtain ⟨-, body, he, hb, -⟩ :=
      hroot "<é>ü</é>".toList ['é'] 4 (by decide) (by cbv) (by decide)
    exact ⟨body, he, hb⟩
  · refine (hround "ü<b></b>".toList (by decide)).resolve_left ?_
    rintro ⟨cause, h⟩
    have hok : roundAt "ü<b></b>".toList = .ok ⟨.text ['ü'], 2⟩ := by cbv
    rw [hok] at h
    cases h
  · rw [(hread {} 12 0 (some "<é>ü</é>") (by decide)).1]
    cbv

end TagPath
