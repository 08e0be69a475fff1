import TagPath.Text.Cut
import TagPath.Text.Trim
import TagPath.Document.Limits
import TagPath.Document.Printer

/-! # Reading a document

A document is either one element from end to end, blanks around it apart, or a
single text.  Element content is read off from the left, piece by piece: a text runs
up to the next `<`, an element from its opening tag to the first place where its
closing tag stands.  Blanks before a piece and at the end of the content are passed
over.  As an element ends at the first closing tag of its name, it cannot hold
another element of that name; only the outermost element can, since it ends where
the document ends.

Main statements: taking a piece loses nothing (`eq_of_takePiece`), and what has to
be read after it is shorter, inside it and behind it (`length_rest_lt`,
`length_body_lt`), so reading ends.
-/
namespace TagPath
open Text

/-- What stands first in element content. -/
inductive Piece where
  /-- A run of characters without `<`. -/
  | text (run : List Char)
  /-- An element whose content is still to be read. -/
  | element (name body : List Char)
deriving Repr, DecidableEq

/-- The characters that a piece takes up. -/
def Piece.written : Piece → List Char
  | text run => run
  | element name body => openingTag name ++ body ++ closingTag name

/-- Takes the first piece off the content, which is not empty; gives it and what
stands behind it. -/
def takePiece : List Char → Except DocumentError (Piece × List Char)
  | '<' :: rest => match cut? ['>'] rest with
    | none => .error .unclosedBracket
    | some (name, after) => match cut? (closingTag name) after with
      | none => .error (.missingClosingTag (String.ofList name))
      | some (body, behind) => .ok (.element name body, behind)
  | content => .ok (.text (content.takeWhile (· != '<')), content.dropWhile (· != '<'))

/-! ## A piece is a part of the content -/

/-- The content is the piece and what stands behind it. -/
theorem eq_of_takePiece {content behind : List Char} {piece : Piece}
    (h : takePiece content = .ok (piece, behind)) : content = piece.written ++ behind := by
  unfold takePiece at h
  split at h
  · split at h
    · simp at h
    · rename_i rest name after hn
      split at h
      · simp at h
      · rename_i body behind' hb
        simp only [Except.ok.injEq, Prod.mk.injEq] at h
        obtain ⟨rfl, rfl⟩ := h
        rw [eq_of_cut? hn, eq_of_cut? hb]
        simp [Piece.written, openingTag]
  · simp only [Except.ok.injEq, Prod.mk.injEq] at h
    obtain ⟨rfl, rfl⟩ := h
    simp [Piece.written]

/-- A piece takes up at least one character of content that is not empty. -/
theorem written_ne_nil_of_takePiece {content behind : List Char} {piece : Piece}
    (hc : content ≠ []) (h : takePiece content = .ok (piece, behind)) :
    piece.written ≠ [] := by
  unfold takePiece at h
  split at h
  · split at h
    · simp at h
    · split at h
      · simp at h
      · simp only [Except.ok.injEq, Prod.mk.injEq] at h
        obtain ⟨rfl, rfl⟩ := h
        simp [Piece.written, openingTag]
  · rename_i hne
    simp only [Except.ok.injEq, Prod.mk.injEq] at h
    obtain ⟨rfl, rfl⟩ := h
    obtain ⟨c, rest, rfl⟩ := List.exists_cons_of_ne_nil hc
    have hlt : c ≠ '<' := fun he => hne rest (by rw [he])
    simp [Piece.written, hlt]

/-- What stands behind a piece is shorter than the content. -/
theorem length_rest_lt {content behind : List Char} {piece : Piece}
    (hc : content ≠ []) (h : takePiece content = .ok (piece, behind)) :
    (trimStart behind).length < content.length := by
  have hp := List.length_pos_iff.2 (written_ne_nil_of_takePiece hc h)
  have ht := length_trimStart_le behind
  rw [eq_of_takePiece h, List.length_append]
  omega

/-- What stands inside an element is shorter than the content. -/
theorem length_body_lt {content behind name body : List Char}
    (h : takePiece content = .ok (.element name body, behind)) :
    (trim body).length < content.length := by
  have ht := length_trim_le body
  rw [eq_of_takePiece h]
  simp only [Piece.written, List.length_append, length_openingTag, length_closingTag]
  omega

/-! ## Reading -/

/-- Reads what is inside an element.  The counter is raised before it is checked, and
lowered only behind a body that could be read. -/
def Limits.inside {α : Type} (limits : Limits) (body : EStateM DocumentError Nat α) :
    EStateM DocumentError Nat α := do
  modify (· + 1)
  if limits.maxDepth < (← get) then throw (.maxDepthExceeded limits.maxDepth)
  let result ← body
  modify leave
  return result

/-- Reads element content on a single counter. -/
def readContentKept (limits : Limits) (content : List Char) :
    EStateM DocumentError Nat (List Node) :=
  if _hc : content = [] then pure []
  else match _h : takePiece content with
    | .error cause => throw cause
    | .ok (.text run, behind) => do
      let nodes ← readContentKept limits (trimStart behind)
      return .text (String.ofList run) :: nodes
    | .ok (.element name body, behind) => do
      let children ← limits.inside (readContentKept limits (trim body))
      let nodes ← readContentKept limits (trimStart behind)
      return .element (String.ofList name) children :: nodes
termination_by content.length
decreasing_by
  · exact length_rest_lt ‹_› ‹_›
  · exact length_body_lt ‹_›
  · exact length_rest_lt ‹_› ‹_›

/-- Reads a whole document without blanks at its ends on a single counter. -/
def readWholeKept (limits : Limits) : List Char → EStateM DocumentError Nat Node
  | '<' :: rest => match cut? ['>'] rest with
    | none => throw .unclosedBracket
    | some (name, after) => match dropEnding? (closingTag name) after with
      | none => throw (.missingClosingTag (String.ofList name))
      | some body => do
        let children ← limits.inside (readContentKept limits (trim body))
        return .element (String.ofList name) children
  | text => return .text (String.ofList text)

/-- Reads a document, which may be missing, on a single counter. -/
def readDocumentKept (limits : Limits) : Option String → EStateM DocumentError Nat Node
  | none => throw .missingInput
  | some document => match limits.admitSize document.utf8ByteSize with
    | .error cause => throw cause
    | .ok () => readWholeKept limits (trim document.toList)

/-! ## The tags of the root -/

/-- The root's two tags never overlap: if the document ends with the closing tag of
its first tag, so does what stands behind that tag. -/
theorem closingTag_suffix_iff {rest name after : List Char}
    (h : cut? ['>'] rest = some (name, after)) :
    closingTag name <:+ '<' :: rest ↔ closingTag name <:+ after := by
  obtain ⟨rfl, hn⟩ := cut?_singleton_eq_some_iff.1 h
  have hw : '<' :: (name ++ '>' :: after) = openingTag name ++ after := by simp [openingTag]
  rw [hw]
  refine ⟨fun hs => ?_, fun hs => hs.trans (List.suffix_append _ _)⟩
  rcases Nat.le_total (closingTag name).length after.length with hl | hl
  · exact List.suffix_of_suffix_length_le hs (List.suffix_append _ _) hl
  · obtain ⟨shared, hx⟩ :=
      List.suffix_of_suffix_length_le (List.suffix_append (openingTag name) after) hs hl
    obtain ⟨start, hs⟩ := hs
    rw [← hx, ← List.append_assoc, List.append_cancel_right_eq] at hs
    rcases List.eq_nil_or_concat shared with rfl | ⟨front, c, rfl⟩
    · exact hx ▸ List.suffix_refl _
    · have he : (start ++ front) ++ [c] = ('<' :: name) ++ ['>'] := by
        simpa [openingTag] using hs
      obtain ⟨hf, hc⟩ := List.append_inj' he rfl
      obtain rfl : c = '>' := by simpa using hc
      have hfront : '>' ∉ front := by
        intro hm
        have : '>' ∈ '<' :: name := hf ▸ List.mem_append_right start hm
        simp [hn] at this
      have h1 : cut? ['>'] (closingTag name) = some (front, after) := by
        rw [← hx]
        simpa using cut?_singleton_append hfront after
      have h2 : cut? ['>'] (closingTag name) = some ('<' :: '/' :: name, []) :=
        @cut?_singleton_append '>' ('<' :: '/' :: name) (by simp [hn]) []
      have h3 : front = '<' :: '/' :: name := by
        have := h1.symm.trans h2
        simp only [Option.some.injEq, Prod.mk.injEq] at this
        exact this.1
      have := congrArg List.length hf
      simp [h3] at this
      omega

/-! ## Readers -/

/-- A document together with its limits and the counter of open elements.  A reader
may be asked again; what the counter was after the last reading still counts. -/
structure Reader where
  document : Option String
  limits : Limits := {}
  depth : Nat := 0
deriving Repr

/-- Reads the document: its tree or why there is none, and the reader afterwards. -/
def Reader.read (reader : Reader) : Except DocumentError Node × Reader :=
  match readDocumentKept reader.limits reader.document reader.depth with
  | .ok node depth => (.ok node, { reader with depth })
  | .error cause depth => (.error cause, { reader with depth })

/-- The tree of a document, which may be missing, read by a reader of its own. -/
def Node.read (limits : Limits) (document : Option String) : Except DocumentError Node :=
  (Reader.read ⟨document, limits, 0⟩).1

end TagPath
