import TagPath.Document.Reader

/-! # The elements that are open

A reader keeps one counter of the elements that are open.  The counter is raised before an
element's content is read and lowered behind it, so where it stands at a piece depends on
all that was read before.  `readContent` has no counter to keep: it passes the number of
open elements down to what it reads, and a reading that gives up tells the number with its
cause (`Halt`).  **Both come to the same** (`readContentKept_eq`, `Reader.read_eq`): a body
that was read to its end has lowered the counter to where it stood before.  So the counter
is looked at here only, and what else there is to say about reading is said of
`readContent`.
-/
namespace TagPath
open Text

/-! ## Induction over pieces -/

/-- Induction over the pieces of content, from the first one on: an element's body and
what stands behind a piece are content again. -/
theorem contentInduction {motive : List Char → Prop} (nil : motive [])
    (fault : ∀ content cause, content ≠ [] → takePiece content = .error cause → motive content)
    (text : ∀ content run behind, content ≠ [] →
      takePiece content = .ok (.text run, behind) → motive (trimStart behind) → motive content)
    (element : ∀ content name body behind, content ≠ [] →
      takePiece content = .ok (.element name body, behind) → motive (trim body) →
        motive (trimStart behind) → motive content)
    (content : List Char) : motive content :=
  if hc : content = [] then hc ▸ nil
  else match h : takePiece content with
    | .error cause => fault content cause hc h
    | .ok (.text run, behind) =>
        text content run behind hc h
          (contentInduction nil fault text element (trimStart behind))
    | .ok (.element name body, behind) =>
        element content name body behind hc h
          (contentInduction nil fault text element (trim body))
          (contentInduction nil fault text element (trimStart behind))
termination_by content.length
decreasing_by
  · exact length_rest_lt ‹_› ‹_›
  · exact length_body_lt ‹_›
  · exact length_rest_lt ‹_› ‹_›

/-! ## Passing the number down -/

/-- Reads element content, blanks at its ends taken off, while `depth` elements are
open. -/
def readContent (limits : Limits) (depth : Nat) (content : List Char) :
    Except Halt (List Node) :=
  if _hc : content = [] then .ok []
  else match _h : takePiece content with
    | .error cause => .error ⟨cause, depth⟩
    | .ok (.text run, behind) =>
      match readContent limits depth (trimStart behind) with
      | .error halt => .error halt
      | .ok nodes => .ok (.text (String.ofList run) :: nodes)
    | .ok (.element name body, behind) =>
      match limits.enter depth with
      | .error halt => .error halt
      | .ok inner => match readContent limits inner (trim body) with
        | .error halt => .error halt
        | .ok children => match readContent limits depth (trimStart behind) with
          | .error halt => .error halt
          | .ok nodes => .ok (.element (String.ofList name) children :: nodes)
termination_by content.length
decreasing_by
  · exact length_rest_lt ‹_› ‹_›
  · exact length_body_lt ‹_›
  · exact length_rest_lt ‹_› ‹_›

/-- Reads an element with this name and body, which is entered while `depth` elements
are open. -/
def readElement (limits : Limits) (depth : Nat) (name body : List Char) : Except Halt Node :=
  match limits.enter depth with
  | .error halt => .error halt
  | .ok inner => match readContent limits inner (trim body) with
    | .error halt => .error halt
    | .ok children => .ok (.element (String.ofList name) children)

/-- Reads a whole document without blanks at its ends: an element that ends where
the document ends, or else a text. -/
def readWhole (limits : Limits) (depth : Nat) : List Char → Except Halt Node
  | '<' :: rest => match cut? ['>'] rest with
    | none => .error ⟨.unclosedBracket, depth⟩
    | some (name, after) => match dropEnding? (closingTag name) after with
      | none => .error ⟨.missingClosingTag (String.ofList name), depth⟩
      | some body => readElement limits depth name body
  | text => .ok (.text (String.ofList text))

/-- Reads a document, which may be missing, with the counter of open elements at
`depth`. -/
def readDocument (limits : Limits) (depth : Nat) : Option String → Except Halt Node
  | none => .error ⟨.missingInput, depth⟩
  | some document => match limits.admitSize document.utf8ByteSize with
    | .error cause => .error ⟨cause, depth⟩
    | .ok () => readWhole limits depth (trim document.toList)

/-! ## Piece by piece -/

@[simp] theorem readContent_nil (limits : Limits) (depth : Nat) :
    readContent limits depth [] = .ok [] := by
  rw [readContent, dif_pos rfl]

/-- Content without a first piece is at fault with the elements open so far. -/
theorem readContent_of_error {limits : Limits} {depth : Nat} {content : List Char}
    {cause : DocumentError} (hc : content ≠ []) (h : takePiece content = .error cause) :
    readContent limits depth content = .error ⟨cause, depth⟩ := by
  rw [readContent, dif_neg hc]
  split <;> simp_all

/-- A text in front becomes the first node. -/
theorem readContent_of_text {limits : Limits} {depth : Nat} {content run behind : List Char}
    (hc : content ≠ []) (h : takePiece content = .ok (.text run, behind)) :
    readContent limits depth content =
      match readContent limits depth (trimStart behind) with
      | .error halt => .error halt
      | .ok nodes => .ok (.text (String.ofList run) :: nodes) := by
  rw [readContent, dif_neg hc]
  split <;> simp_all

/-- An element in front is read before what stands behind it. -/
theorem readContent_of_element {limits : Limits} {depth : Nat}
    {content name body behind : List Char} (hc : content ≠ [])
    (h : takePiece content = .ok (.element name body, behind)) :
    readContent limits depth content =
      match readElement limits depth name body with
      | .error halt => .error halt
      | .ok node => match readContent limits depth (trimStart behind) with
        | .error halt => .error halt
        | .ok nodes => .ok (node :: nodes) := by
  rw [readContent, dif_neg hc]
  split
  · simp_all
  · simp_all
  · rename_i he
    rw [h] at he
    simp only [Except.ok.injEq, Prod.mk.injEq, Piece.element.injEq] at he
    obtain ⟨⟨rfl, rfl⟩, rfl⟩ := he
    unfold readElement
    cases limits.enter depth with
    | error halt => rfl
    | ok inner =>
      dsimp only
      cases readContent limits inner (trim body) <;> rfl

/-! ## The counter -/

/-- Where the counter stands behind a reading that starts while `depth` elements are open:
where it stood before, or where the reading halts. -/
def kept {α : Type} (depth : Nat) : Except Halt α → EStateM.Result DocumentError Nat α
  | .ok result => .ok result depth
  | .error halt => .error halt.cause halt.depth

section Kept
variable {limits : Limits}

/-- A body that finds the counter raised by one element is read one level deeper. -/
theorem inside_eq {α : Type} {body : EStateM DocumentError Nat α}
    {outcome : Nat → Except Halt α} (h : ∀ depth, body depth = kept depth (outcome depth))
    (depth : Nat) :
    limits.inside body depth =
      kept depth (match limits.enter depth with
        | .error halt => .error halt
        | .ok inner => outcome inner) := by
  unfold Limits.enter
  by_cases hd : limits.maxDepth < depth + 1
  · rw [if_pos hd]
    show (if limits.maxDepth < depth + 1 then _ else _ : EStateM _ _ _) _ = _
    rw [if_pos hd]
    rfl
  · rw [if_neg hd]
    show (if limits.maxDepth < depth + 1 then _ else _ : EStateM _ _ _) _ = _
    rw [if_neg hd]
    show EStateM.bind body _ (depth + 1) = kept depth (outcome (depth + 1))
    rw [EStateM.bind, h]
    cases outcome (depth + 1) <;> rfl

theorem readContentKept_of_error {content : List Char} {cause : DocumentError}
    (hc : content ≠ []) (h : takePiece content = .error cause) :
    readContentKept limits content = throw cause := by
  rw [readContentKept, dif_neg hc]
  split <;> simp_all

theorem readContentKept_of_text {content run behind : List Char} (hc : content ≠ [])
    (h : takePiece content = .ok (.text run, behind)) :
    readContentKept limits content = do
      let nodes ← readContentKept limits (trimStart behind)
      return .text (String.ofList run) :: nodes := by
  rw [readContentKept, dif_neg hc]
  split <;> simp_all

theorem readContentKept_of_element {content name body behind : List Char} (hc : content ≠ [])
    (h : takePiece content = .ok (.element name body, behind)) :
    readContentKept limits content = do
      let children ← limits.inside (readContentKept limits (trim body))
      let nodes ← readContentKept limits (trimStart behind)
      return .element (String.ofList name) children :: nodes := by
  rw [readContentKept, dif_neg hc]
  split <;> simp_all

/-- **Keeping one counter comes to the same as passing the number of open elements down.** -/
theorem readContentKept_eq (limits : Limits) (content : List Char) (depth : Nat) :
    readContentKept limits content depth = kept depth (readContent limits depth content) := by
  induction content using contentInduction generalizing depth with
  | nil =>
    rw [readContentKept, dif_pos rfl, readContent_nil]
    rfl
  | fault content cause hc h =>
    rw [readContent_of_error hc h, readContentKept_of_error hc h]
    rfl
  | text content run behind hc h ih =>
    rw [readContent_of_text hc h, readContentKept_of_text hc h]
    simp only [bind, EStateM.bind, ih]
    cases readContent limits depth (trimStart behind) <;> rfl
  | element content name body behind hc h ihb ihr =>
    rw [readContent_of_element hc h, readContentKept_of_element hc h, readElement]
    simp only [bind, EStateM.bind, inside_eq ihb]
    cases limits.enter depth with
    | error halt => rfl
    | ok inner =>
      dsimp only
      cases readContent limits inner (trim body) with
      | error halt => rfl
      | ok children =>
        simp only [kept, ihr]
        cases readContent limits depth (trimStart behind) <;> rfl

theorem readWholeKept_eq (limits : Limits) (text : List Char) (depth : Nat) :
    readWholeKept limits text depth = kept depth (readWhole limits depth text) := by
  unfold readWhole
  split
  · rename_i rest
    rw [readWholeKept]
    cases cut? ['>'] rest with
    | none => rfl
    | some parts =>
      obtain ⟨name, after⟩ := parts
      dsimp only
      cases dropEnding? (closingTag name) after with
      | none => rfl
      | some body =>
        simp only [bind, EStateM.bind, inside_eq (readContentKept_eq limits _), readElement]
        cases limits.enter depth with
        | error halt => rfl
        | ok inner =>
          dsimp only
          cases readContent limits inner (trim body) <;> rfl
  · rw [readWholeKept]
    · rfl
    · assumption

theorem readDocumentKept_eq (limits : Limits) (document : Option String) (depth : Nat) :
    readDocumentKept limits document depth =
      kept depth (readDocument limits depth document) := by
  cases document with
  | none => rfl
  | some document =>
    simp only [readDocumentKept, readDocument]
    cases limits.admitSize document.utf8ByteSize with
    | error cause => rfl
    | ok _ => exact readWholeKept_eq limits _ depth

end Kept

/-- A reader ends where it began if there is a tree, and else where the reading halts. -/
theorem Reader.read_eq (reader : Reader) :
    reader.read =
      match readDocument reader.limits reader.depth reader.document with
      | .ok node => (.ok node, reader)
      | .error halt => (.error halt.cause, { reader with depth := halt.depth }) := by
  rw [Reader.read, readDocumentKept_eq]
  cases readDocument reader.limits reader.depth reader.document <;> rfl

theorem Node.read_eq (limits : Limits) (document : Option String) :
    Node.read limits document = (readDocument limits 0 document).mapError Halt.cause := by
  rw [Node.read, Reader.read_eq]
  cases readDocument limits 0 document <;> rfl

end TagPath
