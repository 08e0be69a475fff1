import TagPath.Proofs.Spelling

/-! # What the limit of nesting changes

A reading goes through a document from left to right, and its counter of open elements
goes up and down on the way.  How far it rises and what the reading comes to, if nothing
stops it, are fixed by the document: this is its course (`Course`).  A limit that the
counter does not go beyond changes nothing.  Any other limit is reached at the first
element that is one too many, before whatever else may be wrong further on
(`Course.under`).

The course of an element rises one level higher than that of its body, and the course of
several nodes as high as the highest of them, up to the first that is at fault
(`Course.element`, `Course.cons`).  Siblings do not add up.  So every document has a course
(`exists_course_readContent`, `exists_course_readWhole`), and if it has a tree, the course
rises by the tree's nesting.  **There is one threshold for each document: all limits from
there on give the same result, and all limits below it are exceeded**
(`Node.exists_threshold`).
-/
namespace TagPath
open Text

/-! ## Courses -/

/-- The same halt, seen from `depth` elements further out. -/
def Halt.above (depth : Nat) (halt : Halt) : Halt := ⟨halt.cause, depth + halt.depth⟩

/-- How a reading goes if no limit of nesting stops it. -/
structure Course (α : Type) where
  /-- How far the counter rises above where it starts. -/
  rise : Nat
  /-- The result.  A halt's counter is counted from where the reading starts. -/
  outcome : Except Halt α

namespace Course
variable {α : Type}

/-- What the reading comes to while `depth` elements are open, if `maxDepth` may be: the
element that is one too many stops it. -/
def under (course : Course α) (maxDepth depth : Nat) : Except Halt α :=
  if depth + course.rise ≤ max depth maxDepth then course.outcome.mapError (Halt.above depth)
  else .error ⟨.maxDepthExceeded maxDepth, max depth maxDepth + 1⟩

/-- Nothing is entered, and there is a result. -/
def done (result : α) : Course α := ⟨0, .ok result⟩

/-- Nothing is entered before a fault. -/
def fault (cause : DocumentError) : Course α := ⟨0, .error ⟨cause, 0⟩⟩

/-- An element is entered for its body, and left. -/
def element (name : String) (body : Course (List Node)) : Course Node :=
  ⟨body.rise + 1, (body.outcome.mapError (Halt.above 1)).map (Node.element name)⟩

/-- A node is read, and if there is no fault, the nodes behind it. -/
def cons (first : Course Node) (rest : Course (List Node)) : Course (List Node) :=
  match first.outcome with
  | .error halt => ⟨first.rise, .error halt⟩
  | .ok node => ⟨max first.rise rest.rise, rest.outcome.map (node :: ·)⟩

section Element
variable {name : String} {body : Course (List Node)}

theorem outcome_element_eq_ok_iff {node : Node} :
    (body.element name).outcome = .ok node ↔
      ∃ children, body.outcome = .ok children ∧ node = .element name children := by
  cases ho : body.outcome with
  | error halt => simp [element, ho, Except.mapError, Except.map]
  | ok children => simp [element, ho, Except.mapError, Except.map, eq_comm]

/-- A halt inside an element leaves one element more open. -/
theorem outcome_element_eq_error_iff {halt : Halt} :
    (body.element name).outcome = .error halt ↔
      ∃ inner, body.outcome = .error inner ∧ halt = inner.above 1 := by
  cases ho : body.outcome with
  | error inner => simp [element, ho, Except.mapError, Except.map, eq_comm]
  | ok children => simp [element, ho, Except.mapError, Except.map]

end Element

/-! ## Courses under a limit -/

section Under
variable {limits : Limits} {maxDepth depth : Nat} {course : Course α}

theorem under_of_le (h : depth + course.rise ≤ maxDepth) :
    course.under maxDepth depth = course.outcome.mapError (Halt.above depth) := by
  have hle : depth + course.rise ≤ max depth maxDepth := by omega
  rw [under, if_pos hle]

theorem under_of_lt (hrise : 0 < course.rise) (h : maxDepth < depth + course.rise) :
    course.under maxDepth depth =
      .error ⟨.maxDepthExceeded maxDepth, max depth maxDepth + 1⟩ := by
  have hlt : ¬ depth + course.rise ≤ max depth maxDepth := by omega
  rw [under, if_neg hlt]

@[simp] theorem under_done (result : α) : (done result).under maxDepth depth = .ok result := by
  simp [under, done, Except.mapError]

@[simp] theorem under_fault (cause : DocumentError) :
    (fault cause : Course α).under maxDepth depth = .error ⟨cause, depth⟩ := by
  simp [under, fault, Except.mapError, Halt.above]

/-- **An element is entered first**, and its body is read one level deeper. -/
theorem under_element (name : String) (body : Course (List Node)) :
    (body.element name).under limits.maxDepth depth =
      match limits.enter depth with
      | .error halt => .error halt
      | .ok inner => (body.under limits.maxDepth inner).map (Node.element name) := by
  unfold Limits.enter
  by_cases hd : limits.maxDepth < depth + 1
  · have hmax : max depth limits.maxDepth = depth := by omega
    have hbeyond : ¬ depth + (body.rise + 1) ≤ depth := by omega
    simp only [under, element, if_pos hd, hmax, if_neg hbeyond]
  · have hmax : max depth limits.maxDepth = limits.maxDepth := by omega
    have hmax' : max (depth + 1) limits.maxDepth = limits.maxDepth := by omega
    simp only [under, element, if_neg hd, hmax, hmax']
    by_cases hb : depth + 1 + body.rise ≤ limits.maxDepth
    · rw [if_pos (by omega), if_pos hb]
      cases body.outcome with
      | error halt => simp [Except.mapError, Except.map, Halt.above, Nat.add_assoc]
      | ok children => rfl
    · rw [if_neg (by omega), if_neg hb]
      rfl

/-- **What stands behind a node is read at the node's own level**, whatever was open
inside it. -/
theorem under_cons (first : Course Node) (rest : Course (List Node)) :
    (first.cons rest).under maxDepth depth =
      match first.under maxDepth depth with
      | .error halt => .error halt
      | .ok node => (rest.under maxDepth depth).map (node :: ·) := by
  unfold cons
  by_cases hf : depth + first.rise ≤ max depth maxDepth
  · cases ho : first.outcome with
    | error halt => simp only [under, ho, if_pos hf, Except.mapError]
    | ok node =>
      simp only [under, ho, if_pos hf, Except.mapError]
      by_cases hr : depth + rest.rise ≤ max depth maxDepth
      · rw [if_pos (by omega), if_pos hr]
        cases rest.outcome <;> rfl
      · rw [if_neg (by omega), if_neg hr]
        rfl
  · cases ho : first.outcome with
    | error halt => simp only [under, if_neg hf]
    | ok node =>
      have hmax : ¬ depth + max first.rise rest.rise ≤ max depth maxDepth := by omega
      simp only [under, if_neg hf, if_neg hmax]

end Under

/-! ## Sound courses -/

/-- A course that rises as high as its result is nested, and that no limit of nesting
stops. -/
structure Sound (nesting : α → Nat) (course : Course α) : Prop where
  rise_eq : ∀ result, course.outcome = .ok result → course.rise = nesting result
  cause_ne : ∀ halt, course.outcome = .error halt →
    ∀ limit, halt.cause ≠ .maxDepthExceeded limit

section Sound
variable {nesting : α → Nat}

theorem sound_done {result : α} (h : nesting result = 0) : (done result).Sound nesting where
  rise_eq := by
    intro result' he
    obtain rfl : result = result' := Except.ok.inj he
    exact h.symm
  cause_ne := nofun

theorem sound_fault {cause : DocumentError} (h : ∀ limit, cause ≠ .maxDepthExceeded limit) :
    (fault cause : Course α).Sound nesting where
  rise_eq := nofun
  cause_ne := by
    intro halt he
    obtain rfl := Except.error.inj he
    exact h

theorem Sound.element {name : String} {body : Course (List Node)}
    (h : body.Sound Node.nestingAll) : (body.element name).Sound Node.nesting where
  rise_eq := by
    intro node he
    obtain ⟨children, ho, rfl⟩ := outcome_element_eq_ok_iff.mp he
    rw [Node.nesting_element, ← h.rise_eq children ho]
    rfl
  cause_ne := by
    intro halt he
    obtain ⟨inner, ho, rfl⟩ := outcome_element_eq_error_iff.mp he
    exact h.cause_ne inner ho

theorem Sound.cons {first : Course Node} {rest : Course (List Node)}
    (hf : first.Sound Node.nesting) (hr : rest.Sound Node.nestingAll) :
    (first.cons rest).Sound Node.nestingAll := by
  cases ho : first.outcome with
  | error halt =>
    have he : first.cons rest = ⟨first.rise, .error halt⟩ := by simp only [Course.cons, ho]
    rw [he]
    refine ⟨nofun, fun halt' hh => ?_⟩
    obtain rfl := Except.error.inj hh
    exact hf.cause_ne halt ho
  | ok node =>
    have he : first.cons rest =
        ⟨max first.rise rest.rise, rest.outcome.map (node :: ·)⟩ := by
      simp only [Course.cons, ho]
    rw [he, hf.rise_eq node ho]
    cases hro : rest.outcome with
    | error halt =>
      refine ⟨nofun, fun halt' hh => ?_⟩
      obtain rfl : halt = halt' := by simpa [Except.map] using hh
      exact hr.cause_ne halt hro
    | ok nodes =>
      refine ⟨fun result hh => ?_, nofun⟩
      obtain rfl : node :: nodes = result := by simpa [Except.map] using hh
      rw [Node.nestingAll_cons, hr.rise_eq nodes hro]

end Sound
end Course

/-! ## The course of content -/

theorem takePiece_ne_maxDepthExceeded {content : List Char} {cause : DocumentError}
    (h : takePiece content = .error cause) (limit : Nat) : cause ≠ .maxDepthExceeded limit := by
  rintro rfl
  unfold takePiece at h
  split at h
  · split at h
    · cases h
    · split at h <;> cases h
  · cases h

/-- An element whose body has a course has one. -/
theorem readElement_eq_under {body : List Char} {course : Course (List Node)}
    (h : ∀ limits depth, readContent limits depth (trim body) =
      course.under limits.maxDepth depth) (name : List Char) (limits : Limits) (depth : Nat) :
    readElement limits depth name body =
      (course.element (String.ofList name)).under limits.maxDepth depth := by
  rw [Course.under_element, readElement]
  cases limits.enter depth with
  | error halt => rfl
  | ok inner =>
    simp only [h]
    cases course.under limits.maxDepth inner <;> rfl

/-- **All content has a course.** -/
theorem exists_course_readContent (content : List Char) :
    ∃ course : Course (List Node), course.Sound Node.nestingAll ∧
      ∀ limits depth, readContent limits depth content = course.under limits.maxDepth depth := by
  induction content using contentInduction with
  | nil => exact ⟨.done [], Course.sound_done rfl, fun limits depth => by simp⟩
  | fault content cause hc h =>
    refine ⟨.fault cause, Course.sound_fault (takePiece_ne_maxDepthExceeded h), ?_⟩
    intro limits depth
    rw [readContent_of_error hc h, Course.under_fault]
  | text content run behind hc h ih =>
    obtain ⟨rest, hs, hrest⟩ := ih
    have hfirst : (Course.done (.text (String.ofList run))).Sound Node.nesting :=
      Course.sound_done (Node.nesting_text _)
    refine ⟨.cons (.done (.text (String.ofList run))) rest, hfirst.cons hs, ?_⟩
    intro limits depth
    rw [readContent_of_text hc h, Course.under_cons, Course.under_done, hrest]
    cases rest.under limits.maxDepth depth <;> rfl
  | element content name body behind hc h ihb ihr =>
    obtain ⟨inner, hsi, hinner⟩ := ihb
    obtain ⟨rest, hs, hrest⟩ := ihr
    refine ⟨.cons (inner.element (String.ofList name)) rest, hsi.element.cons hs, ?_⟩
    intro limits depth
    rw [readContent_of_element hc h, Course.under_cons, readElement_eq_under hinner, hrest]
    cases (inner.element (String.ofList name)).under limits.maxDepth depth with
    | error halt => rfl
    | ok node => cases rest.under limits.maxDepth depth <;> rfl

/-! ## The course of a document -/

/-- What may be wrong with the tags of the root: the first has no `>`, or the document does
not end with the closing tag for it. -/
inductive RootFault : List Char → DocumentError → Prop
  | bracket {rest : List Char} : '>' ∉ rest → RootFault ('<' :: rest) .unclosedBracket
  | closing {name after : List Char} : '>' ∉ name →
      ¬ closingTag name <:+ openingTag name ++ after →
      RootFault (openingTag name ++ after) (.missingClosingTag (String.ofList name))

/-- A trimmed document is a text, or its root's tags are at fault, or it stands between
them. -/
theorem text_or_rootFault_or_tags (text : List Char) :
    text.head? ≠ some '<' ∨ (∃ cause, RootFault text cause) ∨
      ∃ name body, '>' ∉ name ∧ text = openingTag name ++ body ++ closingTag name := by
  by_cases hh : text.head? = some '<'
  · obtain ⟨rest, rfl⟩ := List.head?_eq_some_iff.mp hh
    refine .inr ?_
    cases hcut : cut? ['>'] rest with
    | none => exact .inl ⟨_, .bracket (cut?_singleton_eq_none_iff.mp hcut)⟩
    | some parts =>
      obtain ⟨name, after⟩ := parts
      have hsuffix := closingTag_suffix_iff hcut
      obtain ⟨rfl, hn⟩ := cut?_singleton_eq_some_iff.mp hcut
      have he : '<' :: (name ++ '>' :: after) = openingTag name ++ after := by simp [openingTag]
      rw [he] at hsuffix ⊢
      by_cases hc : closingTag name <:+ after
      · obtain ⟨body, rfl⟩ := hc
        exact .inr ⟨name, body, hn, (List.append_assoc _ _ _).symm⟩
      · exact .inl ⟨_, .closing hn (mt hsuffix.mp hc)⟩
  · exact .inl hh

/-- A fault in the root's tags is found before anything is entered. -/
theorem readWhole_of_rootFault {limits : Limits} {depth : Nat} {text : List Char}
    {cause : DocumentError} (h : RootFault text cause) :
    readWhole limits depth text = .error ⟨cause, depth⟩ := by
  cases h with
  | bracket hn =>
    rw [readWhole, cut?_singleton_eq_none_iff.mpr hn]
  | @closing name after hn hc =>
    have he : openingTag name ++ after = '<' :: (name ++ '>' :: after) := by simp [openingTag]
    have hafter : ¬ closingTag name <:+ after :=
      fun hs => hc (hs.trans (List.suffix_append _ _))
    rw [he, readWhole, cut?_singleton_append hn after]
    simp only [dropEnding?_eq_none_iff.mpr hafter]

theorem RootFault.cause_ne {text : List Char} {cause : DocumentError} (h : RootFault text cause)
    (limit : Nat) : cause ≠ .maxDepthExceeded limit := by
  cases h <;> simp

/-- **Every document has a course.**  A fault on it is one in the root's tags, or is found
inside the root. -/
theorem exists_course_readWhole (text : List Char) :
    ∃ course : Course Node, course.Sound Node.nesting ∧
      (∀ halt, course.outcome = .error halt →
        RootFault text halt.cause ∨ 0 < course.rise ∧ 0 < halt.depth) ∧
      ∀ limits depth, readWhole limits depth text = course.under limits.maxDepth depth := by
  rcases text_or_rootFault_or_tags text with hh | ⟨cause, hf⟩ | ⟨name, body, hn, rfl⟩
  · refine ⟨.done (.text (String.ofList text)), Course.sound_done (Node.nesting_text _),
      nofun, ?_⟩
    intro limits depth
    rw [readWhole_of_text hh, Course.under_done]
  · refine ⟨.fault cause, Course.sound_fault hf.cause_ne, fun halt ho => ?_, ?_⟩
    · obtain rfl := Except.error.inj ho
      exact .inl hf
    · intro limits depth
      rw [readWhole_of_rootFault hf, Course.under_fault]
  · obtain ⟨inner, hs, hinner⟩ := exists_course_readContent (trim body)
    refine ⟨inner.element (String.ofList name), hs.element, fun halt ho => ?_, ?_⟩
    · obtain ⟨halt, -, rfl⟩ := Course.outcome_element_eq_error_iff.mp ho
      have hdepth : 0 < 1 + halt.depth := by omega
      exact .inr ⟨Nat.succ_pos _, hdepth⟩
    · intro limits depth
      rw [readWhole_of_tags hn, readElement_eq_under hinner]

namespace Node

theorem read_of_size_lt {limits : Limits} {document : String}
    (h : limits.maxSize < document.utf8ByteSize) :
    Node.read limits (some document) = .error (.maxSizeExceeded limits.maxSize) := by
  simp only [Node.read_eq, readDocument, Limits.admitSize, if_pos h]
  rfl

/-- **The limits are exact, and change nothing else.**  A document has a threshold and a
result, which is no excess of nesting.  If the document is too long, this is all there is
to say about it; otherwise a limit of nesting below the threshold is exceeded, and any
other limit gives the result.  The threshold for a tree is its nesting. -/
theorem exists_threshold (document : String) :
    ∃ (threshold : Nat) (result : Except DocumentError Node),
      (∀ limit, result ≠ .error (.maxDepthExceeded limit)) ∧
      (∀ tree, result = .ok tree → threshold = tree.nesting) ∧
      ∀ limits : Limits, Node.read limits (some document) =
        if limits.maxSize < document.utf8ByteSize then .error (.maxSizeExceeded limits.maxSize)
        else if limits.maxDepth < threshold then .error (.maxDepthExceeded limits.maxDepth)
        else result := by
  obtain ⟨course, hs, -, hcourse⟩ := exists_course_readWhole (trim document.toList)
  refine ⟨course.rise, course.outcome.mapError Halt.cause, fun limit he => ?_,
    fun tree he => ?_, fun limits => ?_⟩
  · cases ho : course.outcome with
    | error halt => exact hs.cause_ne halt ho limit (by simpa [ho, Except.mapError] using he)
    | ok node => simp [ho, Except.mapError] at he
  · cases ho : course.outcome with
    | error halt => simp [ho, Except.mapError] at he
    | ok node =>
      obtain rfl : node = tree := by simpa [ho, Except.mapError] using he
      exact hs.rise_eq node ho
  · by_cases hsize : limits.maxSize < document.utf8ByteSize
    · rw [if_pos hsize, read_of_size_lt hsize]
    · rw [if_neg hsize, read_of_size_le (Nat.le_of_not_lt hsize), hcourse]
      by_cases hd : limits.maxDepth < course.rise
      · rw [if_pos hd, Course.under_of_lt (by omega) (by omega)]
        rfl
      · rw [if_neg hd, Course.under_of_le (by omega)]
        cases course.outcome <;> rfl

/-- The unclosed bracket in the second sibling is seen only by limits that admit the
first. -/
example :
    let document := some "<a><b><c></c></b><d</a>"
    Node.read ⟨2, 30⟩ document = .error (.maxDepthExceeded 2) ∧
      Node.read ⟨3, 30⟩ document = .error .unclosedBracket := by
  cbv

end Node
end TagPath
