import TagPath.Proofs.DepthLimit

/-! # A reader that is asked again

A reader keeps its counter of open elements from one reading to the next.  A reading that
succeeds has left what it entered, so the next one starts where it did.  A reading that
gives up leaves the counter as it stands, raised by the elements that were open: the next
one starts from there, which is to read under a lower limit of nesting.

A fault that is found before the root is entered leaves nothing open, and is found again
each time.  Any other fault stands inside the root, so the counter climbs by the same
number of elements with each reading, until there is no room left for the document's
course.  From then on the limit is exceeded, and since this leaves one element more open
than there may be, it stays so (`Reader.Follows.answer_of_fault`).  **A reader's answers are
one tree for ever, or one fault for ever, or one fault some times, at most as often as
elements may be open, and an exceeded limit from then on** (`Reader.answers_exact`).
-/
namespace TagPath
open Text

/-! ## Faults outside the root -/

/-- What may be wrong with a document before anything in it is entered: it is missing or
too long, or its root's tags are at fault. -/
inductive OutsideFault (limits : Limits) : Option String → DocumentError → Prop
  | missing : OutsideFault limits none .missingInput
  | size {document : String} : limits.maxSize < document.utf8ByteSize →
      OutsideFault limits (some document) (.maxSizeExceeded limits.maxSize)
  | root {document : String} {cause : DocumentError} :
      document.utf8ByteSize ≤ limits.maxSize → RootFault (trim document.toList) cause →
      OutsideFault limits (some document) cause

theorem readDocument_of_outsideFault {limits : Limits} {document : Option String}
    {cause : DocumentError} (h : OutsideFault limits document cause) (depth : Nat) :
    readDocument limits depth document = .error ⟨cause, depth⟩ := by
  cases h with
  | missing => rfl
  | size hsize => simp only [readDocument, Limits.admitSize, if_pos hsize]
  | root hsize hf =>
    simp only [readDocument, Limits.admitSize_eq_ok_iff.mpr hsize]
    exact readWhole_of_rootFault hf

/-- Any other document has a course, and a fault on it stands inside the root. -/
theorem exists_course_readDocument {limits : Limits} {document : Option String}
    (h : ∀ cause, ¬ OutsideFault limits document cause) :
    ∃ course : Course Node,
      (∀ halt, course.outcome = .error halt → 0 < course.rise ∧ 0 < halt.depth) ∧
      ∀ depth, readDocument limits depth document = course.under limits.maxDepth depth := by
  cases document with
  | none => exact absurd .missing (h _)
  | some document =>
    have hsize : document.utf8ByteSize ≤ limits.maxSize :=
      Nat.le_of_not_lt fun hlt => h _ (.size hlt)
    simp only [readDocument, Limits.admitSize_eq_ok_iff.mpr hsize]
    obtain ⟨course, -, hfault, hcourse⟩ := exists_course_readWhole (trim document.toList)
    refine ⟨course, fun halt ho => ?_, hcourse limits⟩
    rcases hfault halt ho with hf | hinside
    · exact absurd (.root hsize hf) (h halt.cause)
    · exact hinside

namespace Reader

/-! ## One reading -/

section Read
variable {reader : Reader}

theorem read_of_ok {node : Node}
    (h : readDocument reader.limits reader.depth reader.document = .ok node) :
    reader.read = (.ok node, reader) := by
  simp only [read_eq, h]

theorem read_of_error {halt : Halt}
    (h : readDocument reader.limits reader.depth reader.document = .error halt) :
    reader.read = (.error halt.cause, { reader with depth := halt.depth }) := by
  simp only [read_eq, h]

@[simp] theorem document_read (reader : Reader) :
    reader.read.2.document = reader.document := by
  unfold read
  split <;> rfl

@[simp] theorem limits_read (reader : Reader) : reader.read.2.limits = reader.limits := by
  unfold read
  split <;> rfl

/-- The reader's document has this course. -/
def Follows (reader : Reader) (course : Course Node) : Prop :=
  ∀ depth, readDocument reader.limits depth reader.document =
    course.under reader.limits.maxDepth depth

variable {course : Course Node}

/-- With room enough for the course, a fault on it is found. -/
theorem Follows.read_of_le (h : reader.Follows course) {halt : Halt}
    (ho : course.outcome = .error halt)
    (hd : reader.depth + course.rise ≤ reader.limits.maxDepth) :
    reader.read = (.error halt.cause, { reader with depth := reader.depth + halt.depth }) := by
  have hread : readDocument reader.limits reader.depth reader.document =
      .error (halt.above reader.depth) := by
    rw [h, Course.under_of_le hd, ho]
    rfl
  exact read_of_error hread

/-- Without, the counter ends above the limit. -/
theorem Follows.read_of_lt (h : reader.Follows course) (hrise : 0 < course.rise)
    (hd : reader.limits.maxDepth < reader.depth + course.rise) :
    ∃ depth, reader.limits.maxDepth < depth ∧
      reader.read =
        (.error (.maxDepthExceeded reader.limits.maxDepth), { reader with depth }) := by
  have hread := (h reader.depth).trans (Course.under_of_lt hrise hd)
  exact ⟨max reader.depth reader.limits.maxDepth + 1, by omega, read_of_error hread⟩

end Read

/-! ## Reading again and again -/

/-- A reader that has not read yet. -/
def fresh (limits : Limits) (document : Option String) : Reader := ⟨document, limits, 0⟩

/-- The reader after so many readings. -/
def after (reader : Reader) : Nat → Reader
  | 0 => reader
  | n + 1 => (reader.after n).read.2

/-- What the next reading gives after so many of them. -/
def answer (reader : Reader) (n : Nat) : Except DocumentError Node := (reader.after n).read.1

section Runs
variable {reader : Reader} {course : Course Node}

theorem after_zero (reader : Reader) : reader.after 0 = reader := rfl

theorem after_succ (reader : Reader) (n : Nat) :
    reader.after (n + 1) = (reader.after n).read.2 := rfl

@[simp] theorem document_after (reader : Reader) (n : Nat) :
    (reader.after n).document = reader.document := by
  induction n with
  | zero => rfl
  | succ n ih => rw [after_succ, document_read, ih]

@[simp] theorem limits_after (reader : Reader) (n : Nat) :
    (reader.after n).limits = reader.limits := by
  induction n with
  | zero => rfl
  | succ n ih => rw [after_succ, limits_read, ih]

theorem Follows.after (h : reader.Follows course) (n : Nat) :
    (reader.after n).Follows course := by
  unfold Follows
  rw [document_after, limits_after]
  exact h

/-- A reading that leaves the reader as it was is the same each time. -/
theorem after_of_read_eq {outcome : Except DocumentError Node}
    (h : reader.read = (outcome, reader)) (n : Nat) :
    reader.after n = reader ∧ reader.answer n = outcome := by
  have ha : reader.after n = reader := by
    induction n with
    | zero => rfl
    | succ n ih => rw [after_succ, ih, h]
  exact ⟨ha, by rw [answer, ha, h]⟩

section Course
variable (h : reader.Follows course) {halt : Halt} (ho : course.outcome = .error halt)
include h

/-- If the course never fits, the limit is exceeded each time. -/
theorem Follows.answer_of_lt (hd : reader.limits.maxDepth < course.rise) (n : Nat) :
    reader.answer n = .error (.maxDepthExceeded reader.limits.maxDepth) := by
  obtain ⟨depth, -, hread⟩ :=
    (h.after n).read_of_lt (by omega) (by rw [limits_after]; omega)
  rw [answer, hread, limits_after]

include ho

/-- The counter climbs by the same number of elements with each reading until the course
does not fit any more, and then stays above the limit. -/
theorem Follows.depth_after (hrise : 0 < course.rise) (h0 : reader.depth = 0) (n : Nat) :
    (reader.after n).depth = n * halt.depth ∨
      reader.limits.maxDepth < (reader.after n).depth ∧
        reader.limits.maxDepth < n * halt.depth + course.rise := by
  induction n with
  | zero => exact .inl (by rw [after_zero, h0, Nat.zero_mul])
  | succ n ih =>
    rw [after_succ, Nat.succ_mul]
    by_cases hd : (reader.after n).depth + course.rise ≤ reader.limits.maxDepth
    · rw [(h.after n).read_of_le ho (by rw [limits_after]; exact hd)]
      rcases ih with ih | ⟨hlt, -⟩
      · exact .inl (congrArg (· + halt.depth) ih)
      · omega
    · obtain ⟨depth, hdepth, hread⟩ :=
        (h.after n).read_of_lt hrise (by rw [limits_after]; omega)
      rw [limits_after] at hdepth
      rw [hread]
      refine .inr ⟨hdepth, ?_⟩
      rcases ih with ih | ⟨-, hlt⟩ <;> omega

/-- **A fault inside the root is answered while there is room for the course above what
the readings before have left open**, and an exceeded limit from then on. -/
theorem Follows.answer_of_fault (hrise : 0 < course.rise) (h0 : reader.depth = 0) (n : Nat) :
    reader.answer n =
      .error (if n * halt.depth + course.rise ≤ reader.limits.maxDepth then halt.cause
        else .maxDepthExceeded reader.limits.maxDepth) := by
  have hdepth := h.depth_after ho hrise h0 n
  by_cases hd : n * halt.depth + course.rise ≤ reader.limits.maxDepth
  · have hroom : (reader.after n).depth + course.rise ≤ (reader.after n).limits.maxDepth := by
      rw [limits_after]
      omega
    rw [if_pos hd, answer, (h.after n).read_of_le ho hroom]
  · have hfull : (reader.after n).limits.maxDepth < (reader.after n).depth + course.rise := by
      rw [limits_after]
      omega
    obtain ⟨depth, -, hread⟩ := (h.after n).read_of_lt hrise hfull
    rw [if_neg hd, answer, hread, limits_after]

end Course

/-- How often there is room for something, if each time takes away some of the room: at
most as often as there is any. -/
theorem exists_count {limit raised rise : Nat} (hraised : 0 < raised) (hrise : 0 < rise) :
    ∃ count ≤ limit, ∀ n, n * raised + rise ≤ limit ↔ n < count := by
  have hcount : ∀ n, n * raised + rise ≤ limit ↔ n < (limit + raised - rise) / raised := by
    intro n
    rw [← Nat.succ_le_iff, Nat.le_div_iff_mul_le hraised, Nat.succ_mul]
    omega
  have hle : limit ≤ limit * raised := Nat.le_mul_of_pos_right limit hraised
  refine ⟨_, Nat.le_of_not_lt fun hlt => ?_, hcount⟩
  have hroom := (hcount limit).mpr hlt
  omega

end Runs

section Answers
variable {limits : Limits} {document : Option String}

theorem answers_of_outsideFault {cause : DocumentError}
    (h : OutsideFault limits document cause) (n : Nat) :
    (fresh limits document).answer n = .error cause ∧
      ((fresh limits document).after n).depth = 0 := by
  have hread : (fresh limits document).read = (.error cause, fresh limits document) := by
    rw [read_eq, fresh, readDocument_of_outsideFault h]
  obtain ⟨ha, hanswer⟩ := after_of_read_eq hread n
  exact ⟨hanswer, congrArg Reader.depth ha⟩

/-- A document with no fault outside its root is read each time, or the same fault is
found a number of times, and the limit is exceeded from then on. -/
theorem answers_of_not_outsideFault
    (h : ∀ cause, ¬ OutsideFault limits document cause) :
    (∃ tree, ∀ n, (fresh limits document).answer n = .ok tree ∧
      ((fresh limits document).after n).depth = 0) ∨
    ∃ (cause : DocumentError) (count : Nat), count ≤ limits.maxDepth ∧
      ∀ n, (fresh limits document).answer n =
        .error (if n < count then cause else .maxDepthExceeded limits.maxDepth) := by
  obtain ⟨course, hpos, hcourse⟩ := exists_course_readDocument h
  have hf : (fresh limits document).Follows course := hcourse
  cases ho : course.outcome with
  | error halt =>
    obtain ⟨hrise, hraised⟩ := hpos halt ho
    obtain ⟨count, hle, hcount⟩ := exists_count hraised hrise
    refine .inr ⟨halt.cause, count, hle, fun n => ?_⟩
    simp only [← hcount]
    exact hf.answer_of_fault ho hrise rfl n
  | ok tree =>
    by_cases hd : limits.maxDepth < course.rise
    · -- nothing comes before the exceeded limit, so any fault will do
      refine .inr ⟨.missingInput, 0, Nat.zero_le _, fun n => ?_⟩
      rw [if_neg (Nat.not_lt_zero n)]
      exact hf.answer_of_lt hd n
    · have hread : (fresh limits document).read = (.ok tree, fresh limits document) := by
        apply read_of_ok
        show readDocument limits 0 document = _
        rw [hcourse, Course.under_of_le (by omega), ho]
        rfl
      refine .inl ⟨tree, fun n => ?_⟩
      obtain ⟨ha, hanswer⟩ := after_of_read_eq hread n
      exact ⟨hanswer, congrArg Reader.depth ha⟩

end Answers

/-- **What a reader answers when it is asked again and again.**  A fault outside the root is
answered each time, and leaves the counter at 0.  Otherwise either each answer is the same
tree and leaves the counter at 0, or all answers are faults: the same one a number of times,
at most as often as elements may be open, and an exceeded limit from then on.  After a
fault there is never a tree. -/
theorem answers_exact (limits : Limits) (document : Option String) :
    (∀ cause, OutsideFault limits document cause →
      ∀ n, (fresh limits document).answer n = .error cause ∧
        ((fresh limits document).after n).depth = 0) ∧
    ((∀ cause, ¬ OutsideFault limits document cause) →
      (∃ tree, ∀ n, (fresh limits document).answer n = .ok tree ∧
        ((fresh limits document).after n).depth = 0) ∨
      ∃ (cause : DocumentError) (count : Nat), count ≤ limits.maxDepth ∧
        ∀ n, (fresh limits document).answer n =
          .error (if n < count then cause else .maxDepthExceeded limits.maxDepth)) ∧
    ∀ m n cause tree, m < n → (fresh limits document).answer m = .error cause →
      (fresh limits document).answer n ≠ .ok tree := by
  refine ⟨fun cause hc => answers_of_outsideFault hc, answers_of_not_outsideFault, ?_⟩
  intro m n cause tree _ hm hn
  by_cases hout : ∃ cause, OutsideFault limits document cause
  · obtain ⟨fault, hfault⟩ := hout
    have hanswer := (answers_of_outsideFault hfault n).1
    rw [hn] at hanswer
    cases hanswer
  · rcases answers_of_not_outsideFault (not_exists.mp hout) with
      ⟨tree', hok⟩ | ⟨fault, count, -, hfail⟩
    · have hanswer := (hok m).1
      rw [hm] at hanswer
      cases hanswer
    · have hanswer := hfail n
      rw [hn] at hanswer
      cases hanswer

/-- Each reading leaves the root open, so the third has no room for it. -/
example :
    [0, 1, 2].map (fresh ⟨2, 10⟩ (some "<a><b></a>")).answer =
      [.error (.missingClosingTag "b"), .error (.missingClosingTag "b"),
        .error (.maxDepthExceeded 2)] := by
  cbv

end Reader
end TagPath
