import TagPath.Proofs.Canonical

/-! # Rows of tokens

A reader that looks for the first closing tag may cut a written form in the middle of
an element, and go on with what lies before and behind the cut.  What it goes on with
is not the written form of any forest, but it is still a row of whole tokens.  This
module is about such rows, for names without `<`, `>` and `/`.

A row is *tight* if its texts are runs with a tag on either side or an end of the row,
and no blank stands before a closing tag or at an end (`Tight`).  The written form of a
forest is tight (`tight_tokensAll_append`), so is each side of a closing tag in a tight
row (`Tight.split`), and nothing is trimmed off a tight row (`Tight.trimmed`).  A row
*fits* a limit if no more elements are open in it at once (`Fits`).  In a row with
simple names a closing tag stands only where it is a token
(`closingTag_infix_flatMap_iff`), and the tokens of a forest determine the forest
(`tokensAll_inj`).
-/
namespace TagPath
open Text

/-- A name without any of the marks of a tag. -/
def Unmarked (name : List Char) : Prop := '<' ∉ name ∧ '>' ∉ name ∧ '/' ∉ name

instance (name : List Char) : Decidable (Unmarked name) := inferInstanceAs (Decidable (_ ∧ _))

namespace Token

/-- Names hold no marks, and texts are runs. -/
def Simple : Token → Prop
  | opening name => Unmarked name
  | text run => IsRun run
  | closing name => Unmarked name

/-- What may stand behind a token: behind a text there is no other text, and the text
does not end with a blank unless an element follows. -/
def Precedes : Token → Option Token → Prop
  | text _, some (text _) => False
  | text _, some (opening _) => True
  | text run, _ => ∀ c ∈ run.getLast?, isBlank c = false
  | _, _ => True

theorem Simple.plain {token : Token} (h : token.Simple) : token.Plain := by
  cases token with
  | opening name => exact h.2.1
  | text run => exact h.not_mem
  | closing name => exact h.2.1

theorem Simple.written_ne_nil {token : Token} (h : token.Simple) : token.written ≠ [] := by
  cases token with
  | opening name => exact List.cons_ne_nil _ _
  | text run => exact h.ne_nil
  | closing name => exact closingTag_ne_nil name

/-- Of all simple tokens, only the closing tag of a name ends with it. -/
theorem Simple.closingTag_suffix_iff {token : Token} {name : List Char} (h : token.Simple) :
    closingTag name <:+ token.written ↔ token = closing name := by
  have hlt : '<' ∈ closingTag name := List.mem_cons_self
  have hslash : '/' ∈ closingTag name := List.mem_cons_of_mem _ List.mem_cons_self
  cases token with
  | opening other =>
    have hn : '/' ∉ openingTag other := by simp [openingTag, h.2.2]
    exact iff_of_false (fun hs => hn (hs.subset hslash)) (by simp)
  | text run =>
    exact iff_of_false (fun hs => h.not_mem (hs.subset hlt)) (by simp)
  | closing other =>
    constructor
    · intro hs
      rcases List.suffix_cons_iff.mp hs with he | hs
      · simpa [closingTag] using he.symm
      · have hn : '<' ∉ '/' :: (other ++ ['>']) := by simp [h.1]
        exact absurd (hs.subset hlt) hn
    · intro he
      rw [he]
      exact List.suffix_refl _

end Token

/-- **In a row of simple tokens a closing tag stands only where it is a token.** -/
theorem closingTag_infix_flatMap_iff {tokens : List Token} {name : List Char} (hn : '>' ∉ name)
    (ht : ∀ token ∈ tokens, token.Simple) :
    closingTag name <:+: tokens.flatMap Token.written ↔ .closing name ∈ tokens := by
  rw [(spaced_flatMap_written tokens).infix_iff (isTag_closingTag hn)
    fun token hm => (ht token hm).plain]
  constructor
  · rintro ⟨token, hm, hs⟩
    rwa [(ht token hm).closingTag_suffix_iff.mp hs] at hm
  · intro hm
    exact ⟨_, hm, List.suffix_refl _⟩

/-! ## Tight rows -/

/-- A row of simple tokens in which every token may stand before the next one, and the
last one at the end. -/
def Tight : List Token → Prop
  | [] => True
  | token :: rest => token.Simple ∧ token.Precedes rest.head? ∧ Tight rest

/-- Nothing follows, or a closing tag. -/
def Closes (tokens : List Token) : Prop := ∀ token ∈ tokens.head?, ∃ name, token = .closing name

theorem closes_nil : Closes [] := by simp [Closes]

theorem closes_closing_cons (name : List Char) (rest : List Token) :
    Closes (.closing name :: rest) := by
  simp [Closes]

namespace Tight
variable {tokens rest : List Token}

theorem simple (h : Tight tokens) : ∀ token ∈ tokens, token.Simple := by
  induction tokens with
  | nil => simp
  | cons first rest ih =>
    obtain ⟨hs, -, ht⟩ := h
    intro token hm
    rcases List.mem_cons.mp hm with rfl | hm
    · exact hs
    · exact ih ht token hm

/-- Both sides of a closing tag in a tight row are tight. -/
theorem split {name : List Char} (h : Tight (tokens ++ .closing name :: rest)) :
    Tight tokens ∧ Tight rest := by
  induction tokens with
  | nil => exact ⟨trivial, h.2.2⟩
  | cons token tokens ih =>
    obtain ⟨hs, hp, ht⟩ := h
    obtain ⟨hl, hr⟩ := ih ht
    refine ⟨⟨hs, ?_, hl⟩, hr⟩
    cases tokens with
    | nil => cases token <;> exact hp
    | cons next tokens => exact hp

/-- No token of a tight row begins with a blank. -/
theorem first (h : Tight tokens) :
    ∀ c ∈ (tokens.flatMap Token.written).head?, isBlank c = false := by
  rcases tokens with _ | ⟨token, rest⟩
  · simp
  obtain ⟨hs, -⟩ := h
  intro c hc
  rw [List.flatMap_cons, List.head?_append_of_ne_nil _ hs.written_ne_nil] at hc
  cases token with
  | opening name =>
    obtain rfl : '<' = c := Option.some.inj hc
    exact isBlank_mark (by simp)
  | text run => exact hs.first c hc
  | closing name =>
    obtain rfl : '<' = c := Option.some.inj hc
    exact isBlank_mark (by simp)

/-- The last token of a tight row does not end with a blank. -/
theorem final (h : Tight tokens) :
    ∀ c ∈ (tokens.flatMap Token.written).getLast?, isBlank c = false := by
  induction tokens with
  | nil => simp
  | cons token rest ih =>
    obtain ⟨hs, hp, ht⟩ := h
    intro c hc
    rw [List.flatMap_cons] at hc
    by_cases hr : rest.flatMap Token.written = []
    · -- the tokens of a tight row are not empty, so this one is the last
      obtain rfl : rest = [] := by
        rcases rest with _ | ⟨next, rest⟩
        · rfl
        · exact absurd (List.append_eq_nil_iff.mp hr).1 ht.1.written_ne_nil
      rw [List.flatMap_nil, List.append_nil] at hc
      cases token with
      | opening name =>
        obtain rfl : '>' = c := by
          simpa [Token.written, openingTag, List.getLast?_cons] using hc
        exact isBlank_mark (by simp)
      | text run => exact hp c hc
      | closing name =>
        obtain rfl : '>' = c := by
          simpa [Token.written, closingTag, List.getLast?_cons] using hc
        exact isBlank_mark (by simp)
    · rw [List.getLast?_append_of_ne_nil _ hr] at hc
      exact ih ht c hc

theorem trimmed (h : Tight tokens) : Trimmed (tokens.flatMap Token.written) := ⟨h.first, h.final⟩

/-- What follows a text in a tight row begins with a tag. -/
theorem head?_behind {run : List Char} (h : Tight (.text run :: rest)) :
    ∀ c ∈ (rest.flatMap Token.written).head?, c = '<' := by
  obtain ⟨-, hp, -⟩ := h
  intro c hc
  rcases rest with _ | ⟨next, rest⟩
  · simp at hc
  cases next with
  | opening name => exact (Option.some.inj hc).symm
  | text second => exact False.elim hp
  | closing name => exact (Option.some.inj hc).symm

end Tight

/-! ## Rows within a limit -/

/-- No more than `limit` elements are open at once, if `depth` of them are before the
row.  A closing tag closes the innermost one, whatever its name. -/
def Fits (limit : Nat) : Nat → List Token → Prop
  | _, [] => True
  | depth, .opening _ :: rest => depth + 1 ≤ limit ∧ Fits limit (depth + 1) rest
  | depth, .text _ :: rest => Fits limit depth rest
  | depth, .closing _ :: rest => Fits limit (depth - 1) rest

theorem Fits.left {limit depth : Nat} {tokens rest : List Token}
    (h : Fits limit depth (tokens ++ rest)) : Fits limit depth tokens := by
  induction tokens generalizing depth with
  | nil => exact trivial
  | cons token tokens ih =>
    cases token with
    | opening name => exact ⟨h.1, ih h.2⟩
    | text run => exact ih h
    | closing name => exact ih h

/-! ## The rows of forests -/

namespace Node

/-- An element whose name has no marks, with orderly children. -/
def Simple (name : String) (children : List Node) : Prop :=
  Unmarked name.toList ∧ Orderly children

instance (name : String) (children : List Node) : Decidable (Simple name children) :=
  inferInstanceAs (Decidable (_ ∧ _))

theorem Simple.tidy {name : String} {children : List Node} (h : Simple name children) :
    Tidy name children := ⟨h.1.2.1, h.2⟩

theorem tokensAll_text_cons_append (content : String) (others : List Node) (rest : List Token) :
    tokensAll (text content :: others) ++ rest =
      .text content.toList :: (tokensAll others ++ rest) := by
  simp

/-- An element in front: the first closing tag that is not one of its children's tokens
is its own. -/
theorem tokensAll_element_cons_append (name : String) (children others : List Node)
    (rest : List Token) :
    tokensAll (element name children :: others) ++ rest =
      .opening name.toList ::
        (tokensAll children ++ .closing name.toList :: (tokensAll others ++ rest)) := by
  simp

/-- The tokens of simple trees are tight, up to a closing tag behind them or an end. -/
theorem tight_tokensAll_append {nodes : List Node} {rest : List Token} (ho : Orderly nodes)
    (hs : ∀ node ∈ nodes, node.EachElement Simple) (hc : Closes rest) (ht : Tight rest) :
    Tight (tokensAll nodes ++ rest) := by
  induction nodes using forestInduction generalizing rest with
  | nil => exact ht
  | text content others ih =>
    obtain ⟨hrun, hnext, hlast, ho⟩ := orderly_text_cons_iff.mp ho
    have htail := ih ho (fun node hm => hs node (List.mem_cons_of_mem _ hm)) hc ht
    rw [tokensAll_text_cons_append]
    refine ⟨hrun, ?_, htail⟩
    rcases others with _ | ⟨_ | second, others⟩
    · -- a last text is followed by a closing tag or an end
      rcases rest with _ | ⟨next, rest⟩
      · exact hlast rfl
      · obtain ⟨name, rfl⟩ := hc next rfl
        exact hlast rfl
    · rw [tokensAll_element_cons_append]
      exact trivial
    · exact absurd (hnext _ rfl) (by simp)
  | element name children others ihc ihr =>
    obtain ⟨⟨hname, hoc⟩, hsc⟩ := eachElement_element_iff.mp (hs _ List.mem_cons_self)
    have htail := ihr (orderly_element_cons_iff.mp ho)
      (fun node hm => hs node (List.mem_cons_of_mem _ hm)) hc ht
    have hclose : Tight (.closing name.toList :: (tokensAll others ++ rest)) :=
      ⟨hname, trivial, htail⟩
    have hinner := ihc hoc hsc (closes_closing_cons _ _) hclose
    rw [tokensAll_element_cons_append]
    exact ⟨hname, trivial, hinner⟩

theorem tight_tokensAll {nodes : List Node} (ho : Orderly nodes)
    (hs : ∀ node ∈ nodes, node.EachElement Simple) : Tight (tokensAll nodes) := by
  have h := tight_tokensAll_append ho hs closes_nil trivial
  rwa [List.append_nil] at h

/-- A forest fits as deep as it is nested, and leaves as many elements open as before. -/
theorem fits_tokensAll_append_iff {limit depth : Nat} {nodes : List Node} {rest : List Token}
    (hd : depth ≤ limit) :
    Fits limit depth (tokensAll nodes ++ rest) ↔
      depth + nestingAll nodes ≤ limit ∧ Fits limit depth rest := by
  induction nodes using forestInduction generalizing depth rest with
  | nil => simp [hd]
  | text content others ih =>
    rw [tokensAll_text_cons_append, nestingAll_cons, nesting_text, Nat.zero_max]
    exact ih hd
  | element name children others ihc ihr =>
    rw [tokensAll_element_cons_append, nestingAll_cons, nesting_element]
    constructor
    · rintro ⟨hd', h⟩
      obtain ⟨hn, hclose⟩ := (ihc hd').mp h
      obtain ⟨hn', hrest⟩ := (ihr hd).mp hclose
      exact ⟨by omega, hrest⟩
    · rintro ⟨hn, hrest⟩
      have hclose : Fits limit depth (tokensAll others ++ rest) := (ihr hd).mpr ⟨by omega, hrest⟩
      exact ⟨by omega, (ihc (by omega)).mpr ⟨by omega, hclose⟩⟩

/-- The closing tags in the tokens of a forest are those of the elements in it. -/
theorem closing_mem_tokensAll_iff {name : List Char} {nodes : List Node} :
    .closing name ∈ tokensAll nodes ↔
      ∃ node ∈ nodes.flatMap subtrees, node.isText = false ∧ node.name.toList = name := by
  induction nodes using forestInduction with
  | nil => simp
  | text content others ih => simp [ih]
  | element other children others ihc ihr =>
    simp only [tokensAll_cons, tokens_element, List.cons_append, List.mem_cons, List.mem_append,
      ihc, ihr, reduceCtorEq, false_or, List.append_assoc, List.not_mem_nil, List.flatMap_cons,
      subtrees_element, or_and_right, exists_or, exists_eq_left, isText_element, name_element,
      true_and, Token.closing.injEq, eq_comm]
    exact or_left_comm

theorem not_closes_tokensAll_cons {node : Node} {others : List Node} {rest : List Token} :
    ¬ Closes (tokensAll (node :: others) ++ rest) := by
  intro h
  cases node with
  | text content =>
    obtain ⟨name, he⟩ := h (.text content.toList) rfl
    cases he
  | element name children =>
    rw [tokensAll_element_cons_append] at h
    obtain ⟨name', he⟩ := h (.opening name.toList) rfl
    cases he

/-- **A forest is determined by its tokens**, also if a closing tag follows them. -/
theorem tokensAll_append_inj {nodes nodes' : List Node} {rest rest' : List Token}
    (hc : Closes rest) (hc' : Closes rest')
    (h : tokensAll nodes ++ rest = tokensAll nodes' ++ rest') : nodes = nodes' ∧ rest = rest' := by
  induction nodes using forestInduction generalizing nodes' rest rest' with
  | nil =>
    -- a forest that is not empty begins with an opening tag or a text
    rcases nodes' with _ | ⟨node, others'⟩
    · exact ⟨rfl, h⟩
    · rw [tokensAll_nil, List.nil_append] at h
      exact absurd (h ▸ hc) not_closes_tokensAll_cons
  | text content others ih =>
    rcases nodes' with _ | ⟨⟨name', children'⟩ | content', others'⟩
    · rw [tokensAll_nil, List.nil_append] at h
      exact absurd (h ▸ hc') not_closes_tokensAll_cons
    · rw [tokensAll_text_cons_append, tokensAll_element_cons_append] at h
      cases h
    · rw [tokensAll_text_cons_append, tokensAll_text_cons_append] at h
      obtain ⟨hfirst, hothers⟩ := List.cons.inj h
      obtain rfl := String.toList_inj.mp (Token.text.inj hfirst)
      obtain ⟨rfl, he⟩ := ih hc hc' hothers
      exact ⟨rfl, he⟩
  | element name children others ihc ihr =>
    rcases nodes' with _ | ⟨⟨name', children'⟩ | content', others'⟩
    · rw [tokensAll_nil, List.nil_append] at h
      exact absurd (h ▸ hc') not_closes_tokensAll_cons
    · rw [tokensAll_element_cons_append, tokensAll_element_cons_append] at h
      obtain ⟨hfirst, hinner⟩ := List.cons.inj h
      obtain rfl := String.toList_inj.mp (Token.opening.inj hfirst)
      -- both lists of children are followed by the closing tag of the element
      obtain ⟨rfl, hclose⟩ := ihc (closes_closing_cons _ _) (closes_closing_cons _ _) hinner
      obtain ⟨rfl, he⟩ := ihr hc hc' (List.cons.inj hclose).2
      exact ⟨rfl, he⟩
    · rw [tokensAll_element_cons_append, tokensAll_text_cons_append] at h
      cases h

theorem tokensAll_inj {nodes nodes' : List Node} (h : tokensAll nodes = tokensAll nodes') :
    nodes = nodes' := by
  refine (tokensAll_append_inj closes_nil closes_nil ?_).1
  rw [h]

end Node

end TagPath
