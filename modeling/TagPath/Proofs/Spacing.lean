import TagPath.Proofs.Blanks
import TagPath.Proofs.Forest
import TagPath.Proofs.Tag

/-! # Written forms with blanks in between

A written form is a row of opening tags, texts and closing tags (`Token`).  A
document may hold blanks that do not belong to its tree, at places where the reader
passes over them: behind an opening tag, before and behind a closing tag, and at the
two ends.  Around a text there is no such place, apart from a tag beside it.  What a
token takes up in a document is `Token.Spans`, what a row of tokens takes up is
`Spaced`, and `Spells document tree` says that the document is the written form of
the tree with such blanks.

Nothing but blanks is lost or gained (`Spells.filter_blank`), so a document has at
least as many bytes as the written form of its tree.  And blanks do not matter for
where a tag stands: it stands in the document exactly if it ends one of the tokens
(`Spaced.infix_iff`).
-/
namespace TagPath
open Text

/-! ## Tokens -/

/-- A part of a written form. -/
inductive Token where
  | opening (name : List Char)
  | text (run : List Char)
  | closing (name : List Char)
deriving Repr, DecidableEq

namespace Token

/-- The characters of a token. -/
def written : Token → List Char
  | opening name => openingTag name
  | text run => run
  | closing name => closingTag name

/-- What a token takes up in a document: itself, and blanks around a tag on its inner
side and behind it. -/
def Spans : Token → List Char → Prop
  | opening name, part => ∃ gap, Blanks gap ∧ part = openingTag name ++ gap
  | text run, part => part = run
  | closing name, part =>
      ∃ before after, Blanks before ∧ Blanks after ∧ part = before ++ closingTag name ++ after

/-- Tags hold one `>`, and texts hold no `<`. -/
def Plain : Token → Prop
  | opening name => '>' ∉ name
  | text run => '<' ∉ run
  | closing name => '>' ∉ name

theorem spans_written (token : Token) : token.Spans token.written := by
  cases token with
  | opening name => exact ⟨[], blanks_nil, (List.append_nil _).symm⟩
  | text run => rfl
  | closing name => exact ⟨[], [], blanks_nil, blanks_nil, by simp [written]⟩

theorem sealed_of_spans {token : Token} {part : List Char} (hp : token.Plain)
    (h : token.Spans part) : Sealed part := by
  cases token with
  | opening name =>
    obtain ⟨gap, hg, rfl⟩ := h
    exact (sealed_openingTag name).append (sealed_of_not_mem hg.not_mem)
  | text run =>
    obtain rfl := h
    exact sealed_of_not_mem hp
  | closing name =>
    obtain ⟨before, after, hb, ha, rfl⟩ := h
    exact ((sealed_of_not_mem hb.not_mem).append (sealed_closingTag name)).append
      (sealed_of_not_mem ha.not_mem)

/-- A tag stands in what a token takes up only as an end of the token. -/
theorem infix_iff_of_spans {mark part : List Char} {token : Token} (hm : IsTag mark)
    (hp : token.Plain) (h : token.Spans part) : mark <:+: part ↔ mark <:+ token.written := by
  cases token with
  | opening name =>
    obtain ⟨gap, hg, rfl⟩ := h
    rw [hm.infix_append_iff (sealed_openingTag name),
      hm.infix_iff_suffix (isTag_openingTag hp)]
    simp [hm.not_infix hg.not_mem, written]
  | text run =>
    obtain rfl := h
    have hn := hm.not_infix hp
    exact iff_of_false hn fun hs => hn hs.isInfix
  | closing name =>
    obtain ⟨before, after, hb, ha, rfl⟩ := h
    rw [List.append_assoc, hm.infix_append_iff (sealed_of_not_mem hb.not_mem),
      hm.infix_append_iff (sealed_closingTag name), hm.infix_iff_suffix (isTag_closingTag hp)]
    simp [hm.not_infix hb.not_mem, hm.not_infix ha.not_mem, written]

end Token

namespace Node

mutual

/-- The tokens of a node's written form. -/
def tokens : Node → List Token
  | element name children =>
    .opening name.toList :: (tokensAll children ++ [.closing name.toList])
  | text content => [.text content.toList]

/-- The tokens of a forest, tree after tree. -/
def tokensAll : List Node → List Token
  | [] => []
  | node :: rest => tokens node ++ tokensAll rest

end

@[simp] theorem tokens_text (content : String) :
    (text content).tokens = [.text content.toList] := by
  rw [tokens]

@[simp] theorem tokens_element (name : String) (children : List Node) :
    (element name children).tokens =
      .opening name.toList :: (tokensAll children ++ [.closing name.toList]) := by
  rw [tokens]

@[simp] theorem tokensAll_nil : tokensAll [] = [] := rfl

@[simp] theorem tokensAll_cons (node : Node) (rest : List Node) :
    tokensAll (node :: rest) = node.tokens ++ tokensAll rest := rfl

theorem tokensAll_append (nodes rest : List Node) :
    tokensAll (nodes ++ rest) = tokensAll nodes ++ tokensAll rest := by
  induction nodes with
  | nil => rfl
  | cons node nodes ih => simp [ih]

/-- The tokens joined are the written form. -/
theorem flatMap_written_tokensAll (nodes : List Node) :
    (tokensAll nodes).flatMap Token.written = writtenAll nodes := by
  induction nodes using forestInduction with
  | nil => rfl
  | text content rest ih => simp [ih, Token.written]
  | element name children rest ihc ihr => simp [ihc, ihr, Token.written]

theorem flatMap_written_tokens (node : Node) :
    node.tokens.flatMap Token.written = node.written := by
  simpa using flatMap_written_tokensAll [node]

end Node

/-! ## Spaced tokens -/

/-- A text that is made of what the tokens take up, one after the other. -/
inductive Spaced : List Token → List Char → Prop
  | nil : Spaced [] []
  | cons {token : Token} {part : List Char} {tokens : List Token} {rest : List Char} :
      token.Spans part → Spaced tokens rest → Spaced (token :: tokens) (part ++ rest)

theorem spaced_nil_iff {text : List Char} : Spaced [] text ↔ text = [] := by
  constructor
  · rintro ⟨⟩
    rfl
  · rintro rfl
    exact .nil

theorem spaced_cons_iff {token : Token} {tokens : List Token} {text : List Char} :
    Spaced (token :: tokens) text ↔
      ∃ part rest, token.Spans part ∧ Spaced tokens rest ∧ text = part ++ rest := by
  constructor
  · rintro (_ | ⟨hp, hr⟩)
    exact ⟨_, _, hp, hr, rfl⟩
  · rintro ⟨part, rest, hp, hr, rfl⟩
    exact .cons hp hr

theorem spaced_append_iff {first second : List Token} {text : List Char} :
    Spaced (first ++ second) text ↔
      ∃ left right, Spaced first left ∧ Spaced second right ∧ text = left ++ right := by
  induction first generalizing text with
  | nil => simp [spaced_nil_iff]
  | cons token first ih =>
    rw [List.cons_append, spaced_cons_iff]
    constructor
    · rintro ⟨part, rest, hp, hrest, rfl⟩
      obtain ⟨left, right, hl, hr, rfl⟩ := ih.mp hrest
      exact ⟨part ++ left, right, .cons hp hl, hr, (List.append_assoc ..).symm⟩
    · rintro ⟨left, right, hleft, hr, rfl⟩
      obtain ⟨part, rest, hp, hl, rfl⟩ := spaced_cons_iff.mp hleft
      exact ⟨part, rest ++ right, hp, ih.mpr ⟨rest, right, hl, hr, rfl⟩, List.append_assoc ..⟩

/-- What one text takes up is the text. -/
theorem spaced_text_cons_iff {run text : List Char} {tokens : List Token} :
    Spaced (.text run :: tokens) text ↔ ∃ rest, Spaced tokens rest ∧ text = run ++ rest := by
  rw [spaced_cons_iff]
  constructor
  · rintro ⟨part, rest, rfl, hr, rfl⟩
    exact ⟨rest, hr, rfl⟩
  · rintro ⟨rest, hr, rfl⟩
    exact ⟨run, rest, rfl, hr, rfl⟩

/-- What an element takes up: its tags, with blanks on their inner sides and behind,
and what its children take up. -/
theorem spaced_element_cons_iff {name : String} {children rest : List Node} {text : List Char} :
    Spaced (Node.tokensAll (.element name children :: rest)) text ↔
      ∃ start inner final gap behind, Blanks start ∧ Blanks final ∧ Blanks gap ∧
        Spaced (Node.tokensAll children) inner ∧ Spaced (Node.tokensAll rest) behind ∧
        text = openingTag name.toList ++ (start ++ inner ++ final) ++ closingTag name.toList ++
          (gap ++ behind) := by
  rw [Node.tokensAll_cons, Node.tokens_element, List.cons_append, List.append_assoc,
    spaced_cons_iff]
  constructor
  · rintro ⟨_, _, ⟨start, hs, rfl⟩, hrest, rfl⟩
    obtain ⟨inner, _, hi, hclose, rfl⟩ := spaced_append_iff.mp hrest
    obtain ⟨_, behind, ⟨final, gap, hf, hg, rfl⟩, hb, rfl⟩ := spaced_cons_iff.mp hclose
    exact ⟨start, inner, final, gap, behind, hs, hf, hg, hi, hb, by simp⟩
  · rintro ⟨start, inner, final, gap, behind, hs, hf, hg, hi, hb, rfl⟩
    refine ⟨openingTag name.toList ++ start, _, ⟨start, hs, rfl⟩,
      spaced_append_iff.mpr ⟨inner, _, hi, .cons ⟨final, gap, hf, hg, rfl⟩ hb, rfl⟩, ?_⟩
    simp

/-- Tokens may stand without any blanks. -/
theorem spaced_flatMap_written (tokens : List Token) :
    Spaced tokens (tokens.flatMap Token.written) := by
  induction tokens with
  | nil => exact .nil
  | cons token tokens ih => exact .cons token.spans_written ih

namespace Spaced
variable {tokens : List Token} {text : List Char}

theorem sealed (h : Spaced tokens text) (hp : ∀ token ∈ tokens, token.Plain) : Sealed text := by
  induction h with
  | nil => exact sealed_of_not_mem List.not_mem_nil
  | cons hs _ ih =>
    exact (Token.sealed_of_spans (hp _ List.mem_cons_self) hs).append
      (ih fun token ht => hp token (List.mem_cons_of_mem _ ht))

/-- **Where a tag stands does not depend on the blanks**: it stands in spaced tokens
exactly if it is the end of one of them. -/
theorem infix_iff {mark : List Char} (hm : IsTag mark) (h : Spaced tokens text)
    (hp : ∀ token ∈ tokens, token.Plain) :
    mark <:+: text ↔ ∃ token ∈ tokens, mark <:+ token.written := by
  induction h with
  | nil => simp [hm.ne_nil]
  | cons hs _ ih =>
    have hplain := hp _ List.mem_cons_self
    rw [hm.infix_append_iff (Token.sealed_of_spans hplain hs),
      Token.infix_iff_of_spans hm hplain hs,
      ih fun token ht => hp token (List.mem_cons_of_mem _ ht)]
    simp only [List.mem_cons, or_and_right, exists_or, exists_eq_left]

/-- A tag stands in spaced tokens exactly if it stands in them without blanks. -/
theorem infix_iff_infix_flatMap {mark : List Char} (hm : IsTag mark) (h : Spaced tokens text)
    (hp : ∀ token ∈ tokens, token.Plain) :
    mark <:+: text ↔ mark <:+: tokens.flatMap Token.written := by
  rw [h.infix_iff hm hp, (spaced_flatMap_written tokens).infix_iff hm hp]

/-- Apart from blanks, spaced tokens are the tokens. -/
theorem filter_blank (h : Spaced tokens text) :
    text.filter (!isBlank ·) = (tokens.flatMap Token.written).filter (!isBlank ·) := by
  induction h with
  | nil => rfl
  | @cons token part _ _ hs _ ih =>
    rw [List.filter_append, ih, List.flatMap_cons, List.filter_append]
    congr 1
    cases token with
    | opening name =>
      obtain ⟨gap, hg, rfl⟩ := hs
      rw [List.filter_append, hg.filter_eq_nil, List.append_nil]
      rfl
    | text run =>
      obtain rfl := hs
      rfl
    | closing name =>
      obtain ⟨before, after, hb, ha, rfl⟩ := hs
      rw [List.filter_append, List.filter_append, hb.filter_eq_nil, ha.filter_eq_nil,
        List.nil_append, List.append_nil]
      rfl

theorem sublist (h : Spaced tokens text) : (tokens.flatMap Token.written).Sublist text := by
  induction h with
  | nil => exact List.Sublist.refl _
  | @cons token part _ _ hs _ ih =>
    refine List.Sublist.append ?_ ih
    cases token with
    | opening name =>
      obtain ⟨gap, -, rfl⟩ := hs
      exact List.sublist_append_left _ _
    | text run =>
      obtain rfl := hs
      exact List.Sublist.refl _
    | closing name =>
      obtain ⟨before, after, -, -, rfl⟩ := hs
      exact (List.sublist_append_right _ _).trans (List.sublist_append_left _ _)

end Spaced

/-! ## Documents -/

/-- The document is the written form of the tree with blanks where the reader passes
over them: behind opening tags, around closing tags, and at the two ends. -/
def Spells (document : List Char) (tree : Node) : Prop :=
  ∃ start body final, Blanks start ∧ Blanks final ∧ Spaced tree.tokens body ∧
    document = start ++ body ++ final

/-- A written form spells its tree. -/
theorem spells_written (tree : Node) : Spells tree.written tree := by
  refine ⟨[], tree.written, [], blanks_nil, blanks_nil, ?_, by simp⟩
  rw [← Node.flatMap_written_tokens]
  exact spaced_flatMap_written _

/-- Apart from blanks, a document is the written form of its tree. -/
theorem Spells.filter_blank {document : List Char} {tree : Node} (h : Spells document tree) :
    document.filter (!isBlank ·) = tree.written.filter (!isBlank ·) := by
  obtain ⟨start, body, final, hs, hf, hb, rfl⟩ := h
  rw [List.filter_append, List.filter_append, hs.filter_eq_nil, hf.filter_eq_nil,
    List.nil_append, List.append_nil, hb.filter_blank, Node.flatMap_written_tokens]

theorem Spells.sublist {document : List Char} {tree : Node} (h : Spells document tree) :
    tree.written.Sublist document := by
  obtain ⟨start, body, final, -, -, hb, rfl⟩ := h
  rw [← Node.flatMap_written_tokens]
  exact hb.sublist.trans ((List.sublist_append_right _ _).trans (List.sublist_append_left _ _))

end TagPath
