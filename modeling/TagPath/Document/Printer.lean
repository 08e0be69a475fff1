import TagPath.Document.Node

/-! # Written form

A text is written as it is; an element as its opening tag, its children and its
closing tag.  Nothing is escaped and nothing is added between the parts.
-/
namespace TagPath

/-- The tag that opens an element. -/
def openingTag (name : List Char) : List Char := '<' :: (name ++ ['>'])

/-- The tag that closes an element. -/
def closingTag (name : List Char) : List Char := '<' :: '/' :: (name ++ ['>'])

@[simp] theorem length_openingTag (name : List Char) :
    (openingTag name).length = name.length + 2 := by
  simp [openingTag]

@[simp] theorem length_closingTag (name : List Char) :
    (closingTag name).length = name.length + 3 := by
  simp [closingTag]

theorem closingTag_ne_nil (name : List Char) : closingTag name ≠ [] := by
  simp [closingTag]

namespace Node

mutual

/-- The characters of a node's written form. -/
def written : Node → List Char
  | element name children =>
    openingTag name.toList ++ writtenAll children ++ closingTag name.toList
  | text content => content.toList

/-- The written forms of some nodes, one after the other. -/
def writtenAll : List Node → List Char
  | [] => []
  | node :: rest => written node ++ writtenAll rest

end

/-- A node's written form, on one line unless a name or a text holds a line break. -/
def render (node : Node) : String := String.ofList node.written

@[simp] theorem written_text (content : String) : (text content).written = content.toList := by
  rw [written]

@[simp] theorem written_element (name : String) (children : List Node) :
    (element name children).written =
      openingTag name.toList ++ writtenAll children ++ closingTag name.toList := by
  rw [written]

@[simp] theorem writtenAll_nil : writtenAll [] = [] := rfl

@[simp] theorem writtenAll_cons (node : Node) (rest : List Node) :
    writtenAll (node :: rest) = node.written ++ writtenAll rest := rfl

theorem writtenAll_append (nodes rest : List Node) :
    writtenAll (nodes ++ rest) = writtenAll nodes ++ writtenAll rest := by
  induction nodes with
  | nil => rfl
  | cons node nodes ih => simp [ih]

/-- Written forms of several nodes are the written forms joined. -/
theorem writtenAll_eq_flatMap (nodes : List Node) : writtenAll nodes = nodes.flatMap written := by
  induction nodes with
  | nil => rfl
  | cons node nodes ih => simp [ih]

end Node
end TagPath
