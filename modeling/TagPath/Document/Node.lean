/-! # Nodes

A document is a tree of two kinds of nodes: an element has a name and children in
order, a text has its characters.  Names and texts are any strings; what a reader
can produce is a matter of the reader.  A text node answers to the name `CDATA`,
which an element may also bear.
-/
namespace TagPath

/-- A node of a document. -/
inductive Node where
  | element (name : String) (children : List Node)
  | text (content : String)
deriving Repr, Inhabited

namespace Node

/-- The name that every text node answers to. -/
def textNodeName : String := "CDATA"

/-- The name a node answers to. -/
def name : Node → String
  | element name _ => name
  | text _ => textNodeName

/-- The children in document order; a text has none. -/
def children : Node → List Node
  | element _ children => children
  | text _ => []

/-- The characters of a text node. -/
def content? : Node → Option String
  | element _ _ => none
  | text content => some content

/-- Whether the node is a text. -/
def isText : Node → Bool
  | element _ _ => false
  | text _ => true

/-- The first child that answers to `name`. -/
def child? (node : Node) (name : String) : Option Node :=
  node.children.find? (·.name == name)

/-- The first text among the children; a text is its own. -/
def textNode? : Node → Option Node
  | element _ children => children.find? isText
  | text content => some (text content)

@[simp] theorem name_element (name : String) (children : List Node) :
    (element name children).name = name := rfl
@[simp] theorem name_text (content : String) : (text content).name = textNodeName := rfl
@[simp] theorem children_element (name : String) (children : List Node) :
    (element name children).children = children := rfl
@[simp] theorem children_text (content : String) : (text content).children = [] := rfl
@[simp] theorem isText_element (name : String) (children : List Node) :
    (element name children).isText = false := rfl
@[simp] theorem isText_text (content : String) : (text content).isText = true := rfl

mutual

/-- Whether two trees are the same, with the same children in the same order. -/
def decEq : (left right : Node) → Decidable (left = right)
  | element name children, element name' children' =>
    match decEqAll children children' with
    | .isTrue hc =>
      if hn : name = name' then .isTrue (by rw [hn, hc])
      else .isFalse fun h => hn (element.inj h).1
    | .isFalse hc => .isFalse fun h => hc (element.inj h).2
  | text content, text content' =>
    if h : content = content' then .isTrue (by rw [h]) else .isFalse fun he => h (text.inj he)
  | element _ _, text _ => .isFalse nofun
  | text _, element _ _ => .isFalse nofun

/-- Whether two lists of trees are the same. -/
def decEqAll : (lefts rights : List Node) → Decidable (lefts = rights)
  | [], [] => .isTrue rfl
  | left :: lefts, right :: rights =>
    match decEq left right with
    | .isTrue hn => match decEqAll lefts rights with
      | .isTrue hr => .isTrue (by rw [hn, hr])
      | .isFalse hr => .isFalse fun h => hr (List.cons.inj h).2
    | .isFalse hn => .isFalse fun h => hn (List.cons.inj h).1
  | [], _ :: _ => .isFalse nofun
  | _ :: _, [] => .isFalse nofun

end

instance : DecidableEq Node := decEq

/-- The texts are the nodes that hold characters. -/
theorem isText_iff {node : Node} : node.isText = true ↔ ∃ content, node = text content := by
  cases node <;> simp

/-- What `textNode?` finds is a text. -/
theorem isText_of_textNode? {node found : Node} (h : node.textNode? = some found) :
    found.isText = true := by
  cases node with
  | element name children => exact List.find?_some (by simpa [textNode?] using h)
  | text content => simp [textNode?] at h; simp [← h]

end Node
end TagPath
