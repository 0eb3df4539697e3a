import TreePatch.Handle
import TreePatch.Token

/-! Nodes of a document tree. A node holds its subtrees, so what it renders to never
changes, and a tag with what was known of it when it was built. Widths are numbers, and a word
of memory tells them as far as it can. -/

namespace TreePatch

/-- The first number that does not fit in a word. -/
def wordLimit : Nat := 18446744073709551616

structure Tag where
  handle : Handle
  /-- Positions the node takes up below another node, its own boundaries included. -/
  span : Nat
  /-- Generation the node was built in. -/
  born : Generation
  /-- Least generation of the direct children, its own if there are none. -/
  childBorn : Generation
  /-- Least generation of the node and all below it. -/
  oldest : Generation
  deriving DecidableEq, Repr

inductive Node where
  | leaf (tag : Tag) (text : String)
  | branch (tag : Tag) (kind : String) (children : List Node)
  deriving Repr

/-- A node apart from its subtrees, which are only named. -/
inductive Layer where
  | leaf (text : String)
  | branch (kind : String) (children : List Handle)
  deriving DecidableEq, Repr

namespace Layer

def isLeaf : Layer → Bool
  | leaf _ => true
  | branch _ _ => false

def children : Layer → List Handle
  | leaf _ => []
  | branch _ children => children

end Layer

namespace Node

def tag : Node → Tag
  | leaf tag _ => tag
  | branch tag _ _ => tag

def handle (n : Node) : Handle := n.tag.handle

def span (n : Node) : Nat := n.tag.span

/-- The width as a word tells it. Past the last word it goes round to zero. -/
def word (n : Node) : Nat := n.span % wordLimit

/-- Adds widths to a sum one after the other, each time in a word. -/
def wordSum (sum : Nat) : List Node → Nat
  | [] => sum
  | n :: ns => wordSum ((sum + n.word) % wordLimit) ns

/-- Positions that nodes side by side take up. -/
def spanAmong (ns : List Node) : Nat := ns.foldr (fun n width => n.span + width) 0

def born (n : Node) : Generation := n.tag.born

def oldest (n : Node) : Generation := n.tag.oldest

def children : Node → List Node
  | leaf _ _ => []
  | branch _ _ children => children

def layer : Node → Layer
  | leaf _ text => .leaf text
  | branch _ kind children => .branch kind (children.map handle)

/-- Positions inside the node when it is the root, whose own boundaries have none. -/
def innerSpan : Node → Nat
  | leaf tag _ => tag.span
  | branch tag _ _ => tag.span - 2

def innerWord (n : Node) : Nat := n.innerSpan % wordLimit

mutual

/-- Handles of a node and of all nodes below it, each as often as it stands there. -/
def handles : Node → List Handle
  | leaf tag _ => [tag.handle]
  | branch tag _ children => tag.handle :: handlesAmong children

def handlesAmong : List Node → List Handle
  | [] => []
  | n :: ns => handles n ++ handlesAmong ns

end

end Node
end TreePatch
