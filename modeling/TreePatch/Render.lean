import TreePatch.Node
import TreePatch.Document

/-! Trees rendered as tokens. The boundaries of the root are left out. -/

namespace TreePatch

namespace Node

mutual

/-- The tokens of a node below another node. -/
def tokens : Node → List Token
  | leaf _ text => [.text text]
  | branch _ kind children => .opening kind :: tokensAmong children ++ [.closing kind]

def tokensAmong : List Node → List Token
  | [] => []
  | n :: ns => tokens n ++ tokensAmong ns

end

mutual

/-- The tokens of a node with further tokens after them. -/
def tokensOnto (rest : List Token) : Node → List Token
  | leaf _ text => .text text :: rest
  | branch _ kind children => .opening kind :: tokensAmongOnto (.closing kind :: rest) children

def tokensAmongOnto (rest : List Token) : List Node → List Token
  | [] => rest
  | n :: ns => tokensOnto (tokensAmongOnto rest ns) n

end

mutual

theorem tokensOnto_eq (rest : List Token) (n : Node) : tokensOnto rest n = tokens n ++ rest := by
  cases n with
  | leaf tag text => rfl
  | branch tag kind children =>
    simp [tokensOnto, tokens, tokensAmongOnto_eq (.closing kind :: rest) children]

theorem tokensAmongOnto_eq (rest : List Token) (ns : List Node) :
    tokensAmongOnto rest ns = tokensAmong ns ++ rest := by
  cases ns with
  | nil => rfl
  | cons n ns =>
    simp [tokensAmongOnto, tokensAmong, tokensAmongOnto_eq rest ns, tokensOnto_eq _ n]

end

/-- The tokens of a node as the root. -/
def contentTokens : Node → List Token
  | leaf _ text => [.text text]
  | branch _ _ children => tokensAmongOnto [] children

theorem contentTokens_branch (tag : Tag) (kind : String) (children : List Node) :
    contentTokens (.branch tag kind children) = tokensAmong children := by
  simp [contentTokens, tokensAmongOnto_eq]

def content (root : Node) : Fragment := .ofTokens root.contentTokens

end Node

def Document.ofRoot (root : Node) : Except Error Document :=
  Document.ofFragment root.content

end TreePatch
