import TreePatch.Forest.Basic

/-! Plans of trees to be built, with labels for the nodes of interest. -/

namespace TreePatch

inductive Ref where
  | label (name : String)
  /-- An index of the forest at hand, whether or not there is such a node. -/
  | index (index : Nat)
  deriving DecidableEq, Repr

inductive Blueprint where
  /-- A node that is already there. -/
  | node (ref : Ref)
  | leaf (text : String) (label : Option String)
  | branch (kind : String) (children : List Blueprint) (label : Option String)
  deriving Repr

/-- A later binding of a label hides the earlier ones. -/
abbrev Labels := List (String × Handle)

namespace Labels

def bind (labels : Labels) (label : Option String) (h : Handle) : Labels :=
  match label with
  | some name => (name, h) :: labels.filter (·.1 != name)
  | none => labels

end Labels

def Ref.resolve (f : Forest) (labels : Labels) : Ref → Except Error Handle
  | label name => match labels.lookup name with
    | some h => .ok h
    | none => .error (.unknownLabel name)
  | index i => .ok (f.handleAt i)

namespace Blueprint

mutual

/-- Builds children first, left to right. What was built and labelled before an error stays. -/
def build (f : Forest) (labels : Labels) : Blueprint → Except Error Handle × Forest × Labels
  | .node ref => (ref.resolve f labels, f, labels)
  | .leaf text label =>
    let (h, f) := f.leaf text
    (.ok h, f, labels.bind label h)
  | .branch kind children label =>
    match buildAll f labels children with
    | (.error e, f, labels) => (.error e, f, labels)
    | (.ok hs, f, labels) => match f.nodes hs with
      | .error e => (.error e, f, labels)
      | .ok below =>
        let (h, f) := f.join kind below
        (.ok h, f, labels.bind label h)

def buildAll (f : Forest) (labels : Labels) :
    List Blueprint → Except Error (List Handle) × Forest × Labels
  | [] => (.ok [], f, labels)
  | b :: bs => match build f labels b with
    | (.error e, f, labels) => (.error e, f, labels)
    | (.ok h, f, labels) => match buildAll f labels bs with
      | (.error e, f, labels) => (.error e, f, labels)
      | (.ok hs, f, labels) => (.ok (h :: hs), f, labels)

end

end Blueprint
end TreePatch
