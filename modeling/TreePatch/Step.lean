import TreePatch.Fragment.Basic

/-! The steps of a patch. Each addresses the document as the steps before left it. -/

namespace TreePatch

inductive Step where
  /-- Removes the positions from `start` to `stop` and puts the replacement, if any, there. -/
  | delete (start stop : Nat) (replacement : Option Fragment)
  | insert (position : Nat) (content : Fragment)
  deriving DecidableEq, Repr

abbrev Patch := List Step

namespace Step

def start : Step → Nat
  | delete start _ _ => start
  | insert position _ => position

def describe : Step → String
  | delete start stop none => "delete " ++ toString start ++ ".." ++ toString stop
  | delete start stop (some f) =>
    "replace " ++ toString start ++ ".." ++ toString stop ++ " with " ++ f.describe
  | insert position f => "insert " ++ f.describe ++ " at " ++ toString position

end Step
end TreePatch
