import TreePatch.Fragment.Basic

/-! Matching of boundaries. -/

namespace TreePatch

/-- Reads tokens at a position with the boundaries still open, innermost first. Finds the first
closing boundary that does not fit, else the outermost opening boundary left over. -/
def unmatchedFrom : List (String × Nat) → Nat → List Token → Option Nat
  | pending, _, [] => pending.getLast?.map Prod.snd
  | pending, position, .opening kind :: ts =>
    unmatchedFrom ((kind, position) :: pending) (position + 1) ts
  | [], position, .closing _ :: _ => some position
  | (top, _) :: pending, position, .closing kind :: ts =>
    if top = kind then unmatchedFrom pending (position + 1) ts else some position
  | pending, position, .text s :: ts => unmatchedFrom pending (position + Text.units s) ts

def Fragment.firstUnmatched (f : Fragment) : Option Nat := unmatchedFrom [] 0 f.tokens

end TreePatch
