import Std.Data.TreeSet.Lemmas

/-! Names of nodes. An arena number is handed out once, so handles issued before a
forest was cleared, or by another forest, never name one of its nodes. -/

namespace TreePatch

/-- Counts the parses of a document. -/
abbrev Generation := Nat

structure Handle where
  arena : Nat
  index : Nat
  deriving DecidableEq, Repr

/-- By arena, then by index. -/
instance : Ord Handle := ⟨compareLex (compareOn Handle.arena) (compareOn Handle.index)⟩

instance : Std.TransOrd Handle :=
  inferInstanceAs (Std.TransCmp (compareLex (compareOn Handle.arena) (compareOn Handle.index)))

instance : Std.LawfulEqOrd Handle where
  eq_of_compare {a b} h := by
    obtain ⟨ha, hi⟩ := Ordering.then_eq_eq.mp
      (show (compare a.arena b.arena).then (compare a.index b.index) = .eq from h)
    cases a
    cases b
    simp only [Handle.mk.injEq]
    exact ⟨Nat.compare_eq_eq.mp ha, Nat.compare_eq_eq.mp hi⟩

def Handle.describe (h : Handle) : String :=
  "#" ++ toString h.index ++ "@" ++ toString h.arena

end TreePatch
