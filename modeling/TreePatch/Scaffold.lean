import TreePatch.Survey
import TreePatch.Extent

/-! What is left of a survey once the changed segments are gone. -/

namespace TreePatch

inductive Piece where
  | opening (kind : String)
  | closing (kind : String)
  | kept (handle : Handle)
  deriving DecidableEq, Repr

def Piece.kept? : Piece → Option Handle
  | kept h => some h
  | _ => none

def Segment.piece? : Segment → Option Piece
  | opening kind => some (.opening kind)
  | closing kind => some (.closing kind)
  | kept n => some (.kept n.handle)
  | changed _ => none

abbrev Scaffold := List Piece

namespace Scaffold

def ofSegments (segments : List Segment) : Scaffold := segments.filterMap Segment.piece?

def keptHandles (s : Scaffold) : List Handle := s.filterMap Piece.kept?

/-- Index of the first difference. -/
def firstDifference : Scaffold → Scaffold → Option Nat
  | [], [] => none
  | a :: as, b :: bs => if a = b then (firstDifference as bs).map (· + 1) else some 0
  | _, _ => some 0

/-- How many pieces there are up to the one that ends `depth` branches already open. -/
def reachClosing : Nat → List Piece → Option Nat
  | _, [] => none
  | depth, .opening _ :: ps => (reachClosing (depth + 1) ps).map (· + 1)
  | depth, .closing _ :: ps =>
    if depth = 1 then some 1 else (reachClosing (depth - 1) ps).map (· + 1)
  | depth, .kept _ :: ps => (reachClosing depth ps).map (· + 1)

/-- The same over pieces read backwards. -/
def reachOpening : Nat → List Piece → Option Nat
  | _, [] => none
  | depth, .closing _ :: ps => (reachOpening (depth + 1) ps).map (· + 1)
  | depth, .opening _ :: ps =>
    if depth = 1 then some 1 else (reachOpening (depth - 1) ps).map (· + 1)
  | depth, .kept _ :: ps => (reachOpening depth ps).map (· + 1)

/-- The pieces of the branch that has a boundary at the index. -/
def enclosureAt (s : Scaffold) (i : Nat) : Option Extent :=
  match s[i]? with
  | some (.opening _) => (reachClosing 0 (s.drop i)).map fun n => ⟨i, i + n⟩
  | some (.closing _) => (reachOpening 0 (s.take (i + 1)).reverse).map fun n => ⟨i + 1 - n, i + 1⟩
  | _ => none

/-- The handles kept in the branch that has a boundary at the index. -/
def keptAround (s : Scaffold) (i : Nat) : List Handle :=
  match s.enclosureAt i with
  | some e => keptHandles ((s.take e.stop).drop e.start)
  | none => []

def keptAt (s : Scaffold) (i : Nat) : List Handle := (s[i]?.bind Piece.kept?).toList

/-- What cannot stay because the scaffolds part at the index: the subtrees kept there, or else
all that is kept in the branches that begin or end there. -/
def displacedAt (a b : Scaffold) (i : Nat) : List Handle :=
  if (a.keptAt i ++ b.keptAt i).isEmpty then a.keptAround i ++ b.keptAround i
  else a.keptAt i ++ b.keptAt i

/-- What cannot stay where the scaffolds first part; nothing if they agree. -/
def displaced (a b : Scaffold) : List Handle :=
  match firstDifference a b with
  | some i => displacedAt a b i
  | none => []

theorem firstDifference_eq_none_iff (a b : Scaffold) : firstDifference a b = none ↔ a = b := by
  induction a generalizing b with
  | nil => cases b <;> simp [firstDifference]
  | cons p ps ih =>
    cases b with
    | nil => simp [firstDifference]
    | cons q qs =>
      by_cases h : p = q
      · simp [firstDifference, h, ih]
      · simp [firstDifference, h]

/-- Before the first difference the scaffolds are the same. -/
theorem take_eq_of_firstDifference {a b : Scaffold} {i : Nat} (h : firstDifference a b = some i) :
    a.take i = b.take i ∧ a[i]? ≠ b[i]? := by
  induction a generalizing b i with
  | nil =>
    cases b with
    | nil => simp [firstDifference] at h
    | cons q qs =>
      simp only [firstDifference, Option.some.injEq] at h
      subst h
      simp
  | cons p ps ih =>
    cases b with
    | nil =>
      simp only [firstDifference, Option.some.injEq] at h
      subst h
      simp
    | cons q qs =>
      by_cases hpq : p = q
      · simp only [firstDifference, hpq, ↓reduceIte, Option.map_eq_some_iff] at h
        obtain ⟨j, hj, rfl⟩ := h
        have := ih hj
        simp [hpq, this]
      · simp only [firstDifference, hpq, ↓reduceIte, Option.some.injEq] at h
        subst h
        simp [hpq]

end Scaffold
end TreePatch
