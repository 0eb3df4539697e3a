import TreePatch.Node

/-! A tree read as a row of segments: subtrees that are kept, subtrees that change as a whole,
and the boundaries of the branches in which both stand. -/

namespace TreePatch

inductive Segment where
  | opening (kind : String)
  | closing (kind : String)
  | kept (node : Node)
  | changed (node : Node)
  deriving Repr

namespace Segment

def width : Segment → Nat
  | opening _ => 1
  | closing _ => 1
  | kept n => n.span
  | changed n => n.span

def isKept : Segment → Bool
  | kept _ => true
  | _ => false

def isChanged : Segment → Bool
  | changed _ => true
  | _ => false

end Segment

/-- Tells what becomes of a node from the node alone. A kept node is not looked into. -/
structure Sieve where
  keeps : Node → Bool
  /-- Whether the node changes with all that is below it. -/
  changes : Node → Bool

mutual

/-- A branch with nothing kept in it changes as a whole. -/
def survey (s : Sieve) : Node → List Segment
  | .leaf tag text => if s.keeps (.leaf tag text) then [.kept (.leaf tag text)]
      else [.changed (.leaf tag text)]
  | .branch tag kind children =>
    if s.keeps (.branch tag kind children) then [.kept (.branch tag kind children)]
    else if s.changes (.branch tag kind children) then [.changed (.branch tag kind children)]
    else
      let inside := surveyAmong s children
      if inside.any Segment.isKept then .opening kind :: inside ++ [.closing kind]
      else [.changed (.branch tag kind children)]

def surveyAmong (s : Sieve) : List Node → List Segment
  | [] => []
  | n :: ns => survey s n ++ surveyAmong s ns

end

mutual

/-- The survey of a node with further segments after it, and whether anything is kept in it. -/
def surveyOnto (s : Sieve) (rest : List Segment) : Node → Bool × List Segment
  | .leaf tag text => if s.keeps (.leaf tag text) then (true, .kept (.leaf tag text) :: rest)
      else (false, .changed (.leaf tag text) :: rest)
  | .branch tag kind children =>
    if s.keeps (.branch tag kind children) then (true, .kept (.branch tag kind children) :: rest)
    else if s.changes (.branch tag kind children) then
      (false, .changed (.branch tag kind children) :: rest)
    else match surveyAmongOnto s (.closing kind :: rest) children with
      | (true, inside) => (true, .opening kind :: inside)
      | (false, _) => (false, .changed (.branch tag kind children) :: rest)

def surveyAmongOnto (s : Sieve) (rest : List Segment) : List Node → Bool × List Segment
  | [] => (false, rest)
  | n :: ns =>
    let (later, rest) := surveyAmongOnto s rest ns
    let (now, rest) := surveyOnto s rest n
    (now || later, rest)

end

mutual

theorem surveyOnto_eq (s : Sieve) (rest : List Segment) (n : Node) :
    surveyOnto s rest n = ((survey s n).any Segment.isKept, survey s n ++ rest) := by
  cases n with
  | leaf tag text =>
    unfold surveyOnto survey
    split <;> simp [Segment.isKept]
  | branch tag kind children =>
    unfold surveyOnto survey
    split
    · simp [Segment.isKept]
    · split
      · simp [Segment.isKept]
      · rw [surveyAmongOnto_eq s (.closing kind :: rest) children]
        cases h : (surveyAmong s children).any Segment.isKept <;> simp [h, Segment.isKept]

theorem surveyAmongOnto_eq (s : Sieve) (rest : List Segment) (ns : List Node) :
    surveyAmongOnto s rest ns =
      ((surveyAmong s ns).any Segment.isKept, surveyAmong s ns ++ rest) := by
  cases ns with
  | nil => simp [surveyAmongOnto, surveyAmong]
  | cons n ns =>
    unfold surveyAmongOnto surveyAmong
    rw [surveyAmongOnto_eq s rest ns]
    simp only
    rw [surveyOnto_eq s (surveyAmong s ns ++ rest) n]
    simp

end

/-- The root itself can be kept; else its children are read whatever they are. -/
def surveyRoot (s : Sieve) (root : Node) : List Segment :=
  if s.keeps root then [.kept root]
  else match root with
    | .leaf _ _ => [.changed root]
    | .branch _ _ children => (surveyAmongOnto s [] children).2

theorem surveyRoot_branch (s : Sieve) (tag : Tag) (kind : String) (children : List Node)
    (h : s.keeps (.branch tag kind children) = false) :
    surveyRoot s (.branch tag kind children) = surveyAmong s children := by
  simp [surveyRoot, h, surveyAmongOnto_eq]

/-- Keeps what a newer branch has claimed and no one has uprooted. -/
def Sieve.standing (root : Node) (claimed : Handle → Generation) (uprooted : Handle → Bool) :
    Sieve where
  keeps n := root.born < claimed n.handle && !uprooted n.handle
  changes _ := false

/-- Keeps what is older than the root and not uprooted. What was uprooted, and what holds
nothing older, changes as a whole. -/
def Sieve.reused (root : Node) (uprooted : Handle → Bool) : Sieve where
  keeps n := n.born < root.born && !uprooted n.handle
  changes n := n.born < root.born || root.born ≤ n.oldest

end TreePatch
