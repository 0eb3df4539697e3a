import TreePatch.Timeline
import TreePatch.Workspace

/-! A parser driven one edit at a time. A parse that fails leaves no trace in the forest and
the next edit takes its generation. -/

namespace TreePatch

/-- Parses again after each edit, naming for unchanged parts the nodes it named before. -/
class Parser (π : Type) where
  /-- Replaces the part of the source inside the extent. -/
  edit : π → Extent → String → π
  /-- Builds a tree of the source. The parser and the plot afterwards count also on failure. -/
  parse : π → Plot → Except Error Handle × π × Plot

structure Session (π : Type) where
  parser : π
  plot : Plot
  timeline : Timeline
  root : Handle
  deriving Repr

namespace Session

variable {π : Type} [Parser π]

def start (parser : π) (plot : Plot) : Except Error (Session π) := do
  let (parsed, parser, plot) := Parser.parse parser plot
  let root ← parsed
  let timeline ← Timeline.push {} plot.forest root
  return { parser, plot, timeline, root }

/-- The plot of the next parse. A generation without a root is used again. -/
def nextPlot (s : Session π) (root : Node) : Plot :=
  if root.born = s.plot.forest.generation then s.plot.put s.plot.forest.advance else s.plot

/-- Records a parsed root. -/
def record (s : Session π) (parser : π) (plot : Plot) (root : Handle) :
    Except Error (Session π) := do
  let timeline ← s.timeline.push plot.forest root
  return { parser, plot, timeline := timeline.keepLatest 2, root }

/-- Goes back to a save, giving the reason unless going back fails too. -/
def back (s : Session π) (parser : π) (plot : Plot) (saved : Save) (reason : Error) :
    Error × Session π :=
  match plot.forest.restore saved with
  | .ok f => (reason, { s with parser, plot := plot.put f })
  | .error e => (e, { s with parser, plot })

/-- Edits the source and gives the patch from the last rendering to the new one. -/
def edit (s : Session π) (e : Extent) (text : String) : Except Error Patch × Session π :=
  match s.plot.forest.node s.root with
  | .error reason => (.error reason, s)
  | .ok root =>
    let before := s.nextPlot root
    let (parsed, parser, after) := Parser.parse (Parser.edit s.parser e text) before
    match parsed.bind (s.record parser after) with
    | .ok next => (next.timeline.latestPatch next.plot.forest, next)
    | .error reason =>
      let (reason, s) := s.back parser after before.forest.save reason
      (.error reason, s)

/-- Leads from a new surface to the latest tree. -/
def joinPatch (s : Session π) : Except Error Patch := Patch.populate s.plot.forest s.root

end Session
end TreePatch
