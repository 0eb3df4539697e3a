import TreePatch.Session
import TreePatch.Text.Bytes

/-! A parser of lines. Each line is a block: a heading if it starts with an equals sign and a
space, a paragraph otherwise. A block is used again unless an edit touched its line, the
places right before and after it included. Extents count bytes. -/

namespace TreePatch

structure Block where
  extent : Extent
  handle : Handle
  deriving DecidableEq, Repr

structure Blocks where
  source : String
  blocks : List Block := []
  deriving DecidableEq, Repr

namespace Blocks

/-- What is left of a block after an edit that puts `added` bytes in place of an extent. -/
def keepApart (e : Extent) (added : Nat) (b : Block) : Option Block :=
  if b.extent.stop < e.start then some b
  else if e.stop < b.extent.start then
    some { b with
      extent := ⟨b.extent.start - e.length + added, b.extent.stop - e.length + added⟩ }
  else none

def edit (p : Blocks) (e : Extent) (text : String) : Blocks where
  source := String.ofList (Text.spliceBytes p.source.toList e.start e.stop text.toList)
  blocks := p.blocks.filterMap (keepApart e (Text.bytesOf text.toList))

/-- The kind of a line and the text it shows. -/
def read (line : List Char) : String × List Char :=
  match line with
  | '=' :: ' ' :: title => ("heading", title)
  | line => ("paragraph", line)

def build (f : Forest) (line : List Char) : Except Error (Handle × Forest) :=
  let (kind, text) := read line
  if text.isEmpty then f.branch kind []
  else
    let (h, f) := f.leaf (String.ofList text)
    f.branch kind [h]

/-- The block of that extent if it is the next one, and the blocks after it. -/
def reuse (e : Extent) (blocks : List Block) : Option Block × List Block :=
  match blocks.dropWhile (·.extent.start < e.start) with
  | [] => (none, [])
  | b :: rest => if b.extent = e then (some b, rest) else (none, b :: rest)

/-- Finds or builds the block of each line, the first of which starts at a byte. -/
def readLines (f : Forest) (start : Nat) (blocks : List Block) :
    List (List Char) → Except Error (List Block × Forest)
  | [] => .ok ([], f)
  | line :: rest => do
    let e : Extent := ⟨start, start + Text.bytesOf line⟩
    match reuse e blocks with
    | (some b, blocks) =>
      let (later, f) ← readLines f (e.stop + 1) blocks rest
      return (b :: later, f)
    | (none, blocks) =>
      let (h, f) ← build f line
      let (later, f) ← readLines f (e.stop + 1) blocks rest
      return (⟨e, h⟩ :: later, f)

def readAll (p : Blocks) (f : Forest) : Except Error (Handle × List Block × Forest) := do
  let (blocks, f) ← readLines f 0 p.blocks (Text.lines p.source.toList)
  let (root, f) ← f.branch "doc" (blocks.map Block.handle)
  return (root, blocks, f)

def parse (p : Blocks) (plot : Plot) : Except Error Handle × Blocks × Plot :=
  match p.readAll plot.forest with
  | .ok (root, blocks, f) => (.ok root, { p with blocks }, plot.put f)
  | .error e => (.error e, p, plot)

instance : Parser Blocks := ⟨edit, parse⟩

end Blocks
end TreePatch
