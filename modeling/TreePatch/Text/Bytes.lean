/-! Text measured and cut in bytes of its UTF-8 form, and split into lines. -/

namespace TreePatch.Text

def bytesOf (cs : List Char) : Nat := cs.foldr (fun c n => c.utf8Size + n) 0

/-- The characters that fit into the first `n` bytes, and those after them. -/
def cutBytes : Nat → List Char → List Char × List Char
  | _, [] => ([], [])
  | n, c :: cs =>
    if c.utf8Size ≤ n then
      let (head, tail) := cutBytes (n - c.utf8Size) cs
      (c :: head, tail)
    else ([], c :: cs)

/-- Puts `inserted` in place of the bytes from `start` to `stop`. -/
def spliceBytes (cs : List Char) (start stop : Nat) (inserted : List Char) : List Char :=
  (cutBytes start cs).1 ++ inserted ++ (cutBytes stop cs).2

/-- The parts between line breaks, at least one. -/
def lines : List Char → List (List Char)
  | [] => [[]]
  | c :: cs =>
    if c = '\n' then [] :: lines cs
    else match lines cs with
      | line :: rest => (c :: line) :: rest
      | [] => [[c]]

theorem lines_ne_nil (cs : List Char) : lines cs ≠ [] := by
  cases cs with
  | nil => simp [lines]
  | cons c cs =>
    unfold lines
    split
    · simp
    · split <;> simp

end TreePatch.Text
