import TreePatch.Text.Units
import TreePatch.Text.Quoted

/-! The tokens of a rendered document: boundaries, one position wide, and text, as
wide as its UTF-16 code units. -/

namespace TreePatch

inductive Token where
  | opening (kind : String)
  | closing (kind : String)
  | text (content : String)
  deriving DecidableEq, Repr

namespace Token

def width : Token → Nat
  | opening _ => 1
  | closing _ => 1
  | text content => Text.units content

def isText : Token → Bool
  | text _ => true
  | _ => false

def describe : Token → String
  | opening kind => "<" ++ kind ++ ">"
  | closing kind => "</" ++ kind ++ ">"
  | text content => Text.quote content

def listWidth (tokens : List Token) : Nat := tokens.foldr (fun t n => t.width + n) 0

@[simp] theorem listWidth_nil : listWidth [] = 0 := rfl

@[simp] theorem listWidth_cons (t : Token) (ts : List Token) :
    listWidth (t :: ts) = t.width + listWidth ts := rfl

@[simp] theorem listWidth_append (a b : List Token) :
    listWidth (a ++ b) = listWidth a + listWidth b := by
  induction a with
  | nil => simp
  | cons t a ih => simp [ih, Nat.add_assoc]

end Token
end TreePatch
