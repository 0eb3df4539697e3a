/-! JSON values. Only a number written without sign, fraction and exponent is a natural
number; any other number keeps its text. -/

namespace TreePatch

inductive Json where
  | null
  | bool (value : Bool)
  | nat (value : Nat)
  | number (text : String)
  | str (value : String)
  | arr (items : List Json)
  | obj (fields : List (String × Json))
  deriving Repr

namespace Json

/-- The field of that name, if the value is an object that has it. -/
def field? (name : String) : Json → Option Json
  | obj fields => fields.lookup name
  | _ => none

def nat? : Json → Option Nat
  | nat n => some n
  | _ => none

/-- A natural number below `limit`. -/
def natBelow? (limit : Nat) (j : Json) : Option Nat := j.nat?.filter (· < limit)

def str? : Json → Option String
  | str s => some s
  | _ => none

def arr? : Json → Option (List Json)
  | arr items => some items
  | _ => none

/-- Writes what is absent as null. -/
def orNull {α : Type} (encode : α → Json) : Option α → Json
  | none => null
  | some a => encode a

def list {α : Type} (encode : α → Json) (items : List α) : Json := arr (items.map encode)

end Json
end TreePatch
