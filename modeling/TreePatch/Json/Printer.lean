import TreePatch.Json.Basic

/-! JSON text without any blanks. Quotes, backslashes and controls are escaped, all other
characters stand as they are. -/

namespace TreePatch.Json

/-- Four hexadecimal digits. -/
def hexFour (n : Nat) : List Char :=
  [Nat.digitChar (n / 4096 % 16), Nat.digitChar (n / 256 % 16),
    Nat.digitChar (n / 16 % 16), Nat.digitChar (n % 16)]

def escapeChar (c : Char) : List Char :=
  match c with
  | '"' => ['\\', '"']
  | '\\' => ['\\', '\\']
  | '\x08' => ['\\', 'b']
  | '\x0c' => ['\\', 'f']
  | '\n' => ['\\', 'n']
  | '\r' => ['\\', 'r']
  | '\t' => ['\\', 't']
  | c => if c.toNat < 0x20 then '\\' :: 'u' :: hexFour c.toNat else [c]

def stringChars (s : String) : List Char := '"' :: s.toList.flatMap escapeChar ++ ['"']

mutual

def chars : Json → List Char
  | .null => ['n', 'u', 'l', 'l']
  | .bool true => ['t', 'r', 'u', 'e']
  | .bool false => ['f', 'a', 'l', 's', 'e']
  | .nat n => Nat.toDigits 10 n
  | .number text => text.toList
  | .str s => stringChars s
  | .arr [] => ['[', ']']
  | .arr (j :: js) => '[' :: chars j ++ itemChars js
  | .obj [] => ['\x7b', '\x7d']
  | .obj ((name, j) :: fields) => '\x7b' :: stringChars name ++ ':' :: chars j ++ fieldChars fields

/-- The items after the first, and the end of the array. -/
def itemChars : List Json → List Char
  | [] => [']']
  | j :: js => ',' :: chars j ++ itemChars js

/-- The fields after the first, and the end of the object. -/
def fieldChars : List (String × Json) → List Char
  | [] => ['\x7d']
  | (name, j) :: fields => ',' :: stringChars name ++ ':' :: chars j ++ fieldChars fields

end

def render (j : Json) : String := String.ofList j.chars

end TreePatch.Json
