import TreePatch.Json.Basic

/-! Reading JSON text. Of two fields of one name the later counts. -/

namespace TreePatch.Json

def skipBlanks : List Char → List Char
  | [] => []
  | c :: cs => if c = ' ' ∨ c = '\n' ∨ c = '\r' ∨ c = '\t' then skipBlanks cs else c :: cs

def hexDigit? (c : Char) : Option Nat :=
  if '0' ≤ c ∧ c ≤ '9' then some (c.toNat - '0'.toNat)
  else if 'a' ≤ c ∧ c ≤ 'f' then some (c.toNat - 'a'.toNat + 10)
  else if 'A' ≤ c ∧ c ≤ 'F' then some (c.toNat - 'A'.toNat + 10)
  else none

def hexFour? (a b c d : Char) : Option Nat := do
  return ((← hexDigit? a) * 16 + (← hexDigit? b)) * 256 + (← hexDigit? c) * 16 + (← hexDigit? d)

def shortEscape? : Char → Option Char
  | '"' => some '"'
  | '\\' => some '\\'
  | '/' => some '/'
  | 'b' => some '\x08'
  | 'f' => some '\x0c'
  | 'n' => some '\n'
  | 'r' => some '\r'
  | 't' => some '\t'
  | _ => none

/-- The numbers of a string's characters up to its closing quote, halves of pairs apart. -/
def readUnits : List Char → Option (List Nat × List Char)
  | [] => none
  | '"' :: cs => some ([], cs)
  | '\\' :: 'u' :: a :: b :: c :: d :: cs => do
    let unit ← hexFour? a b c d
    let (units, rest) ← readUnits cs
    return (unit :: units, rest)
  | '\\' :: c :: cs => do
    let escaped ← shortEscape? c
    let (units, rest) ← readUnits cs
    return (escaped.toNat :: units, rest)
  | c :: cs => do
    if c.toNat < 0x20 then none
    else
      let (units, rest) ← readUnits cs
      return (c.toNat :: units, rest)

/-- Puts the halves of pairs together; a half alone is no character. -/
def joinPairs : List Nat → Option (List Char)
  | [] => some []
  | high :: low :: units =>
    if 0xd800 ≤ high ∧ high < 0xdc00 then
      if 0xdc00 ≤ low ∧ low < 0xe000 then
        (joinPairs units).map
          (Char.ofNat (0x10000 + (high - 0xd800) * 0x400 + (low - 0xdc00)) :: ·)
      else none
    else if 0xdc00 ≤ high ∧ high < 0xe000 then none
    else (joinPairs (low :: units)).map (Char.ofNat high :: ·)
  | [unit] => if 0xd800 ≤ unit ∧ unit < 0xe000 then none else some [Char.ofNat unit]

def readString (cs : List Char) : Option (String × List Char) := do
  let (units, rest) ← readUnits cs
  return (String.ofList (← joinPairs units), rest)

def digits (cs : List Char) : List Char := cs.takeWhile Char.isDigit

def afterDigits (cs : List Char) : List Char := cs.dropWhile Char.isDigit

def isCount (cs : List Char) : Bool := !cs.isEmpty && cs.all Char.isDigit

/-- Digits that may have a sign in front. -/
def isSigned : List Char → Bool
  | [] => false
  | c :: cs => if c = '+' ∨ c = '-' then isCount cs else isCount (c :: cs)

/-- An exponent part, possibly absent. -/
def isExponent : List Char → Bool
  | [] => true
  | c :: cs => (c = 'e' || c = 'E') && isSigned cs

/-- What may follow the whole part of a number. -/
def isNumberTail : List Char → Bool
  | '.' :: cs => !(digits cs).isEmpty && isExponent (afterDigits cs)
  | cs => isExponent cs

def isNumberChar (c : Char) : Bool :=
  c.isDigit || c = '-' || c = '+' || c = '.' || c = 'e' || c = 'E'

def digitsValue (cs : List Char) : Nat :=
  cs.foldl (fun n c => 10 * n + (c.toNat - '0'.toNat)) 0

/-- A digit run without a needless zero in front. -/
def isWhole : List Char → Bool
  | [] => false
  | '0' :: cs => cs.isEmpty
  | cs => cs.all Char.isDigit

def withoutMinus : List Char → List Char
  | '-' :: cs => cs
  | cs => cs

def numberOf? (cs : List Char) : Option Json :=
  if isWhole cs then some (.nat (digitsValue cs))
  else if isWhole (digits (withoutMinus cs)) && isNumberTail (afterDigits (withoutMinus cs)) then
    some (.number (String.ofList cs))
  else none

/-- Puts a field in front unless a later one has its name. -/
def addField (name : String) (value : Json) (fields : List (String × Json)) :
    List (String × Json) :=
  if (fields.lookup name).isSome then fields else (name, value) :: fields

mutual

/-- Reads a value; the first argument bounds the nesting and length together. -/
def readValue : Nat → List Char → Option (Json × List Char)
  | 0, _ => none
  | bound + 1, cs => match skipBlanks cs with
    | 'n' :: 'u' :: 'l' :: 'l' :: rest => some (.null, rest)
    | 't' :: 'r' :: 'u' :: 'e' :: rest => some (.bool true, rest)
    | 'f' :: 'a' :: 'l' :: 's' :: 'e' :: rest => some (.bool false, rest)
    | '"' :: rest => do
      let (s, rest) ← readString rest
      return (.str s, rest)
    | '[' :: rest => match skipBlanks rest with
      | ']' :: rest => some (.arr [], rest)
      | rest => do
        let (items, rest) ← readItems bound rest
        return (.arr items, rest)
    | '\x7b' :: rest => match skipBlanks rest with
      | '\x7d' :: rest => some (.obj [], rest)
      | rest => do
        let (fields, rest) ← readFields bound rest
        return (.obj fields, rest)
    | cs => do
      let value ← numberOf? (cs.takeWhile isNumberChar)
      return (value, cs.dropWhile isNumberChar)

/-- Reads items up to the end of their array. -/
def readItems : Nat → List Char → Option (List Json × List Char)
  | 0, _ => none
  | bound + 1, cs => do
    let (item, rest) ← readValue bound cs
    match skipBlanks rest with
    | ',' :: rest =>
      let (items, rest) ← readItems bound rest
      return (item :: items, rest)
    | ']' :: rest => return ([item], rest)
    | _ => none

/-- Reads fields up to the end of their object. -/
def readFields : Nat → List Char → Option (List (String × Json) × List Char)
  | 0, _ => none
  | bound + 1, cs => match skipBlanks cs with
    | '"' :: rest => do
      let (name, rest) ← readString rest
      match skipBlanks rest with
      | ':' :: rest =>
        let (value, rest) ← readValue bound rest
        match skipBlanks rest with
        | ',' :: rest =>
          let (fields, rest) ← readFields bound rest
          return (addField name value fields, rest)
        | '\x7d' :: rest => return ([(name, value)], rest)
        | _ => none
      | _ => none
    | _ => none

end

/-- Reads a text that holds one value and nothing else. -/
def parse? (text : String) : Option Json := do
  let cs := text.toList
  let (value, rest) ← readValue (cs.length + 1) cs
  if (skipBlanks rest).isEmpty then some value else none

end TreePatch.Json
