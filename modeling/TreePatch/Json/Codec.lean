import TreePatch.Json.Basic
import TreePatch.Forest.Basic
import TreePatch.Removal
import TreePatch.Step

/-! The types of the library as JSON. A record is read from an object, whose other fields do not
matter, or from an array of its fields in order. A variant is an object with one field. -/

namespace TreePatch

namespace Json

/-- The values of a record's fields, with those at the end of an array possibly missing. -/
def record? (names : List String) : Json → Option (List (Option Json))
  | obj fields => some (names.map fun name => fields.lookup name)
  | arr items =>
    if names.length < items.length then none
    else some ((List.range names.length).map fun i => items[i]?)
  | _ => none

/-- The name and content of a variant. -/
def variant? : Json → Option (String × Json)
  | obj [field] => some field
  | _ => none

/-- Reads a list item by item. -/
def list? {α : Type} (decode : Json → Option α) (j : Json) : Option (List α) := do
  let items ← j.arr?
  items.mapM decode

/-- Numbers of nodes and positions. -/
def size? : Json → Option Nat := natBelow? 18446744073709551616

/-- Numbers of generations and arenas. -/
def count? : Json → Option Nat := natBelow? 4294967296

/-- Reads a field that may be absent. -/
def given? {α : Type} (decode : Json → Option α) (default : α) : Option Json → Option α
  | none => some default
  | some j => decode j

end Json

open Json

namespace Token

def toJson : Token → Json
  | opening kind => .obj [("Open", .str kind)]
  | closing kind => .obj [("Close", .str kind)]
  | text content => .obj [("Text", .str content)]

def ofJson? (j : Json) : Option Token := do
  match ← j.variant? with
  | ("Open", j) => opening <$> j.str?
  | ("Close", j) => closing <$> j.str?
  | ("Text", j) => text <$> j.str?
  | _ => none

end Token

namespace Fragment

def toJson (f : Fragment) : Json := Json.list Token.toJson f.tokens

/-- Any tokens are read, and brought into normal form. -/
def ofJson? (j : Json) : Option Fragment := ofTokens <$> list? Token.ofJson? j

end Fragment

namespace Step

def toJson : Step → Json
  | delete start stop replacement =>
    .obj [("Delete", .obj [("from", .nat start), ("to", .nat stop),
      ("replacement", orNull Fragment.toJson replacement)])]
  | insert position content =>
    .obj [("Insert", .obj [("at", .nat position), ("content", content.toJson)])]

/-- A replacement that is missing or null is none. -/
def replacement? : Option Json → Option (Option Fragment)
  | none => some none
  | some .null => some none
  | some j => some <$> Fragment.ofJson? j

def ofJson? (j : Json) : Option Step := do
  match ← j.variant? with
  | ("Delete", .obj fields) =>
    return delete (← (← fields.lookup "from").size?) (← (← fields.lookup "to").size?)
      (← replacement? (fields.lookup "replacement"))
  | ("Insert", .obj fields) =>
    return insert (← (← fields.lookup "at").size?) (← Fragment.ofJson? (← fields.lookup "content"))
  | _ => none

end Step

namespace Settings

def toJson (s : Settings) : Json :=
  .obj [("placeholder_kind", .str s.placeholderKind), ("leaf_kind", .str s.leafKind)]

/-- A kind that is missing has its default. -/
def ofJson? (j : Json) : Option Settings := do
  match ← j.record? ["placeholder_kind", "leaf_kind"] with
  | [placeholderKind, leafKind] =>
    let default : Settings := {}
    return ⟨← given? str? default.placeholderKind placeholderKind,
      ← given? str? default.leafKind leafKind⟩
  | _ => none

end Settings

namespace Removal

def toJson (r : Removal) : Json :=
  .obj [("from", .nat r.extent.start), ("to", .nat r.extent.stop), ("kind", .str r.kind)]

def ofJson? (j : Json) : Option Removal := do
  match ← j.record? ["from", "to", "kind"] with
  | [some start, some stop, some kind] =>
    return ⟨⟨← start.size?, ← stop.size?⟩, ← kind.str?⟩
  | _ => none

end Removal

namespace Handle

def toJson (h : Handle) : Json := .obj [("arena", .nat h.arena), ("index", .nat h.index)]

def ofJson? (j : Json) : Option Handle := do
  match ← j.record? ["arena", "index"] with
  | [some arena, some index] => return ⟨← arena.count?, ← index.size?⟩
  | _ => none

end Handle

namespace Layer

def toJson : Layer → Json
  | leaf text => .obj [("Leaf", .obj [("text", .str text)])]
  | branch kind children =>
    .obj [("Branch", .obj [("kind", .str kind), ("children", Json.list Handle.toJson children)])]

def ofJson? (j : Json) : Option Layer := do
  match ← j.variant? with
  | ("Leaf", .obj fields) => return leaf (← (← fields.lookup "text").str?)
  | ("Branch", .obj fields) =>
    return branch (← (← fields.lookup "kind").str?)
      (← list? Handle.ofJson? (← fields.lookup "children"))
  | _ => none

end Layer

namespace Stamp

def toJson (s : Stamp) : Json :=
  .obj [("gen_id", .nat s.born), ("min_gen_id", .nat s.childBorn),
    ("parent_gen_id", .nat s.claimed), ("oldest_gen_id", .nat s.oldest)]

def ofJson? (j : Json) : Option Stamp := do
  match ← j.record? ["gen_id", "min_gen_id", "parent_gen_id", "oldest_gen_id"] with
  | [some born, some childBorn, some claimed, some oldest] =>
    return ⟨← born.count?, ← childBorn.count?, ← claimed.count?, ← oldest.count?⟩
  | _ => none

end Stamp
end TreePatch
