import TreePatch.Proofs.Joint

/-! A fragment as the row of its positions: a boundary each, or one code unit of text. Places are
read back as a text in UTF-16 is, with the replacement character for half of a pair. So a fragment
is what its places read as (`Fragment.ofPlaces_places`), and a cut puts the places before it on one
side and those behind it on the other (`Fragment.cutAt_eq_ok_iff`). -/

namespace TreePatch

section Rows

variable {α : Type} {front : List α} {n : Nat}

theorem take_behind (h : front.length ≤ n) (rest : List α) :
    (front ++ rest).take n = front ++ rest.take (n - front.length) := by
  rw [List.take_append, List.take_of_length_le h]

theorem drop_behind (h : front.length ≤ n) (rest : List α) :
    (front ++ rest).drop n = rest.drop (n - front.length) := by
  rw [List.drop_append, List.drop_of_length_le h, List.nil_append]

end Rows

namespace Text

/-- The code units of a character: itself, or a lead and a trail. -/
def codes (c : Char) : List Nat :=
  if c.toNat < 0x10000 then [c.toNat]
  else [0xD800 + (c.toNat - 0x10000) / 0x400, 0xDC00 + (c.toNat - 0x10000) % 0x400]

def isLead (code : Nat) : Bool := 0xD800 ≤ code && code < 0xDC00

def isTrail (code : Nat) : Bool := 0xDC00 ≤ code && code < 0xE000

/-- What a unit says by itself. -/
def charOf (code : Nat) : Char :=
  if isLead code || isTrail code then halfPair else Char.ofNat code

def charOfPair (lead trail : Nat) : Char :=
  Char.ofNat (0x10000 + (lead - 0xD800) * 0x400 + (trail - 0xDC00))

end Text

inductive Place where
  | opening (kind : String)
  | closing (kind : String)
  | unit (code : Nat)
  deriving DecidableEq, Repr

namespace Place

open Text

/-- The tokens that places spell, in normal form. -/
def read : List Place → List Token
  | [] => []
  | opening kind :: ps => .opening kind :: read ps
  | closing kind :: ps => .closing kind :: read ps
  | unit lead :: unit trail :: ps =>
    if isLead lead && isTrail trail then
      joinFront (.text (String.singleton (charOfPair lead trail))) (read ps)
    else joinFront (.text (String.singleton (charOf lead))) (read (unit trail :: ps))
  | unit code :: ps => joinFront (.text (String.singleton (charOf code))) (read ps)

end Place

def Text.places (cs : List Char) : List Place := (cs.flatMap codes).map .unit

def Token.places : Token → List Place
  | opening kind => [.opening kind]
  | closing kind => [.closing kind]
  | text content => Text.places content.toList

namespace Text

theorem toNat_valid (c : Char) : c.toNat < 0xD800 ∨ 0xDFFF < c.toNat ∧ c.toNat < 0x110000 :=
  c.valid

@[simp] theorem length_codes (c : Char) : (codes c).length = charUnits c := by
  unfold codes charUnits
  split <;> rfl

/-- A character of two units has a lead and a trail that make up the character. -/
theorem codes_of_pair {c : Char} (h : charUnits c = 2) :
    ∃ lead trail, codes c = [lead, trail] ∧ isLead lead = true ∧ isTrail trail = true ∧
      charOfPair lead trail = c := by
  have hbig : ¬ c.toNat < 0x10000 := by
    intro hlt
    simp [charUnits, hlt] at h
  have hvalid := toNat_valid c
  refine ⟨_, _, if_neg hbig, ?_, ?_, ?_⟩
  · simp only [isLead, Bool.and_eq_true, decide_eq_true_eq]
    omega
  · simp only [isTrail, Bool.and_eq_true, decide_eq_true_eq]
    omega
  · have hsum : 0x10000 + (0xD800 + (c.toNat - 0x10000) / 0x400 - 0xD800) * 0x400 +
        (0xDC00 + (c.toNat - 0x10000) % 0x400 - 0xDC00) = c.toNat := by omega
    rw [charOfPair, hsum, Char.ofNat_toNat]

/-- A character of one unit is no half of a pair. -/
theorem codes_of_single {c : Char} (h : charUnits c = 1) :
    ∃ code, codes c = [code] ∧ isLead code = false ∧ charOf code = c := by
  have hsmall : c.toNat < 0x10000 := by
    refine Classical.byContradiction fun hbig => ?_
    simp [charUnits, hbig] at h
  have hvalid := toNat_valid c
  have hlead : isLead c.toNat = false := by
    simp only [isLead, Bool.and_eq_false_iff, decide_eq_false_iff_not]
    omega
  have htrail : isTrail c.toNat = false := by
    simp only [isTrail, Bool.and_eq_false_iff, decide_eq_false_iff_not]
    omega
  refine ⟨_, if_pos hsmall, hlead, ?_⟩
  simp [charOf, hlead, htrail, Char.ofNat_toNat]

theorem isLead_of_isTrail {code : Nat} (h : isTrail code = true) : isLead code = false := by
  simp only [isTrail, Bool.and_eq_true, decide_eq_true_eq] at h
  simp only [isLead, Bool.and_eq_false_iff, decide_eq_false_iff_not]
  omega

theorem charOf_of_lead {code : Nat} (h : isLead code = true) : charOf code = halfPair := by
  simp [charOf, h]

theorem charOf_of_trail {code : Nat} (h : isTrail code = true) : charOf code = halfPair := by
  simp [charOf, h]

@[simp] theorem places_nil : places [] = [] := rfl

theorem places_cons (c : Char) (cs : List Char) :
    places (c :: cs) = (codes c).map .unit ++ places cs := by
  simp [places]

@[simp] theorem places_append (a b : List Char) : places (a ++ b) = places a ++ places b := by
  simp [places]

@[simp] theorem length_places (cs : List Char) : (places cs).length = unitsOf cs := by
  induction cs with
  | nil => rfl
  | cons c cs ih => rw [places_cons, List.length_append, List.length_map, length_codes, ih]; rfl

end Text

namespace Place

open Text

/-! ## Reading -/

theorem read_unit {code : Nat} (h : isLead code = false) (ps : List Place) :
    read (unit code :: ps) = joinFront (.text (String.singleton (charOf code))) (read ps) := by
  cases ps with
  | nil => rfl
  | cons p ps => cases p <;> simp [read, h]

theorem read_pair {lead trail : Nat} (hl : isLead lead = true) (ht : isTrail trail = true)
    (ps : List Place) : read (unit lead :: unit trail :: ps) =
      joinFront (.text (String.singleton (charOfPair lead trail))) (read ps) := by
  simp [read, hl, ht]

theorem normal_read (ps : List Place) : Normal (read ps) := by
  fun_induction read ps with
  | case1 => trivial
  | case2 kind ps ih => exact ih
  | case3 kind ps ih => exact ih
  | case4 lead trail ps _ ih => exact joinFront_normal _ _ ih
  | case5 lead trail ps _ ih => exact joinFront_normal _ _ ih
  | case6 code ps _ ih => exact joinFront_normal _ _ ih

theorem read_codes (c : Char) (ps : List Place) :
    read ((codes c).map unit ++ ps) = joinFront (.text (String.singleton c)) (read ps) := by
  by_cases h : charUnits c = 1
  · obtain ⟨code, hc, hl, hchar⟩ := codes_of_single h
    rw [hc, ← hchar]
    exact read_unit hl ps
  · have hpos := charUnits_pos c
    have hle := charUnits_le_two c
    obtain ⟨lead, trail, hc, hl, ht, hchar⟩ := codes_of_pair (c := c) (by omega)
    rw [hc, ← hchar]
    exact read_pair hl ht ps

theorem joinFront_ofList_cons (c : Char) (cs : List Char) {ts : List Token} (h : Normal ts) :
    joinFront (.text (String.ofList (c :: cs))) ts =
      joinFront (.text (String.singleton c)) (joinFront (.text (String.ofList cs)) ts) := by
  rw [← joinFront_text_append _ _ _ h, String.singleton_eq_ofList, ← String.ofList_append]
  rfl

/-- A text is read whole, and joined with the text behind it. -/
theorem read_text (cs : List Char) (ps : List Place) :
    read (Text.places cs ++ ps) = joinFront (.text (String.ofList cs)) (read ps) := by
  induction cs with
  | nil => exact (joinFront_empty _).symm
  | cons c cs ih =>
    rw [places_cons, List.append_assoc, read_codes, ih, joinFront_ofList_cons _ _ (normal_read ps)]

theorem read_token (t : Token) (ps : List Place) :
    read (t.places ++ ps) = joinFront t (read ps) := by
  cases t with
  | opening kind => rfl
  | closing kind => rfl
  | text s => rw [Token.places, read_text, String.ofList_toList]

end Place

namespace Text

/-! ## Cuts in a text -/

theorem read_take (n : Nat) (cs : List Char) :
    Place.read ((places cs).take n) = joinFront (.text (String.ofList (cutChars n cs).1)) [] := by
  induction cs generalizing n with
  | nil => simp [cutChars, joinFront_empty, Place.read]
  | cons c cs ih =>
    cases n with
    | zero => simp [cutChars, joinFront_empty, Place.read]
    | succ n =>
      by_cases h : charUnits c ≤ n + 1
      · simp only [cutChars, h, ↓reduceIte, places_cons]
        rw [take_behind (by simpa using h), List.length_map, length_codes, Place.read_codes, ih,
          Place.joinFront_ofList_cons _ _ normal_nil]
      · -- the cut comes between the two units of a pair
        have hle := charUnits_le_two c
        obtain ⟨lead, trail, hc, hl, -, -⟩ := codes_of_pair (c := c) (by omega)
        obtain rfl : n = 0 := by omega
        simp only [cutChars, h, ↓reduceIte, places_cons, hc, List.map_cons, List.cons_append,
          Nat.zero_add, List.take_succ_cons, List.take_zero]
        rw [Place.read, Place.read, charOf_of_lead hl, String.singleton_eq_ofList]
        exact fun _ _ he => by cases he

theorem read_drop (n : Nat) (cs : List Char) (ps : List Place) :
    Place.read ((places cs).drop n ++ ps) =
      joinFront (.text (String.ofList (cutChars n cs).2)) (Place.read ps) := by
  induction cs generalizing n with
  | nil => simp [cutChars, joinFront_empty]
  | cons c cs ih =>
    cases n with
    | zero => simp [cutChars, Place.read_text]
    | succ n =>
      by_cases h : charUnits c ≤ n + 1
      · simp only [cutChars, h, ↓reduceIte, places_cons]
        rw [drop_behind (by simpa using h), List.length_map, length_codes, ih]
      · have hle := charUnits_le_two c
        obtain ⟨lead, trail, hc, -, ht, -⟩ := codes_of_pair (c := c) (by omega)
        obtain rfl : n = 0 := by omega
        simp only [cutChars, h, ↓reduceIte, places_cons, hc, List.map_cons, List.cons_append,
          Nat.zero_add, List.drop_succ_cons, List.drop_zero]
        rw [List.map_nil, List.nil_append, Place.read_unit (isLead_of_isTrail ht),
          charOf_of_trail ht, Place.read_text,
          Place.joinFront_ofList_cons _ _ (Place.normal_read ps)]

/-- A cut changes no more than the first unit behind it. -/
theorem places_cutChars_drop (n k : Nat) (cs : List Char) :
    (places (cutChars n cs).2).drop (k + 1) = (places cs).drop (n + (k + 1)) := by
  induction cs generalizing n with
  | nil => simp [cutChars]
  | cons c cs ih =>
    cases n with
    | zero => simp [cutChars]
    | succ n =>
      by_cases h : charUnits c ≤ n + 1
      · have hfront : ((codes c).map Place.unit).length ≤ n + 1 + (k + 1) := by
          rw [List.length_map, length_codes]
          omega
        have hrest : n + 1 - charUnits c + (k + 1) = n + 1 + (k + 1) - charUnits c := by omega
        simp only [cutChars, h, ↓reduceIte, ih, places_cons]
        rw [drop_behind hfront, List.length_map, length_codes, hrest]
      · have hle := charUnits_le_two c
        obtain ⟨lead, trail, hc, -, -, -⟩ := codes_of_pair (c := c) (by omega)
        obtain ⟨code, hhalf, -, -⟩ := codes_of_single charUnits_halfPair
        obtain rfl : n = 0 := by omega
        simp [cutChars, h, places_cons, hc, hhalf, Nat.add_comm 1]

end Text

namespace Token

/-- The places of tokens side by side. -/
def placesAmong (ts : List Token) : List Place := ts.flatMap places

@[simp] theorem placesAmong_nil : placesAmong [] = [] := rfl

theorem placesAmong_cons (t : Token) (ts : List Token) :
    placesAmong (t :: ts) = t.places ++ placesAmong ts := rfl

@[simp] theorem length_places (t : Token) : t.places.length = t.width := by
  cases t with
  | opening kind => rfl
  | closing kind => rfl
  | text s => exact Text.length_places s.toList

@[simp] theorem length_placesAmong (ts : List Token) :
    (placesAmong ts).length = listWidth ts := by
  induction ts with
  | nil => rfl
  | cons t ts ih => rw [placesAmong_cons, List.length_append, length_places, ih, listWidth_cons]

theorem read_placesAmong (ts : List Token) : Place.read (placesAmong ts) = normalize ts := by
  induction ts with
  | nil => rfl
  | cons t ts ih => rw [placesAmong_cons, Place.read_token, ih, normalize_cons]

theorem places_joinFront (t : Token) (ts : List Token) :
    placesAmong (joinFront t ts) = t.places ++ placesAmong ts := by
  cases t with
  | opening kind => rfl
  | closing kind => rfl
  | text s =>
    cases ts with
    | nil =>
      simp only [joinFront]
      split
      · rename_i hs
        simp [hs, places]
      · rfl
    | cons u us =>
      cases u with
      | text r => simp [joinFront, placesAmong_cons, places]
      | _ =>
        simp only [joinFront]
        split
        · rename_i hs
          simp [hs, places]
        · rfl

/-- Joining texts leaves every place as it is. -/
theorem places_normalize (ts : List Token) : placesAmong (normalize ts) = placesAmong ts := by
  induction ts with
  | nil => rfl
  | cons t ts ih => rw [normalize_cons, places_joinFront, ih, placesAmong_cons]

/-! ## Cuts in a row of tokens -/

theorem read_take (n : Nat) (ts : List Token) :
    Place.read ((placesAmong ts).take n) = normalize (cutTokens n ts).1 := by
  induction ts generalizing n with
  | nil => simp [cutTokens, Place.read]
  | cons t ts ih =>
    cases n with
    | zero => simp [cutTokens, Place.read]
    | succ n =>
      rw [placesAmong_cons]
      cases t with
      | opening kind => simp [cutTokens, places, Place.read, ih, joinFront]
      | closing kind => simp [cutTokens, places, Place.read, ih, joinFront]
      | text s =>
        have hlen : (places (.text s)).length = Text.units s := length_places (.text s)
        by_cases hs : Text.units s ≤ n + 1
        · simp only [cutTokens, hs, ↓reduceIte, normalize_cons]
          rw [take_behind (by omega), hlen, Place.read_token, ih]
        · simp only [cutTokens, hs, ↓reduceIte, normalize_cons, normalize_nil]
          rw [List.take_append_of_le_length (by omega)]
          exact Text.read_take (n + 1) s.toList

theorem read_drop (n : Nat) (ts : List Token) :
    Place.read ((placesAmong ts).drop n) = normalize (cutTokens n ts).2 := by
  induction ts generalizing n with
  | nil => simp [cutTokens, Place.read]
  | cons t ts ih =>
    cases n with
    | zero => exact read_placesAmong (t :: ts)
    | succ n =>
      rw [placesAmong_cons]
      cases t with
      | opening kind => simp [cutTokens, places, ih]
      | closing kind => simp [cutTokens, places, ih]
      | text s =>
        have hlen : (places (.text s)).length = Text.units s := length_places (.text s)
        by_cases hs : Text.units s ≤ n + 1
        · simp only [cutTokens, hs, ↓reduceIte]
          rw [drop_behind (by omega), hlen, ih]
        · simp only [cutTokens, hs, ↓reduceIte, normalize_cons]
          rw [List.drop_append_of_le_length (by omega), ← read_placesAmong]
          exact Text.read_drop (n + 1) s.toList (placesAmong ts)

theorem places_cutTokens_drop (n k : Nat) (ts : List Token) :
    (placesAmong (cutTokens n ts).2).drop (k + 1) = (placesAmong ts).drop (n + (k + 1)) := by
  induction ts generalizing n with
  | nil => simp [cutTokens]
  | cons t ts ih =>
    cases n with
    | zero => simp [cutTokens]
    | succ n =>
      have hsucc : n + 1 + (k + 1) = n + (k + 1) + 1 := by omega
      cases t with
      | opening kind => simp only [cutTokens, ih, placesAmong_cons, places, hsucc]; rfl
      | closing kind => simp only [cutTokens, ih, placesAmong_cons, places, hsucc]; rfl
      | text s =>
        have hlen : (places (.text s)).length = Text.units s := length_places (.text s)
        by_cases hs : Text.units s ≤ n + 1
        · have hfront : (places (.text s)).length ≤ n + 1 + (k + 1) := by omega
          have hrest : n + 1 - Text.units s + (k + 1) = n + 1 + (k + 1) - Text.units s := by omega
          simp only [cutTokens, hs, ↓reduceIte, ih, placesAmong_cons]
          rw [drop_behind hfront, hlen, hrest]
        · have htail := (Text.units_cut (n + 1) s (by omega)).2
          have hcut : (places (.text (Text.cut (n + 1) s).2)).drop (k + 1) =
              (places (.text s)).drop (n + 1 + (k + 1)) := by
            simpa [places, Text.cut] using Text.places_cutChars_drop (n + 1) k s.toList
          have hrest : k + 1 - (Text.units s - (n + 1)) = n + 1 + (k + 1) - Text.units s := by
            omega
          simp only [cutTokens, hs, ↓reduceIte, placesAmong_cons]
          rw [List.drop_append, hcut, length_places, width, htail, hrest, ← hlen]
          exact List.drop_append.symm

end Token

namespace Fragment

/-- What the fragment holds at each of its positions. -/
def places (f : Fragment) : List Place := Token.placesAmong f.tokens

/-- What places read as; half of a pair reads as the replacement character. -/
def ofPlaces (ps : List Place) : Fragment := ⟨Place.read ps, Place.normal_read ps⟩

@[simp] theorem length_places (f : Fragment) : f.places.length = f.size :=
  Token.length_placesAmong f.tokens

/-- **A fragment is told by its places.** -/
@[simp] theorem ofPlaces_places (f : Fragment) : ofPlaces f.places = f :=
  ext ((Token.read_placesAmong f.tokens).trans (normalize_eq_self _ f.normal))

theorem places_ofTokens (ts : List Token) : (ofTokens ts).places = Token.placesAmong ts :=
  Token.places_normalize ts

theorem places_append (f g : Fragment) : (f ++ g).places = f.places ++ g.places := by
  rw [append_def, places_ofTokens]
  exact List.flatMap_append

/-- **A cut at a position** puts the places before it on one side, the others on the other. -/
theorem cutAt_eq_ok_iff (f before after : Fragment) (position : Nat) :
    f.cutAt position = .ok (before, after) ↔ position ≤ f.size ∧
      before = ofPlaces (f.places.take position) ∧
      after = ofPlaces (f.places.drop position) := by
  have hb : ofTokens (cutTokens position f.tokens).1 = ofPlaces (f.places.take position) :=
    ext (Token.read_take position f.tokens).symm
  have ha : ofTokens (cutTokens position f.tokens).2 = ofPlaces (f.places.drop position) :=
    ext (Token.read_drop position f.tokens).symm
  unfold cutAt
  split
  · rename_i hlt
    simp [Nat.not_le_of_lt hlt]
  · rename_i hle
    simp only [Except.ok.injEq, Prod.mk.injEq, hb, ha]
    simp [Nat.le_of_not_lt hle, eq_comm]

/-- A second cut behind the first is a cut of the whole, also when the first cut a pair. -/
theorem ofPlaces_drop_ofPlaces (f : Fragment) (n k : Nat) :
    ofPlaces ((ofPlaces (f.places.drop n)).places.drop k) = ofPlaces (f.places.drop (n + k)) := by
  cases k with
  | zero => rw [List.drop_zero, ofPlaces_places, Nat.add_zero]
  | succ k =>
    have hrest : (ofPlaces (f.places.drop n)).places =
        Token.placesAmong (cutTokens n f.tokens).2 := by
      rw [← Token.places_normalize, ← Token.read_drop]
      rfl
    rw [hrest, Token.places_cutTokens_drop]
    rfl

theorem size_ofPlaces_take (f : Fragment) {n : Nat} (h : n ≤ f.size) :
    (ofPlaces (f.places.take n)).size = n :=
  (cutAt_size ((f.cutAt_eq_ok_iff _ _ n).mpr ⟨h, rfl, rfl⟩)).1

theorem size_ofPlaces_drop (f : Fragment) {n : Nat} (h : n ≤ f.size) :
    (ofPlaces (f.places.drop n)).size = f.size - n :=
  (cutAt_size ((f.cutAt_eq_ok_iff _ _ n).mpr ⟨h, rfl, rfl⟩)).2

end Fragment
end TreePatch
