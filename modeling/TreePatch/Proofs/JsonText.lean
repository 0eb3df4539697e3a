import TreePatch.Json.Printer
import TreePatch.Json.Reader

/-! Text that was printed reads back. A value that repeats no field name, and whose numbers are
written as numbers are, is the only value its text can stand for (`parse?_render`). -/

namespace TreePatch.Json

/-! ## Strings -/

theorem hexFour?_hexFour {n : Nat} (h : n < 0x20) :
    hexFour? (Nat.digitChar (n / 4096 % 16)) (Nat.digitChar (n / 256 % 16))
      (Nat.digitChar (n / 16 % 16)) (Nat.digitChar (n % 16)) = some n := by
  revert n
  decide

/-- A character that is not escaped is read as it stands. -/
theorem readUnits_plain {c : Char} (hq : c ≠ '"') (hb : c ≠ '\\') (hc : ¬ c.toNat < 0x20)
    (cs : List Char) :
    readUnits (c :: cs) = (readUnits cs).map fun found => (c.toNat :: found.1, found.2) := by
  rw [readUnits.eq_5 _ _ (by simpa using hq) (by simp [hb]) (by simp [hb]), if_neg hc]
  cases readUnits cs <;> rfl

theorem readUnits_short {c escaped : Char} (h : shortEscape? c = some escaped) (cs : List Char) :
    readUnits ('\\' :: c :: cs) =
      (readUnits cs).map fun found => (escaped.toNat :: found.1, found.2) := by
  have hu : c ≠ 'u' := by
    rintro rfl
    cases h
  rw [readUnits.eq_4 _ _ (by simp [hu]), h]
  cases readUnits cs <;> rfl

/-- An escaped character is read as the character. -/
theorem readUnits_escapeChar (c : Char) (cs : List Char) :
    readUnits (escapeChar c ++ cs) =
      (readUnits cs).map fun found => (c.toNat :: found.1, found.2) := by
  unfold escapeChar
  split
  case h_8 hq hb _ _ _ _ _ =>
    split
    · rename_i hc
      simp only [hexFour, List.cons_append, List.nil_append, readUnits, hexFour?_hexFour hc]
      cases readUnits cs <;> rfl
    · rename_i hc
      exact readUnits_plain hq hb hc cs
  all_goals exact readUnits_short rfl cs

theorem readUnits_escaped (cs rest : List Char) :
    readUnits (cs.flatMap escapeChar ++ '"' :: rest) = some (cs.map Char.toNat, rest) := by
  induction cs with
  | nil => rfl
  | cons c cs ih =>
    rw [List.flatMap_cons, List.append_assoc, readUnits_escapeChar, ih]
    rfl

/-- No character has the number of half a pair. -/
theorem toNat_not_half (c : Char) : ¬ (0xd800 ≤ c.toNat ∧ c.toNat < 0xe000) := by
  have hvalid : c.toNat < 0xd800 ∨ 0xdfff < c.toNat ∧ c.toNat < 0x110000 := c.valid
  omega

theorem joinPairs_toNat (cs : List Char) : joinPairs (cs.map Char.toNat) = some cs := by
  induction cs with
  | nil => rfl
  | cons c cs ih =>
    have hc := toNat_not_half c
    cases cs with
    | nil =>
      rw [List.map_cons, List.map_nil, joinPairs, if_neg hc, Char.ofNat_toNat]
    | cons d cs =>
      simp only [List.map_cons] at ih ⊢
      rw [joinPairs, if_neg (by omega), if_neg (by omega), ih, Char.ofNat_toNat]
      rfl

theorem readString_escaped (s : String) (rest : List Char) :
    readString (s.toList.flatMap escapeChar ++ '"' :: rest) = some (s, rest) := by
  simp [readString, readUnits_escaped, joinPairs_toNat]

/-! ## Numbers -/

theorem isWhole_toDigits (n : Nat) : isWhole (Nat.toDigits 10 n) = true := by
  have hdigits : ∀ m, (Nat.toDigits 10 m).all Char.isDigit = true := fun m =>
    List.all_eq_true.mpr fun c hc => Nat.isDigit_of_mem_toDigits (by decide) (by decide) hc
  -- only zero has a zero in front, by induction on the number without its last digit
  suffices hzero : ∀ cs, Nat.toDigits 10 n = '0' :: cs → cs = [] by
    have hall := hdigits n
    unfold isWhole
    split
    · rename_i h
      exact absurd h Nat.toDigits_ne_nil
    · rename_i cs h
      rw [hzero cs h]
      rfl
    · exact hall
  induction n using Nat.strongRecOn with
  | ind n ih =>
    intro cs h
    by_cases hn : n < 10
    · rw [Nat.toDigits_of_lt_base hn] at h
      exact (List.cons.inj h).2.symm
    · rw [Nat.toDigits_of_base_le (by decide) (by omega)] at h
      obtain ⟨d, ds, hd⟩ := List.exists_cons_of_ne_nil (Nat.toDigits_ne_nil (n := n / 10) (b := 10))
      rw [hd, List.cons_append] at h
      obtain ⟨rfl, -⟩ := List.cons.inj h
      have hds := ih (n / 10) (by omega) ds hd
      have hval := Nat.ofDigitChars_ten_toDigits (n := n / 10)
      rw [hd, hds] at hval
      have hzero : n / 10 = 0 := hval.symm
      omega

theorem numberOf?_toDigits (n : Nat) : numberOf? (Nat.toDigits 10 n) = some (.nat n) := by
  have hval : digitsValue (Nat.toDigits 10 n) = n := Nat.ofDigitChars_ten_toDigits
  rw [numberOf?, if_pos (isWhole_toDigits n), hval]

theorem isNumberChar_of_mem_toDigits {n : Nat} {c : Char} (h : c ∈ Nat.toDigits 10 n) :
    isNumberChar c = true := by
  have hc : c.isDigit = true := Nat.isDigit_of_mem_toDigits (by decide) (by decide) h
  simp [isNumberChar, hc]

/-- The rest of a text cannot lengthen a number in front of it. -/
def Parted (rest : List Char) : Prop := ∀ c ∈ rest.head?, isNumberChar c = false

theorem span_number {cs rest : List Char} (h : ∀ c ∈ cs, isNumberChar c = true)
    (hrest : Parted rest) :
    (cs ++ rest).takeWhile isNumberChar = cs ∧ (cs ++ rest).dropWhile isNumberChar = rest := by
  rw [List.takeWhile_append_of_pos h, List.dropWhile_append_of_pos h]
  cases rest with
  | nil => simp
  | cons c rest => simp [hrest c rfl]

/-- A value that starts like a number is read as a number. -/
theorem readValue_number {c : Char} (hc : isNumberChar c = true) (bound : Nat) (cs : List Char) :
    readValue (bound + 1) (c :: cs) =
      (numberOf? ((c :: cs).takeWhile isNumberChar)).map fun value =>
        (value, (c :: cs).dropWhile isNumberChar) := by
  have hblank : skipBlanks (c :: cs) = c :: cs := by
    rw [skipBlanks, if_neg]
    rintro (rfl | rfl | rfl | rfl) <;> exact absurd hc (by decide)
  rw [readValue, hblank]
  split
  case h_7 =>
    cases numberOf? ((c :: cs).takeWhile isNumberChar) <;> rfl
  all_goals
    rename_i h
    obtain ⟨rfl, -⟩ := List.cons.inj h
    exact absurd hc (by decide)

/-- A number is read up to its end. -/
theorem readValue_number_append {cs rest : List Char} {value : Json} (hne : cs ≠ [])
    (hcs : ∀ c ∈ cs, isNumberChar c = true) (hv : numberOf? cs = some value) (hrest : Parted rest)
    {bound : Nat} : readValue (bound + 1) (cs ++ rest) = some (value, rest) := by
  obtain ⟨htake, hdrop⟩ := span_number hcs hrest
  obtain ⟨c, cs, rfl⟩ := List.exists_cons_of_ne_nil hne
  rw [List.cons_append] at htake hdrop ⊢
  rw [readValue_number (hcs c List.mem_cons_self), htake, hdrop, hv]
  rfl

/-! ## Values -/

mutual

/-- Numbers are written as numbers are, and no object has two fields of one name. -/
def Proper : Json → Prop
  | .number text => numberOf? text.toList = some (.number text) ∧
      ∀ c ∈ text.toList, isNumberChar c = true
  | .arr items => ProperItems items
  | .obj fields => (fields.map Prod.fst).Nodup ∧ ProperFields fields
  | _ => True

def ProperItems : List Json → Prop
  | [] => True
  | j :: js => Proper j ∧ ProperItems js

def ProperFields : List (String × Json) → Prop
  | [] => True
  | (_, j) :: fields => Proper j ∧ ProperFields fields

end

theorem properItems_iff (js : List Json) : ProperItems js ↔ ∀ j ∈ js, j.Proper := by
  induction js with
  | nil => simp [ProperItems]
  | cons j js ih => rw [ProperItems, ih, List.forall_mem_cons]

theorem text_ne_nil {text : String} (h : (number text).Proper) : text.toList ≠ [] := by
  intro hnil
  have hreads := h.1
  rw [hnil] at hreads
  cases hreads

/-- A printed value starts neither with a blank nor with the end of an array. -/
theorem chars_first {j : Json} (h : j.Proper) : ∃ c cs, j.chars = c :: cs ∧ c ≠ ']' ∧
    ∀ rest, skipBlanks (c :: cs ++ rest) = c :: cs ++ rest := by
  have number {cs : List Char} (hne : cs ≠ []) (hcs : ∀ c ∈ cs, isNumberChar c = true) :
      ∃ c cs', cs = c :: cs' ∧ c ≠ ']' ∧
        ∀ rest, skipBlanks (c :: cs' ++ rest) = c :: cs' ++ rest := by
    obtain ⟨c, cs', rfl⟩ := List.exists_cons_of_ne_nil hne
    have hc := hcs c List.mem_cons_self
    refine ⟨c, cs', rfl, ?_, fun rest => ?_⟩
    · rintro rfl
      exact absurd hc (by decide)
    · rw [List.cons_append, skipBlanks, if_neg]
      rintro (rfl | rfl | rfl | rfl) <;> exact absurd hc (by decide)
  cases j with
  | nat n => exact number Nat.toDigits_ne_nil fun c hc => isNumberChar_of_mem_toDigits hc
  | number text => exact number (text_ne_nil h) h.2
  | null => exact ⟨_, _, rfl, by decide, fun rest => rfl⟩
  | bool value => cases value <;> exact ⟨_, _, rfl, by decide, fun rest => rfl⟩
  | str s => exact ⟨_, _, rfl, by decide, fun rest => rfl⟩
  | arr items => cases items <;> exact ⟨_, _, rfl, by decide, fun rest => rfl⟩
  | obj fields => rcases fields with - | ⟨⟨name, j⟩, fields⟩ <;>
      exact ⟨_, _, rfl, by decide, fun rest => rfl⟩

theorem parted_itemChars (js : List Json) (rest : List Char) : Parted (itemChars js ++ rest) := by
  cases js <;> simp [itemChars, Parted, isNumberChar]

theorem parted_fieldChars (fields : List (String × Json)) (rest : List Char) :
    Parted (fieldChars fields ++ rest) := by
  rcases fields with - | ⟨⟨name, j⟩, fields⟩ <;>
    simp [fieldChars, Parted, isNumberChar]

/-- A field of a new name is put in front. -/
theorem addField_of_not_mem {name : String} {value : Json} {fields : List (String × Json)}
    (h : name ∉ fields.map Prod.fst) : addField name value fields = (name, value) :: fields := by
  have hnone : fields.lookup name = none := by
    rw [List.lookup_eq_none_iff]
    intro field hfield
    rw [bne_iff_ne]
    rintro rfl
    exact h (List.mem_map_of_mem hfield)
  rw [addField, hnone]
  rfl

/-! ## Rules of the reader -/

section Rules

variable {bound : Nat} {cs rest : List Char} {j : Json} {js : List Json} {name : String}
  {fields : List (String × Json)}

theorem readValue_string (s : String) (rest : List Char) :
    readValue (bound + 1) (stringChars s ++ rest) = some (.str s, rest) := by
  simp only [stringChars, List.cons_append, List.append_assoc, List.nil_append]
  rw [readValue, skipBlanks, if_neg (by decide)]
  simp only [readString_escaped]
  rfl

theorem readValue_array {c : Char} (hend : c ≠ ']') (hblank : skipBlanks (c :: cs) = c :: cs)
    (h : readItems bound (c :: cs) = some (js, rest)) :
    readValue (bound + 1) ('[' :: c :: cs) = some (.arr js, rest) := by
  rw [readValue, skipBlanks, if_neg (by decide)]
  simp only [hblank]
  split
  · rename_i he
    exact absurd (List.cons.inj he).1 hend
  · rw [h]
    rfl

theorem readValue_object (h : readFields bound ('"' :: cs) = some (fields, rest)) :
    readValue (bound + 1) ('\x7b' :: '"' :: cs) = some (.obj fields, rest) := by
  show (readFields bound ('"' :: cs)).bind _ = _
  rw [h]
  rfl

theorem readItems_next {rest' : List Char} (hv : readValue bound cs = some (j, ',' :: rest))
    (hi : readItems bound rest = some (js, rest')) :
    readItems (bound + 1) cs = some (j :: js, rest') := by
  rw [readItems, hv]
  show (readItems bound rest).bind _ = _
  rw [hi]
  rfl

theorem readItems_last (hv : readValue bound cs = some (j, ']' :: rest)) :
    readItems (bound + 1) cs = some ([j], rest) := by
  rw [readItems, hv]
  rfl

theorem readFields_next {rest' : List Char} (hv : readValue bound cs = some (j, ',' :: rest))
    (hf : readFields bound rest = some (fields, rest')) :
    readFields (bound + 1) (stringChars name ++ ':' :: cs) =
      some (addField name j fields, rest') := by
  simp only [stringChars, List.cons_append, List.append_assoc, List.nil_append]
  rw [readFields, skipBlanks, if_neg (by decide)]
  simp only [readString_escaped]
  show (readValue bound cs).bind _ = _
  rw [hv]
  show (readFields bound rest).bind _ = _
  rw [hf]
  rfl

theorem readFields_last (hv : readValue bound cs = some (j, '\x7d' :: rest)) :
    readFields (bound + 1) (stringChars name ++ ':' :: cs) = some ([(name, j)], rest) := by
  simp only [stringChars, List.cons_append, List.append_assoc, List.nil_append]
  rw [readFields, skipBlanks, if_neg (by decide)]
  simp only [readString_escaped]
  show (readValue bound cs).bind _ = _
  rw [hv]
  rfl

end Rules

/-- With this bound, whatever is not longer is read up to its end. -/
structure ReadsBack (bound : Nat) : Prop where
  value {j : Json} {rest : List Char} : j.Proper → j.chars.length ≤ bound → Parted rest →
    readValue bound (j.chars ++ rest) = some (j, rest)
  items {j : Json} {js : List Json} (rest : List Char) : j.Proper → ProperItems js →
    j.chars.length + (itemChars js).length ≤ bound →
    readItems bound (j.chars ++ (itemChars js ++ rest)) = some (j :: js, rest)
  fields {name : String} {j : Json} {fields : List (String × Json)} (rest : List Char) :
    j.Proper → ProperFields fields → (name :: fields.map Prod.fst).Nodup →
    j.chars.length + (fieldChars fields).length ≤ bound →
    readFields bound (stringChars name ++ ':' :: (j.chars ++ (fieldChars fields ++ rest))) =
      some ((name, j) :: fields, rest)

namespace ReadsBack

variable {bound : Nat} {rest : List Char} {j : Json} {js : List Json} {name : String}
  {fields : List (String × Json)}

theorem value_succ (ih : ReadsBack bound) (h : j.Proper) (hb : j.chars.length ≤ bound + 1)
    (hrest : Parted rest) : readValue (bound + 1) (j.chars ++ rest) = some (j, rest) := by
  cases j with
  | null => rfl
  | bool value => cases value <;> rfl
  | nat n =>
    refine readValue_number_append Nat.toDigits_ne_nil (fun c hc => ?_) (numberOf?_toDigits n) hrest
    exact isNumberChar_of_mem_toDigits hc
  | number text => exact readValue_number_append (text_ne_nil h) h.2 h.1 hrest
  | str s => exact readValue_string s rest
  | arr items =>
    cases items with
    | nil => rfl
    | cons j js =>
      obtain ⟨c, cs, hfirst, hend, hblank⟩ := chars_first h.1
      simp only [chars, List.cons_append, List.length_cons, List.length_append] at hb
      have hread := ih.items rest h.1 h.2 (by omega)
      simp only [chars, List.cons_append, List.append_assoc, hfirst] at hread ⊢
      exact readValue_array hend (hblank _) hread
  | obj fields =>
    rcases fields with - | ⟨⟨name, j⟩, fields⟩
    · rfl
    · obtain ⟨hnodup, hj, hfields⟩ := h
      simp only [chars, stringChars, List.cons_append, List.length_cons, List.length_append] at hb
      have hread := ih.fields rest hj hfields hnodup (by omega)
      simp only [chars, stringChars, List.cons_append, List.append_assoc] at hread ⊢
      exact readValue_object hread

theorem items_succ (ih : ReadsBack bound) (rest : List Char) (h : j.Proper) (hs : ProperItems js)
    (hb : j.chars.length + (itemChars js).length ≤ bound + 1) :
    readItems (bound + 1) (j.chars ++ (itemChars js ++ rest)) = some (j :: js, rest) := by
  have hlater : 0 < (itemChars js).length := by cases js <;> simp [itemChars]
  have hread := ih.value h (by omega) (parted_itemChars js rest)
  cases js with
  | nil => exact readItems_last hread
  | cons i js =>
    simp only [itemChars, List.cons_append, List.append_assoc, List.length_cons,
      List.length_append] at hb hread ⊢
    exact readItems_next hread (ih.items rest hs.1 hs.2 (by omega))

theorem fields_succ (ih : ReadsBack bound) (rest : List Char) (h : j.Proper)
    (hs : ProperFields fields) (hn : (name :: fields.map Prod.fst).Nodup)
    (hb : j.chars.length + (fieldChars fields).length ≤ bound + 1) :
    readFields (bound + 1) (stringChars name ++ ':' :: (j.chars ++ (fieldChars fields ++ rest))) =
      some ((name, j) :: fields, rest) := by
  have hlater : 0 < (fieldChars fields).length := by
    rcases fields with - | ⟨⟨later, i⟩, fields⟩ <;> simp [fieldChars]
  have hread := ih.value h (by omega) (parted_fieldChars fields rest)
  rcases fields with - | ⟨⟨later, i⟩, fields⟩
  · exact readFields_last hread
  · obtain ⟨hnew, hnodup⟩ := List.nodup_cons.mp hn
    rw [← addField_of_not_mem hnew]
    simp only [fieldChars, List.cons_append, List.append_assoc, List.length_cons,
      List.length_append] at hb hread ⊢
    exact readFields_next hread (ih.fields rest hs.1 hs.2 hnodup (by omega))

end ReadsBack

/-- Every call of the reader lowers the bound by one, and the text by at least one character. -/
theorem readsBack (bound : Nat) : ReadsBack bound := by
  induction bound with
  | zero =>
    have visible {j : Json} (h : j.Proper) : j.chars.length ≠ 0 := by
      obtain ⟨c, cs, hfirst, -⟩ := chars_first h
      simp [hfirst]
    exact ⟨fun h hb => absurd hb (by have := visible h; omega),
      fun _ h _ hb => absurd hb (by have := visible h; omega),
      fun _ h _ _ hb => absurd hb (by have := visible h; omega)⟩
  | succ bound ih => exact ⟨ih.value_succ, ih.items_succ, ih.fields_succ⟩

/-- **What is printed reads back.** -/
theorem parse?_render {j : Json} (h : j.Proper) : parse? j.render = some j := by
  have hend : Parted [] := by simp [Parted]
  have hread := (readsBack (j.chars.length + 1)).value h (Nat.le_succ _) hend
  rw [List.append_nil] at hread
  simp only [parse?, render, String.toList_ofList, hread]
  rfl

end TreePatch.Json
