import TreePatch.Proofs.Reading

/-! Lines of a text and where they stand, counted in bytes. The lines that an edit does not meet
stay in front of it and behind it; between them all lines may be others (`Edited.parted`). -/

namespace TreePatch

/-- Two extents have a place in common, their ends included. -/
def Extent.Meets (a b : Extent) : Prop := a.start ≤ b.stop ∧ b.start ≤ a.stop

instance (a b : Extent) : Decidable (a.Meets b) := inferInstanceAs (Decidable (_ ∧ _))

theorem Extent.length_le {e : Extent} {n : Nat} (h : e.stop < n) : e.length ≤ n := by
  unfold length
  omega

namespace Text

@[simp] theorem bytesOf_nil : bytesOf [] = 0 := rfl

@[simp] theorem bytesOf_append (a b : List Char) : bytesOf (a ++ b) = bytesOf a + bytesOf b := by
  induction a with
  | nil => simp
  | cons c a ih => rw [List.cons_append, bytesOf_cons, bytesOf_cons, ih, Nat.add_assoc]

theorem bytesOf_eq_zero {cs : List Char} : bytesOf cs = 0 ↔ cs = [] := by
  cases cs with
  | nil => simp
  | cons c cs =>
    have := c.utf8Size_pos
    simp [bytesOf_cons]
    omega

/-! ## Lines -/

theorem exists_lines (cs : List Char) : ∃ line rest, lines cs = line :: rest :=
  List.exists_cons_of_ne_nil (lines_ne_nil cs)

theorem lines_newline (cs : List Char) : lines ('\n' :: cs) = [] :: lines cs := by
  simp [lines]

theorem lines_cons {c : Char} (hc : c ≠ '\n') {cs line : List Char} {rest : List (List Char)}
    (h : lines cs = line :: rest) : lines (c :: cs) = (c :: line) :: rest := by
  simp [lines, hc, h]

/-- A line break parts a text into lines before it and lines behind it. -/
theorem lines_break (a b : List Char) : lines (a ++ '\n' :: b) = lines a ++ lines b := by
  induction a with
  | nil => exact lines_newline b
  | cons c a ih =>
    rw [List.cons_append]
    by_cases hc : c = '\n'
    · subst hc
      rw [lines_newline, lines_newline, ih, List.cons_append]
    · obtain ⟨line, rest, ha⟩ := exists_lines a
      rw [ha, List.cons_append] at ih
      rw [lines_cons hc ih, lines_cons hc ha, List.cons_append]

/-- Text without a break goes in front of the first line. -/
theorem lines_front {a : List Char} (ha : '\n' ∉ a) {b line : List Char}
    {rest : List (List Char)} (h : lines b = line :: rest) :
    lines (a ++ b) = (a ++ line) :: rest := by
  induction a with
  | nil => exact h
  | cons c a ih =>
    rw [List.mem_cons, not_or] at ha
    exact lines_cons (Ne.symm ha.1) (ih ha.2)

theorem lines_of_not_mem {a : List Char} (ha : '\n' ∉ a) : lines a = [a] := by
  have h := lines_front ha (show lines [] = [] :: [] from rfl)
  rwa [List.append_nil] at h

/-- Each line but the first comes behind a break. -/
theorem eq_of_lines {cs line : List Char} {rest : List (List Char)} (h : lines cs = line :: rest) :
    cs = line ++ rest.flatMap ('\n' :: ·) := by
  induction cs generalizing line rest with
  | nil =>
    obtain ⟨rfl, rfl⟩ := List.cons.inj (show [] :: [] = line :: rest from h)
    rfl
  | cons c cs ih =>
    obtain ⟨first, more, hlines⟩ := exists_lines cs
    by_cases hc : c = '\n'
    · rw [hc, lines_newline, hlines] at h
      obtain ⟨rfl, rfl⟩ := List.cons.inj h
      rw [hc, ih hlines, List.flatMap_cons]
      rfl
    · rw [lines_cons hc hlines] at h
      obtain ⟨rfl, rfl⟩ := List.cons.inj h
      rw [ih hlines]
      rfl

theorem not_mem_of_mem_lines {cs line : List Char} (h : line ∈ lines cs) : '\n' ∉ line := by
  induction cs generalizing line with
  | nil =>
    rw [List.mem_singleton.mp (show line ∈ [[]] from h)]
    exact List.not_mem_nil
  | cons c cs ih =>
    obtain ⟨first, more, hlines⟩ := exists_lines cs
    by_cases hc : c = '\n'
    · rw [hc, lines_newline, List.mem_cons] at h
      rcases h with rfl | h
      · exact List.not_mem_nil
      · exact ih h
    · rw [lines_cons hc hlines, List.mem_cons] at h
      rw [hlines] at ih
      rcases h with rfl | h
      · rw [List.mem_cons, not_or]
        exact ⟨Ne.symm hc, ih List.mem_cons_self⟩
      · exact ih (List.mem_cons_of_mem _ h)

/-! ## Where lines stand -/

/-- The bytes of lines, with a break behind each. -/
def bytesAmong (ls : List (List Char)) : Nat := ls.foldr (fun line n => bytesOf line + 1 + n) 0

/-- Where lines stand, the first of which starts at a byte. -/
def extentsFrom (start : Nat) : List (List Char) → List Extent
  | [] => []
  | line :: rest => ⟨start, start + bytesOf line⟩ :: extentsFrom (start + bytesOf line + 1) rest

def lineExtents (cs : List Char) : List Extent := extentsFrom 0 (lines cs)

@[simp] theorem bytesAmong_nil : bytesAmong [] = 0 := rfl

@[simp] theorem bytesAmong_cons (line : List Char) (rest : List (List Char)) :
    bytesAmong (line :: rest) = bytesOf line + 1 + bytesAmong rest := rfl

@[simp] theorem bytesAmong_append (a b : List (List Char)) :
    bytesAmong (a ++ b) = bytesAmong a + bytesAmong b := by
  induction a with
  | nil => simp
  | cons line a ih =>
    rw [List.cons_append, bytesAmong_cons, bytesAmong_cons, ih]
    omega

theorem bytesOf_newline (cs : List Char) : bytesOf ('\n' :: cs) = bytesOf cs + 1 := by
  rw [bytesOf_cons, show ('\n' : Char).utf8Size = 1 by decide, Nat.add_comm]

theorem bytesOf_flatMap_newline (ls : List (List Char)) :
    bytesOf (ls.flatMap ('\n' :: ·)) = bytesAmong ls := by
  induction ls with
  | nil => rfl
  | cons line ls ih => rw [List.flatMap_cons, bytesOf_append, bytesOf_newline, ih, bytesAmong_cons]

theorem bytesAmong_lines (cs : List Char) : bytesAmong (lines cs) = bytesOf cs + 1 := by
  obtain ⟨line, rest, h⟩ := exists_lines cs
  rw [h, eq_of_lines h, bytesAmong_cons, bytesOf_append, bytesOf_flatMap_newline]
  omega

theorem extentsFrom_append (start : Nat) (a b : List (List Char)) :
    extentsFrom start (a ++ b) = extentsFrom start a ++ extentsFrom (start + bytesAmong a) b := by
  induction a generalizing start with
  | nil => rfl
  | cons line a ih =>
    simp only [List.cons_append, extentsFrom, ih, bytesAmong_cons]
    congr 3
    omega

theorem length_extentsFrom (start : Nat) (ls : List (List Char)) :
    (extentsFrom start ls).length = ls.length := by
  induction ls generalizing start with
  | nil => rfl
  | cons line ls ih => rw [extentsFrom, List.length_cons, List.length_cons, ih]

theorem bounds_of_mem_extentsFrom {start : Nat} {ls : List (List Char)} {e : Extent}
    (h : e ∈ extentsFrom start ls) :
    start ≤ e.start ∧ e.start ≤ e.stop ∧ e.stop < start + bytesAmong ls := by
  induction ls generalizing start with
  | nil => cases h
  | cons line ls ih =>
    rw [bytesAmong_cons]
    rcases List.mem_cons.mp h with rfl | h
    · exact ⟨Nat.le_refl _, Nat.le_add_right _ _, by simp only; omega⟩
    · have := ih h
      omega

theorem mem_extentsFrom_iff {start : Nat} {ls : List (List Char)} {e : Extent} :
    e ∈ extentsFrom start ls ↔ ∃ front line back, ls = front ++ line :: back ∧
      e = ⟨start + bytesAmong front, start + bytesAmong front + bytesOf line⟩ := by
  constructor
  · intro h
    induction ls generalizing start with
    | nil => cases h
    | cons line ls ih =>
      rcases List.mem_cons.mp h with rfl | h
      · exact ⟨[], line, ls, rfl, rfl⟩
      · obtain ⟨front, found, back, rfl, rfl⟩ := ih h
        refine ⟨line :: front, found, back, rfl, ?_⟩
        simp only [bytesAmong_cons, Nat.add_assoc]
  · rintro ⟨front, line, back, rfl, rfl⟩
    rw [extentsFrom_append]
    exact List.mem_append_right _ List.mem_cons_self

/-- Each line ends before the next one starts. -/
theorem pairwise_extentsFrom (start : Nat) (ls : List (List Char)) :
    (extentsFrom start ls).Pairwise fun a b => a.stop < b.start := by
  induction ls generalizing start with
  | nil => exact .nil
  | cons line ls ih =>
    refine .cons (fun e he => ?_) (ih _)
    have := bounds_of_mem_extentsFrom he
    exact Nat.lt_of_lt_of_le (Nat.lt_succ_self _) this.1

/-- A line of a text and its extent: characters without a break, between breaks or ends. -/
inductive LineAt : List Char → Extent → List Char → Prop
  | mk (before line after : List Char) :
      (∀ c ∈ before.getLast?, c = '\n') → '\n' ∉ line → (∀ c ∈ after.head?, c = '\n') →
        LineAt (before ++ line ++ after) ⟨bytesOf before, bytesOf (before ++ line)⟩ line

theorem lineAt_of_lines {cs line : List Char} {front back : List (List Char)}
    (h : lines cs = front ++ line :: back) :
    LineAt cs ⟨bytesAmong front, bytesAmong front + bytesOf line⟩ line := by
  have hline : '\n' ∉ line := not_mem_of_mem_lines (h ▸ List.mem_append_right _ List.mem_cons_self)
  have hafter : ∀ c ∈ (back.flatMap ('\n' :: ·)).head?, c = '\n' := by
    cases back <;> simp [eq_comm]
  cases front with
  | nil =>
    have hat := LineAt.mk [] line (back.flatMap ('\n' :: ·)) (by simp) hline hafter
    rw [eq_of_lines h, bytesAmong_nil, Nat.zero_add]
    exact hat
  | cons first front =>
    rw [List.cons_append] at h
    have hat := LineAt.mk (first ++ front.flatMap ('\n' :: ·) ++ ['\n']) line
      (back.flatMap ('\n' :: ·)) (by simp [eq_comm]) hline hafter
    have hcs : cs = first ++ front.flatMap ('\n' :: ·) ++ ['\n'] ++ line ++
        back.flatMap ('\n' :: ·) := by
      rw [eq_of_lines h, List.flatMap_append, List.flatMap_cons]
      simp only [List.append_assoc, List.cons_append, List.nil_append]
    have hbytes : bytesOf (first ++ front.flatMap ('\n' :: ·) ++ ['\n']) =
        bytesAmong (first :: front) := by
      rw [bytesOf_append, bytesOf_append, bytesOf_flatMap_newline, bytesOf_newline, bytesOf_nil,
        bytesAmong_cons]
      omega
    rw [hcs, ← hbytes, ← bytesOf_append]
    exact hat

/-- A part that ends with a break ends with its own lines. -/
theorem exists_lines_before {before : List Char} (h : ∀ c ∈ before.getLast?, c = '\n') :
    ∃ front, (∀ rest, lines (before ++ rest) = front ++ lines rest) ∧
      bytesAmong front = bytesOf before := by
  rcases List.eq_nil_or_concat before with rfl | ⟨init, c, rfl⟩
  · exact ⟨[], fun rest => rfl, rfl⟩
  · obtain rfl := h c (by simp)
    refine ⟨lines init, fun rest => ?_, ?_⟩
    · rw [List.concat_eq_append, List.append_assoc]
      exact lines_break init rest
    · rw [bytesAmong_lines, List.concat_eq_append, bytesOf_append]
      rfl

/-- A line ends where a break follows. -/
theorem exists_lines_after {line after : List Char} (hline : '\n' ∉ line)
    (h : ∀ c ∈ after.head?, c = '\n') : ∃ back, lines (line ++ after) = line :: back := by
  cases after with
  | nil => exact ⟨[], by rw [List.append_nil, lines_of_not_mem hline]⟩
  | cons c after =>
    obtain rfl := h c rfl
    exact ⟨lines after, by rw [lines_break, lines_of_not_mem hline, List.singleton_append]⟩

/-- The extents listed are those of the lines of the text. -/
theorem mem_lineExtents_iff {cs : List Char} {e : Extent} :
    e ∈ lineExtents cs ↔ ∃ line, LineAt cs e line := by
  rw [lineExtents, mem_extentsFrom_iff]
  constructor
  · rintro ⟨front, line, back, hlines, rfl⟩
    rw [Nat.zero_add]
    exact ⟨line, lineAt_of_lines hlines⟩
  · rintro ⟨line, ⟨before, line, after, hbefore, hline, hafter⟩⟩
    obtain ⟨front, hfront, hbytes⟩ := exists_lines_before hbefore
    obtain ⟨back, hback⟩ := exists_lines_after hline hafter
    refine ⟨front, line, back, ?_, ?_⟩
    · rw [List.append_assoc, hfront, hback]
    · rw [Nat.zero_add, hbytes, bytesOf_append]

example : lineExtents ['é', '\n', '\n', 'b'] = [⟨0, 2⟩, ⟨3, 3⟩, ⟨4, 5⟩] := by decide

/-! ## Lines on both sides of an edit -/

/-- The last line of a text is open: what comes behind the text goes on with it. -/
theorem exists_last_line (cs : List Char) :
    ∃ front last, (∀ after, lines (cs ++ after) = front ++ lines (last ++ after)) ∧
      '\n' ∉ last ∧ bytesAmong front + bytesOf last = bytesOf cs := by
  by_cases h : '\n' ∈ cs
  · obtain ⟨back, front, hsplit, hback⟩ := List.eq_append_cons_of_mem (List.mem_reverse.mpr h)
    have hcs : cs = front.reverse ++ '\n' :: back.reverse := by
      rw [← List.reverse_reverse cs, hsplit]
      simp
    refine ⟨lines front.reverse, back.reverse, fun after => ?_, by simpa using hback, ?_⟩
    · rw [hcs, List.append_assoc, List.cons_append, lines_break]
    · rw [hcs, bytesAmong_lines, bytesOf_append, bytesOf_newline]
      omega
  · exact ⟨[], cs, fun after => rfl, h, Nat.zero_add _⟩

/-- So is the first line for what comes before. -/
theorem exists_first_line (cs : List Char) :
    ∃ first back, (∀ before, lines (before ++ cs) = lines (before ++ first) ++ back) ∧
      '\n' ∉ first := by
  by_cases h : '\n' ∈ cs
  · obtain ⟨first, back, rfl, hfirst⟩ := List.eq_append_cons_of_mem h
    refine ⟨first, lines back, fun before => ?_, hfirst⟩
    rw [← List.append_assoc, lines_break]
  · exact ⟨cs, [], fun before => (List.append_nil _).symm, h⟩

theorem le_stop_of_mem {start : Nat} {last cs : List Char} (hlast : '\n' ∉ last) {e : Extent}
    (h : e ∈ extentsFrom start (lines (last ++ cs))) : start + bytesOf last ≤ e.stop := by
  obtain ⟨line, rest, hlines⟩ := exists_lines cs
  rw [lines_front hlast hlines, extentsFrom, bytesOf_append, List.mem_cons] at h
  rcases h with rfl | h
  · simp only
    omega
  · have := bounds_of_mem_extentsFrom h
    omega

theorem start_le_of_mem {start : Nat} {first cs : List Char} (hfirst : '\n' ∉ first) {e : Extent}
    (h : e ∈ extentsFrom start (lines (cs ++ first))) : e.start ≤ start + bytesOf cs := by
  obtain ⟨front, last, hlines, hlast, hbytes⟩ := exists_last_line cs
  have hone : lines (last ++ first) = [last ++ first] :=
    lines_of_not_mem fun hm => (List.mem_append.mp hm).elim hlast hfirst
  rw [hlines, hone, extentsFrom_append, List.mem_append, extentsFrom, extentsFrom,
    List.mem_singleton] at h
  rcases h with h | rfl
  · have := bounds_of_mem_extentsFrom h
    omega
  · simp only
    omega

/-- The lines of a text before and after an edit: those in front of it, those it meets and what it
makes of them, and those behind it. -/
structure Parted (cs : List Char) (e : Extent) (inserted cs' : List Char)
    (front middle middle' back : List (List Char)) : Prop where
  old : lines cs = front ++ middle ++ back
  new : lines cs' = front ++ middle' ++ back
  before : bytesAmong front ≤ e.start
  meets : ∀ x ∈ extentsFrom (bytesAmong front) middle, x.Meets e
  behind : e.stop < bytesAmong (front ++ middle)
  shift : bytesAmong (front ++ middle) + bytesOf inserted = bytesAmong (front ++ middle') + e.length

theorem Edited.le {cs inserted cs' : List Char} {e : Extent} (h : Edited cs e inserted cs') :
    e.start ≤ e.stop := by
  cases h with
  | mk before removed after =>
    rw [bytesOf_append]
    exact Nat.le_add_right _ _

theorem Edited.parted {cs inserted cs' : List Char} {e : Extent}
    (h : Edited cs e inserted cs') :
    ∃ front middle middle' back, Parted cs e inserted cs' front middle middle' back := by
  cases h with
  | mk before removed after =>
    obtain ⟨front, last, hfront, hlast, hbefore⟩ := exists_last_line before
    obtain ⟨first, back, hback, hfirst⟩ := exists_first_line after
    have hlines (part : List Char) : lines (before ++ part ++ after) =
        front ++ lines (last ++ part ++ first) ++ back := by
      rw [hback, List.append_assoc before, hfront, ← List.append_assoc last]
    refine ⟨front, lines (last ++ removed ++ first), lines (last ++ inserted ++ first), back,
      hlines removed, hlines inserted, ?_, fun x hx => ?_, ?_, ?_⟩
    · simp only
      omega
    · have hstart := start_le_of_mem hfirst hx
      rw [List.append_assoc] at hx
      have hstop := le_stop_of_mem hlast hx
      simp only [Extent.Meets, bytesOf_append] at hstart ⊢
      omega
    · simp only [bytesAmong_append, bytesAmong_lines, bytesOf_append]
      omega
    · simp only [Extent.length, bytesAmong_append, bytesAmong_lines, bytesOf_append]
      omega

end Text
end TreePatch
