/-! Text measured and cut in UTF-16 code units. A cut inside a pair puts the
replacement character on both sides, so each side keeps its number of units. -/

namespace TreePatch.Text

/-- One code unit inside the basic plane, two beyond it. -/
def charUnits (c : Char) : Nat := if c.toNat < 0x10000 then 1 else 2

def unitsOf (cs : List Char) : Nat := cs.foldr (fun c n => charUnits c + n) 0

def units (s : String) : Nat := unitsOf s.toList

/-- Stands for either half of a pair that was cut. -/
def halfPair : Char := '\uFFFD'

def cutChars : Nat → List Char → List Char × List Char
  | _, [] => ([], [])
  | 0, cs => ([], cs)
  | n + 1, c :: cs =>
    if charUnits c ≤ n + 1 then
      let (head, tail) := cutChars (n + 1 - charUnits c) cs
      (c :: head, tail)
    else ([halfPair], halfPair :: cs)

/-- The first `n` units of a text and the units after them. -/
def cut (n : Nat) (s : String) : String × String :=
  let (head, tail) := cutChars n s.toList
  (String.ofList head, String.ofList tail)

theorem charUnits_pos (c : Char) : 0 < charUnits c := by
  unfold charUnits; split <;> omega

theorem charUnits_le_two (c : Char) : charUnits c ≤ 2 := by
  unfold charUnits; split <;> omega

@[simp] theorem charUnits_halfPair : charUnits halfPair = 1 := by decide

@[simp] theorem unitsOf_nil : unitsOf [] = 0 := rfl

@[simp] theorem unitsOf_cons (c : Char) (cs : List Char) :
    unitsOf (c :: cs) = charUnits c + unitsOf cs := rfl

@[simp] theorem unitsOf_append (a b : List Char) : unitsOf (a ++ b) = unitsOf a + unitsOf b := by
  induction a with
  | nil => simp
  | cons c a ih => simp [ih, Nat.add_assoc]

theorem unitsOf_eq_zero_iff (cs : List Char) : unitsOf cs = 0 ↔ cs = [] := by
  cases cs with
  | nil => simp
  | cons c cs => have := charUnits_pos c; simp; omega

@[simp] theorem units_empty : units "" = 0 := by simp [units]

@[simp] theorem units_append (a b : String) : units (a ++ b) = units a + units b := by
  simp [units]

theorem units_eq_zero_iff (s : String) : units s = 0 ↔ s = "" := by
  simp [units, unitsOf_eq_zero_iff]

theorem cutChars_zero (cs : List Char) : cutChars 0 cs = ([], cs) := by
  cases cs <;> rfl

theorem unitsOf_cutChars (n : Nat) (cs : List Char) (h : n ≤ unitsOf cs) :
    unitsOf (cutChars n cs).1 = n ∧ unitsOf (cutChars n cs).2 = unitsOf cs - n := by
  induction cs generalizing n with
  | nil => simp_all [cutChars]
  | cons c cs ih =>
    cases n with
    | zero => simp [cutChars]
    | succ n =>
      rw [unitsOf_cons] at h
      have hc := charUnits_le_two c
      by_cases hn : charUnits c ≤ n + 1
      · have := ih (n + 1 - charUnits c) (by omega)
        simp only [cutChars, hn, ↓reduceIte, unitsOf_cons]
        omega
      · simp only [cutChars, hn, ↓reduceIte, unitsOf_cons, unitsOf_nil, charUnits_halfPair]
        omega

theorem units_cut (n : Nat) (s : String) (h : n ≤ units s) :
    units (cut n s).1 = n ∧ units (cut n s).2 = units s - n := by
  simpa [cut, units] using unitsOf_cutChars n s.toList h

end TreePatch.Text
