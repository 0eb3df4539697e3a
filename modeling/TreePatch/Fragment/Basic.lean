import TreePatch.Token

/-! Pieces of a rendered document in normal form: no empty text, and no text beside
another. `normalize` brings any tokens into it and leaves what is in it alone. -/

namespace TreePatch

/-- No text is empty and no two texts stand side by side. -/
def Normal : List Token → Prop
  | [] => True
  | .text s :: ts => s ≠ "" ∧ (∀ t ∈ ts.head?, t.isText = false) ∧ Normal ts
  | _ :: ts => Normal ts

/-- Puts a token in front, joining text with the text that follows. -/
def joinFront : Token → List Token → List Token
  | .text s, .text t :: ts => .text (s ++ t) :: ts
  | .text s, ts => if s = "" then ts else .text s :: ts
  | t, ts => t :: ts

def normalize (tokens : List Token) : List Token := tokens.foldr joinFront []

@[simp] theorem normal_nil : Normal [] := trivial

@[simp] theorem normal_opening (k : String) (ts : List Token) :
    Normal (.opening k :: ts) ↔ Normal ts := Iff.rfl

@[simp] theorem normal_closing (k : String) (ts : List Token) :
    Normal (.closing k :: ts) ↔ Normal ts := Iff.rfl

theorem normal_text (s : String) (ts : List Token) :
    Normal (.text s :: ts) ↔ s ≠ "" ∧ (∀ t ∈ ts.head?, t.isText = false) ∧ Normal ts := Iff.rfl

theorem normal_tail {t : Token} {ts : List Token} (h : Normal (t :: ts)) : Normal ts := by
  cases t with
  | text s => exact h.2.2
  | _ => exact h

theorem joinFront_normal (t : Token) (ts : List Token) (h : Normal ts) :
    Normal (joinFront t ts) := by
  cases t with
  | opening k => exact h
  | closing k => exact h
  | text s =>
    cases ts with
    | nil => simp only [joinFront]; split <;> simp_all [normal_text]
    | cons u us =>
      cases u with
      | text r =>
        simp only [joinFront, normal_text] at h ⊢
        refine ⟨?_, h.2⟩
        intro he
        exact h.1 (String.append_eq_empty_iff.mp he).2
      | opening k => simp only [joinFront]; split <;> simp_all [normal_text, Token.isText]
      | closing k => simp only [joinFront]; split <;> simp_all [normal_text, Token.isText]

theorem joinFront_eq_cons (t : Token) (ts : List Token) (h : Normal (t :: ts)) :
    joinFront t ts = t :: ts := by
  cases t with
  | opening k => rfl
  | closing k => rfl
  | text s =>
    obtain ⟨hs, hh, _⟩ := h
    cases ts with
    | nil => simp [joinFront, hs]
    | cons u us =>
      cases u with
      | text r => simp [Token.isText] at hh
      | opening k => simp [joinFront, hs]
      | closing k => simp [joinFront, hs]

@[simp] theorem normalize_nil : normalize [] = [] := rfl

@[simp] theorem normalize_cons (t : Token) (ts : List Token) :
    normalize (t :: ts) = joinFront t (normalize ts) := rfl

theorem normalize_normal (ts : List Token) : Normal (normalize ts) := by
  induction ts with
  | nil => trivial
  | cons t ts ih => exact joinFront_normal t _ ih

theorem normalize_eq_self (ts : List Token) (h : Normal ts) : normalize ts = ts := by
  induction ts with
  | nil => rfl
  | cons t ts ih => rw [normalize_cons, ih (normal_tail h), joinFront_eq_cons t ts h]

theorem joinFront_width (t : Token) (ts : List Token) :
    Token.listWidth (joinFront t ts) = t.width + Token.listWidth ts := by
  cases t with
  | opening k => rfl
  | closing k => rfl
  | text s =>
    cases ts with
    | nil => simp only [joinFront]; split <;> simp_all [Token.width]
    | cons u us =>
      cases u with
      | text r => simp [joinFront, Token.width, Nat.add_assoc]
      | opening k => simp only [joinFront]; split <;> simp_all [Token.width]
      | closing k => simp only [joinFront]; split <;> simp_all [Token.width]

theorem normalize_width (ts : List Token) :
    Token.listWidth (normalize ts) = Token.listWidth ts := by
  induction ts with
  | nil => rfl
  | cons t ts ih => rw [normalize_cons, joinFront_width, ih, Token.listWidth_cons]

theorem joinFront_text_append (s t : String) (ts : List Token) (h : Normal ts) :
    joinFront (.text (s ++ t)) ts = joinFront (.text s) (joinFront (.text t) ts) := by
  by_cases ht : t = ""
  · subst ht
    cases ts with
    | nil => simp [joinFront]
    | cons u us =>
      cases u with
      | text r => simp [joinFront]
      | opening k => simp [joinFront]
      | closing k => simp [joinFront]
  · have hst : s ++ t ≠ "" := fun he => ht (String.append_eq_empty_iff.mp he).2
    cases ts with
    | nil => simp [joinFront, ht]
    | cons u us =>
      cases u with
      | text r => simp [joinFront, String.append_assoc]
      | opening k => simp [joinFront, ht]
      | closing k => simp [joinFront, ht]

/-- Tokens may be brought into normal form part by part. -/
theorem normalize_append_normalize (a b : List Token) :
    normalize (a ++ normalize b) = normalize (a ++ b) := by
  induction a with
  | nil => exact normalize_eq_self _ (normalize_normal b)
  | cons t a ih => rw [List.cons_append, List.cons_append, normalize_cons, normalize_cons, ih]

theorem normalize_joinFront_append (t : Token) (a b : List Token) :
    normalize (joinFront t a ++ b) = joinFront t (normalize (a ++ b)) := by
  cases t with
  | opening k => rfl
  | closing k => rfl
  | text s =>
    cases a with
    | nil =>
      simp only [joinFront]
      split
      · rename_i hs
        subst hs
        cases h : normalize ([] ++ b) with
        | nil => simp_all
        | cons u us => cases u <;> simp_all
      · rfl
    | cons u us =>
      cases u with
      | text r =>
        have h := normalize_normal (us ++ b)
        simp only [joinFront, List.cons_append, normalize_cons]
        exact joinFront_text_append s r _ h
      | opening k =>
        simp only [joinFront]
        split
        · rename_i hs
          subst hs
          simp [joinFront]
        · rfl
      | closing k =>
        simp only [joinFront]
        split
        · rename_i hs
          subst hs
          simp [joinFront]
        · rfl

theorem normalize_normalize_append (a b : List Token) :
    normalize (normalize a ++ b) = normalize (a ++ b) := by
  induction a with
  | nil => rfl
  | cons t a ih => rw [normalize_cons, normalize_joinFront_append, ih, List.cons_append, normalize_cons]

theorem normal_width_eq_zero_iff (ts : List Token) (h : Normal ts) :
    Token.listWidth ts = 0 ↔ ts = [] := by
  cases ts with
  | nil => simp
  | cons t ts =>
    cases t with
    | text s =>
      have := mt (Text.units_eq_zero_iff s).mp h.1
      simp [Token.width]
      omega
    | opening k => simp [Token.width]
    | closing k => simp [Token.width]

structure Fragment where
  tokens : List Token
  normal : Normal tokens
  deriving DecidableEq

namespace Fragment

instance : Repr Fragment := ⟨fun f n => reprPrec f.tokens n⟩

def ofTokens (tokens : List Token) : Fragment := ⟨normalize tokens, normalize_normal tokens⟩

def empty : Fragment := ⟨[], trivial⟩

instance : Inhabited Fragment := ⟨empty⟩

/-- A branch without children. -/
def bareBranch (kind : String) : Fragment := ⟨[.opening kind, .closing kind], trivial⟩

def size (f : Fragment) : Nat := Token.listWidth f.tokens

def isEmpty (f : Fragment) : Bool := f.tokens.isEmpty

def append (f g : Fragment) : Fragment := ofTokens (f.tokens ++ g.tokens)

instance : Append Fragment := ⟨append⟩

def appendTokens (f : Fragment) (tokens : List Token) : Fragment := ofTokens (f.tokens ++ tokens)

def push (f : Fragment) (token : Token) : Fragment := f.appendTokens [token]

def describe (f : Fragment) : String := String.join (f.tokens.map Token.describe)

@[ext] theorem ext {f g : Fragment} (h : f.tokens = g.tokens) : f = g := by
  cases f; cases g; cases h; rfl

@[simp] theorem ofTokens_tokens (f : Fragment) : ofTokens f.tokens = f :=
  ext (normalize_eq_self f.tokens f.normal)

@[simp] theorem size_ofTokens (ts : List Token) : (ofTokens ts).size = Token.listWidth ts :=
  normalize_width ts

theorem append_def (f g : Fragment) : f ++ g = ofTokens (f.tokens ++ g.tokens) := rfl

/-- Building a fragment from tokens takes lists side by side to fragments side by side. -/
theorem ofTokens_append (a b : List Token) : ofTokens (a ++ b) = ofTokens a ++ ofTokens b := by
  apply ext
  simp only [append_def, ofTokens]
  rw [normalize_normalize_append, normalize_append_normalize]

@[simp] theorem size_append (f g : Fragment) : (f ++ g).size = f.size + g.size := by
  rw [append_def, size_ofTokens, Token.listWidth_append]
  rfl

theorem append_assoc (f g h : Fragment) : f ++ g ++ h = f ++ (g ++ h) := by
  apply ext
  simp only [append_def, ofTokens]
  rw [normalize_normalize_append, normalize_append_normalize, List.append_assoc]

@[simp] theorem empty_append (f : Fragment) : empty ++ f = f := ofTokens_tokens f

@[simp] theorem append_empty (f : Fragment) : f ++ empty = f := by
  rw [append_def]
  simp [empty]

theorem isEmpty_iff_size_eq_zero (f : Fragment) : f.isEmpty = true ↔ f.size = 0 := by
  rw [size, normal_width_eq_zero_iff f.tokens f.normal, isEmpty, List.isEmpty_iff]

end Fragment
end TreePatch
