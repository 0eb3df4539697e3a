import TreePatch.Document

/-! Fragments put together and taken apart. A cut where two fragments were joined gives back
just these two (`cutAt_append`), also when text on both sides of the seam had become one
token: the seam lies between two characters, so no pair is cut there. -/

namespace TreePatch

theorem Text.cutChars_append (cs ds : List Char) (n : Nat) :
    Text.cutChars (Text.unitsOf cs + n) (cs ++ ds) =
      (cs ++ (Text.cutChars n ds).1, (Text.cutChars n ds).2) := by
  induction cs with
  | nil => simp
  | cons c cs ih =>
    have hc := Text.charUnits_pos c
    obtain ⟨m, hm⟩ : ∃ m, Text.charUnits c + Text.unitsOf cs + n = m + 1 :=
      ⟨Text.charUnits c + Text.unitsOf cs + n - 1, by omega⟩
    have hle : Text.charUnits c ≤ m + 1 := by omega
    have hrest : m + 1 - Text.charUnits c = Text.unitsOf cs + n := by omega
    simp only [Text.unitsOf_cons, hm, List.cons_append, Text.cutChars, hle, ↓reduceIte, hrest, ih]

theorem Text.cut_append (s t : String) (n : Nat) :
    Text.cut (Text.units s + n) (s ++ t) = (s ++ (Text.cut n t).1, (Text.cut n t).2) := by
  simp [Text.cut, Text.units, Text.cutChars_append, String.ofList_append]

theorem Text.cut_zero (s : String) : Text.cut 0 s = ("", s) := by
  simp [Text.cut, Text.cutChars_zero]

theorem joinFront_empty (ts : List Token) : joinFront (.text "") ts = ts := by
  cases ts with
  | nil => simp [joinFront]
  | cons u us => cases u <;> simp [joinFront]

/-- A cut behind a text that may have been joined with the text after it. -/
theorem cutTokens_text (s : String) (hs : s ≠ "") (ts : List Token) (h : Normal ts) (n : Nat) :
    normalize (cutTokens (Text.units s + n) (joinFront (.text s) ts)).1 =
        joinFront (.text s) (normalize (cutTokens n ts).1) ∧
      normalize (cutTokens (Text.units s + n) (joinFront (.text s) ts)).2 =
        normalize (cutTokens n ts).2 := by
  have hpos : Text.units s ≠ 0 := mt (Text.units_eq_zero_iff s).mp hs
  obtain ⟨m, hm⟩ : ∃ m, Text.units s + n = m + 1 := ⟨Text.units s + n - 1, by omega⟩
  by_cases hj : ∃ r us, ts = .text r :: us
  · obtain ⟨r, us, rfl⟩ := hj
    have hr : Text.units r ≠ 0 := mt (Text.units_eq_zero_iff r).mp h.1
    simp only [joinFront, hm, cutTokens, Text.units_append]
    by_cases hle : Text.units r ≤ n
    · -- the cut lies behind the joined text, and so behind its second part
      obtain ⟨k, rfl⟩ : ∃ k, n = k + 1 := ⟨n - 1, by omega⟩
      have hrest : m + 1 - (Text.units s + Text.units r) = k + 1 - Text.units r := by omega
      rw [if_pos (by omega), hrest]
      simp only [cutTokens, hle, ↓reduceIte, normalize_cons, and_true]
      exact joinFront_text_append s r _ (normalize_normal _)
    · rw [if_neg (by omega), ← hm, Text.cut_append]
      cases n with
      | zero => simp [cutTokens_zero, Text.cut_zero, joinFront]
      | succ k =>
        simp only [cutTokens, hle, ↓reduceIte, normalize_cons, normalize_nil, and_true]
        exact joinFront_text_append s _ _ trivial
  · have hf : joinFront (.text s) ts = .text s :: ts := by
      refine joinFront_eq_cons _ _ ⟨hs, ?_, h⟩
      intro t ht
      cases ts with
      | nil => simp at ht
      | cons u us =>
        cases u with
        | text r => exact absurd ⟨r, us, rfl⟩ hj
        | _ => simp only [List.head?_cons, Option.mem_def, Option.some.injEq] at ht; subst ht; rfl
    have hrest : m + 1 - Text.units s = n := by omega
    rw [hf, hm]
    simp [cutTokens, hrest, show Text.units s ≤ m + 1 by omega]

theorem cutTokens_joinFront (t : Token) (ts : List Token) (h : Normal ts) (n : Nat) :
    normalize (cutTokens (t.width + n) (joinFront t ts)).1 =
        joinFront t (normalize (cutTokens n ts).1) ∧
      normalize (cutTokens (t.width + n) (joinFront t ts)).2 = normalize (cutTokens n ts).2 := by
  cases t with
  | opening k => simp [joinFront, Token.width, Nat.add_comm 1 n, cutTokens]
  | closing k => simp [joinFront, Token.width, Nat.add_comm 1 n, cutTokens]
  | text s =>
    by_cases hs : s = ""
    · subst hs
      simp [joinFront_empty, Token.width]
    · exact cutTokens_text s hs ts h n

theorem cutTokens_normalize_append (a b : List Token) :
    normalize (cutTokens (Token.listWidth a) (normalize (a ++ b))).1 = normalize a ∧
      normalize (cutTokens (Token.listWidth a) (normalize (a ++ b))).2 = normalize b := by
  induction a with
  | nil =>
    simp only [Token.listWidth_nil, cutTokens_zero, List.nil_append, normalize_nil, true_and]
    exact normalize_eq_self _ (normalize_normal b)
  | cons t a ih =>
    have := cutTokens_joinFront t _ (normalize_normal (a ++ b)) (Token.listWidth a)
    rw [ih.1, ih.2] at this
    exact this

namespace Fragment

/-- **A cut at a joint.** -/
theorem cutAt_append (f g : Fragment) : (f ++ g).cutAt f.size = .ok (f, g) := by
  have h := cutTokens_normalize_append f.tokens g.tokens
  rw [normalize_eq_self _ f.normal, normalize_eq_self _ g.normal] at h
  have hlt : ¬ (f ++ g).size < f.size := by rw [size_append]; omega
  unfold cutAt
  rw [if_neg hlt]
  exact congrArg Except.ok (Prod.ext (ext h.1) (ext h.2))

@[simp] theorem size_empty : empty.size = 0 := rfl

@[simp] theorem size_bareBranch (kind : String) : (bareBranch kind).size = 2 := rfl

theorem slice_append (f g h : Fragment) :
    (f ++ g ++ h).slice ⟨f.size, f.size + g.size⟩ = .ok g := by
  have hlt : ¬ f.size + g.size < f.size := by omega
  have hlen : f.size + g.size - f.size = g.size := by omega
  simp [slice, Extent.length, hlt, hlen, append_assoc, cutAt_append, bind, Except.bind, pure,
    Except.pure]

theorem eq_empty_of_size (f : Fragment) (h : f.size = 0) : f = empty :=
  ext ((normal_width_eq_zero_iff f.tokens f.normal).mp h)

end Fragment

/-- A splice between joints replaces just the middle part. -/
theorem Document.splice_append (d : Document) (f g h r : Fragment) (hd : d.content = f ++ g ++ h) :
    d.splice f.size g.size r = Document.ofFragment (f ++ r ++ h) := by
  simp only [Document.splice, hd, Fragment.append_assoc, Fragment.cutAt_append, bind, Except.bind]

end TreePatch
