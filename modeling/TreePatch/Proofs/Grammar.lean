import TreePatch.Proofs.Takes

/-! The rows of tokens that make up whole branches, as a grammar: nothing, a text in front of such
a row, or a branch around one and another behind it. A reading with a stack ends as it began for
just these (`balanced_iff`), so a fragment becomes a document just if it holds something and is
balanced (`Document.ofFragment_eq_ok_iff`). -/

namespace TreePatch

/-- An element of two rows side by side stands in the first or in the second. -/
theorem append_eq_append_cons {α : Type} {a b before tail : List α} {g : α}
    (h : a ++ b = before ++ g :: tail) :
    (∃ rest, a = before ++ g :: rest ∧ tail = rest ++ b) ∨
      ∃ front, before = a ++ front ∧ b = front ++ g :: tail := by
  rcases List.append_eq_append_iff.mp h with ⟨front, hbefore, hb⟩ | ⟨rest, ha, htail⟩
  · exact Or.inr ⟨front, hbefore, hb⟩
  · cases rest with
    | nil => exact Or.inr ⟨[], by rw [ha, List.append_nil, List.append_nil], htail.symm⟩
    | cons g' rest =>
      obtain ⟨rfl, rfl⟩ := List.cons.inj htail
      exact Or.inl ⟨rest, ha, rfl⟩

/-- Whatever opens closes again, with its own kind and around whole branches only. -/
inductive Balanced : List Token → Prop
  | nil : Balanced []
  | text (s : String) {ts : List Token} : Balanced ts → Balanced (.text s :: ts)
  | branch (kind : String) {inside after : List Token} : Balanced inside → Balanced after →
      Balanced (.opening kind :: (inside ++ .closing kind :: after))

theorem Balanced.openAfter {ts : List Token} (h : Balanced ts) (pending : List String) :
    openAfter pending ts = some pending := by
  induction h generalizing pending with
  | nil => exact openAfter_nil pending
  | text s _ ih => rw [openAfter_text, ih]
  | branch kind _ _ ihi iha =>
    rw [openAfter_opening, openAfter_append, ihi, Option.bind_some]
    simp only [TreePatch.openAfter, ↓reduceIte, iha]

/-- Where less is open in the end, the innermost branch has been closed behind a balanced row. -/
theorem exists_closing {kind : String} {pending left : List String} {ts : List Token}
    (h : openAfter (kind :: pending) ts = some left) (hle : left.length ≤ pending.length) :
    ∃ inside after, ts = inside ++ .closing kind :: after ∧ Balanced inside ∧
      openAfter pending after = some left := by
  -- a branch that opens on the way is passed over as a whole, so the induction is on the length
  induction hn : ts.length using Nat.strongRecOn generalizing kind pending ts with
  | ind n ih =>
  cases ts with
  | nil =>
    obtain rfl : kind :: pending = left := by simpa using h
    exact absurd hle (Nat.not_succ_le_self _)
  | cons t ts =>
    have hlt : ts.length < n := by rw [← hn]; simp
    cases t with
    | text s =>
      rw [openAfter_text] at h
      obtain ⟨inside, after, rfl, hi, ha⟩ := ih ts.length hlt h hle rfl
      exact ⟨.text s :: inside, after, rfl, .text s hi, ha⟩
    | closing top =>
      simp only [openAfter] at h
      split at h
      · rename_i hk
        exact ⟨[], ts, by rw [hk]; rfl, .nil, h⟩
      · cases h
    | opening inner =>
      rw [openAfter_opening] at h
      obtain ⟨below, beside, rfl, hb, hbeside⟩ :=
        ih ts.length hlt h (Nat.le_succ_of_le hle) rfl
      have hshort : beside.length < n := by
        simp only [List.length_append, List.length_cons] at hlt
        omega
      obtain ⟨inside, after, rfl, hi, ha⟩ := ih beside.length hshort hbeside hle rfl
      exact ⟨.opening inner :: (below ++ .closing inner :: inside), after, by simp,
        .branch inner hb hi, ha⟩

/-- **The grammar and the stack agree.** -/
theorem balanced_iff (ts : List Token) : Balanced ts ↔ openAfter [] ts = some [] := by
  refine ⟨fun h => h.openAfter [], fun h => ?_⟩
  induction hn : ts.length using Nat.strongRecOn generalizing ts with
  | ind n ih =>
  cases ts with
  | nil => exact .nil
  | cons t ts =>
    have hlt : ts.length < n := by rw [← hn]; simp
    cases t with
    | text s =>
      rw [openAfter_text] at h
      exact .text s (ih ts.length hlt ts h rfl)
    | closing kind => simp [openAfter] at h
    | opening kind =>
      rw [openAfter_opening] at h
      obtain ⟨inside, after, rfl, hi, ha⟩ := exists_closing h (Nat.le_refl _)
      simp only [List.length_append, List.length_cons] at hlt
      exact .branch kind hi (ih after.length (by omega) after ha rfl)

instance (ts : List Token) : Decidable (Balanced ts) :=
  decidable_of_iff _ (balanced_iff ts).symm

theorem Fragment.matched_iff_balanced (f : Fragment) : f.Matched ↔ Balanced f.tokens :=
  f.matched_iff.trans (balanced_iff f.tokens).symm

theorem Fragment.size_eq_zero_iff (f : Fragment) : f.size = 0 ↔ f.tokens = [] :=
  normal_width_eq_zero_iff f.tokens f.normal

namespace Document

theorem fit_iff (f : Fragment) : f.Fit ↔ f.tokens ≠ [] ∧ Balanced f.tokens := by
  rw [Fragment.Fit, f.matched_iff_balanced, ne_eq, f.size_eq_zero_iff]

/-- **What can be a document**, and which. -/
theorem ofFragment_eq_ok_iff (f : Fragment) (d : Document) :
    ofFragment f = .ok d ↔ f.tokens ≠ [] ∧ Balanced f.tokens ∧ d.content = f := by
  rw [← and_assoc, ← fit_iff]
  constructor
  · intro h
    obtain rfl := content_of_ofFragment h
    exact ⟨d.fit, rfl⟩
  · rintro ⟨hfit, hd⟩
    rw [ofFragment_of_fit hfit]
    exact congrArg Except.ok (ext hd.symm)

/-- Emptiness is noticed before a boundary without counterpart. -/
theorem ofFragment_eq_error_iff (f : Fragment) (e : Error) :
    ofFragment f = .error e ↔ (f.tokens = [] ∧ e = .noContent) ∨
      (f.tokens ≠ [] ∧ ∃ position, f.firstUnmatched = some position ∧
        e = .unmatchedBoundary position) := by
  unfold ofFragment
  split
  · rename_i h
    have hnil : f.tokens = [] := List.isEmpty_iff.mp h
    simp [hnil, eq_comm]
  · rename_i h
    have hne : f.tokens ≠ [] := fun he => h (List.isEmpty_iff.mpr he)
    split
    · rename_i position hp
      simp [hne, hp, eq_comm]
    · rename_i hm
      simp [hne, hm]

end Document
end TreePatch
