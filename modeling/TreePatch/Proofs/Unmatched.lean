import Mathlib.Order.Bounds.Basic
import TreePatch.Proofs.Grammar

/-! Where the first unmatched boundary stands. A row of tokens can still become balanced as long as
every closing boundary in it fits (`extendable_iff`). So the search stops at the first closing
boundary with which that is over, and if there is none, it gives the first branch that is never
closed (`firstUnmatched_locates`). Balanced pieces go into a balanced fragment and come out of it
at any position, as no cut touches a boundary (`Fragment.openAfter_cutAt`). -/

namespace TreePatch

/-- Tokens can follow that make the row balanced. -/
def Extendable (ts : List Token) : Prop := ∃ rest, Balanced (ts ++ rest)

/-- What stands behind an opening boundary closes it, around whole branches only. -/
def ClosesIn (kind : String) (ts : List Token) : Prop :=
  ∃ inside after, ts = inside ++ .closing kind :: after ∧ Balanced inside

/-- A closing boundary at the position is not to be had in a balanced row with this beginning. -/
def StuckAt (ts : List Token) (position : Nat) : Prop :=
  ∃ before kind after, ts = before ++ .closing kind :: after ∧
    Token.listWidth before = position ∧ ¬ Extendable (before ++ [.closing kind])

/-- A branch opens at the position and is never closed. -/
def LeftOpenAt (ts : List Token) (position : Nat) : Prop :=
  ∃ before kind after, ts = before ++ .opening kind :: after ∧
    Token.listWidth before = position ∧ ¬ ClosesIn kind after

/-! ## Rows that can go on -/

theorem openAfter_closings (left : List String) :
    openAfter left (left.map .closing) = some [] := by
  induction left with
  | nil => rfl
  | cons kind left ih => simp only [List.map_cons, openAfter, ↓reduceIte, ih]

/-- A row can become balanced just if every closing boundary in it fits. -/
theorem extendable_iff (ts : List Token) : Extendable ts ↔ ∃ left, openAfter [] ts = some left := by
  constructor
  · rintro ⟨rest, h⟩
    rw [balanced_iff, openAfter_append] at h
    obtain ⟨left, hleft, -⟩ := Option.bind_eq_some_iff.mp h
    exact ⟨left, hleft⟩
  · rintro ⟨left, hleft⟩
    refine ⟨left.map .closing, (balanced_iff _).mpr ?_⟩
    rw [openAfter_append, hleft, Option.bind_some, openAfter_closings]

theorem Extendable.front {a b : List Token} (h : Extendable (a ++ b)) : Extendable a := by
  obtain ⟨rest, h⟩ := h
  exact ⟨b ++ rest, by rwa [← List.append_assoc]⟩

theorem Balanced.extendable {ts : List Token} (h : Balanced ts) : Extendable ts :=
  ⟨[], by rwa [List.append_nil]⟩

theorem openAfter_misfit {left : List String} {kind : String} (h : left.head? ≠ some kind)
    (after : List Token) : openAfter left (.closing kind :: after) = none := by
  cases left with
  | nil => rfl
  | cons top left =>
    have hne : top ≠ kind := fun he => h (congrArg some he)
    simp only [openAfter, hne, ↓reduceIte]

/-- Where a row cannot be read, some closing boundary is the first that does not fit. -/
theorem exists_misfit {pending : List String} {ts : List Token} (h : openAfter pending ts = none) :
    ∃ before kind after left, ts = before ++ .closing kind :: after ∧
      openAfter pending before = some left ∧ left.head? ≠ some kind := by
  induction ts generalizing pending with
  | nil => simp at h
  | cons t ts ih =>
    cases t with
    | opening kind =>
      rw [openAfter_opening] at h
      obtain ⟨before, inner, after, left, rfl, hleft, hne⟩ := ih h
      exact ⟨.opening kind :: before, inner, after, left, rfl, by rwa [openAfter_opening], hne⟩
    | text s =>
      rw [openAfter_text] at h
      obtain ⟨before, kind, after, left, rfl, hleft, hne⟩ := ih h
      exact ⟨.text s :: before, kind, after, left, rfl, by rwa [openAfter_text], hne⟩
    | closing kind =>
      by_cases hfit : pending.head? = some kind
      · obtain ⟨outer, rfl⟩ := List.head?_eq_some_iff.mp hfit
        simp only [openAfter, ↓reduceIte] at h
        obtain ⟨before, inner, after, left, rfl, hleft, hne⟩ := ih h
        exact ⟨.closing kind :: before, inner, after, left, rfl, by
          simpa only [openAfter, ↓reduceIte] using hleft, hne⟩
      · exact ⟨[], kind, ts, pending, rfl, openAfter_nil pending, hfit⟩

/-- Where something stays open, the outermost of it opens behind a balanced row and nothing behind
it reaches out of it. -/
theorem exists_leftOpen {ts : List Token} {left : List String} (h : openAfter [] ts = some left)
    (hne : left ≠ []) : ∃ before kind after inner, ts = before ++ .opening kind :: after ∧
      Balanced before ∧ openAfter [] after = some inner := by
  -- branches that are closed are passed over as a whole, so the induction is on the length
  induction hn : ts.length using Nat.strongRecOn generalizing ts with
  | ind n ih =>
  cases ts with
  | nil => exact absurd (Option.some.inj h).symm hne
  | cons t ts =>
    have hlt : ts.length < n := by rw [← hn]; simp
    cases t with
    | closing kind => simp [openAfter] at h
    | text s =>
      rw [openAfter_text] at h
      obtain ⟨before, kind, after, inner, rfl, hb, ha⟩ := ih ts.length hlt h rfl
      exact ⟨.text s :: before, kind, after, inner, rfl, .text s hb, ha⟩
    | opening kind =>
      rw [openAfter_opening] at h
      cases hts : openAfter [] ts with
      | some inner => exact ⟨[], kind, ts, inner, rfl, .nil, hts⟩
      | none =>
        obtain ⟨inside, close, rest, stack, rfl, hinside, hfit⟩ := exists_misfit hts
        have hopen : openAfter [kind] inside = some (stack ++ [kind]) :=
          openAfter_frame [kind] hinside
        rw [openAfter_append, hopen, Option.bind_some] at h
        cases stack with
        | cons top stack =>
          have hmisfit : (top :: (stack ++ [kind])).head? ≠ some close := hfit
          rw [List.cons_append, openAfter_misfit hmisfit] at h
          cases h
        | nil =>
          simp only [List.nil_append, openAfter] at h
          split at h
          · rename_i hclose
            subst hclose
            simp only [List.length_append, List.length_cons] at hlt
            obtain ⟨before, inner, after, deep, rfl, hb, ha⟩ := ih rest.length (by omega) h rfl
            exact ⟨.opening kind :: (inside ++ .closing kind :: before), inner, after, deep,
              by simp, .branch kind ((balanced_iff _).mpr hinside) hb, ha⟩
          · cases h

/-! ## What the search gives -/

/-- A row that can be read is passed over: what it leaves open comes on top of what was open further
out, and that is left alone. -/
theorem unmatchedFrom_read (pending : List (String × Nat)) (position : Nat) {before : List Token}
    {left : List String} (h : openAfter (pending.map Prod.fst) before = some left) :
    ∃ stack : List (String × Nat), stack.map Prod.fst = left ∧
      ∀ outer rest, unmatchedFrom (pending ++ outer) position (before ++ rest) =
        unmatchedFrom (stack ++ outer) (position + Token.listWidth before) rest := by
  induction before generalizing pending position with
  | nil => exact ⟨pending, Option.some.inj h, fun outer rest => rfl⟩
  | cons t before ih =>
    simp only [Token.listWidth_cons, ← Nat.add_assoc]
    cases t with
    | opening kind =>
      rw [openAfter_opening] at h
      exact ih ((kind, position) :: pending) _ h
    | text s =>
      rw [openAfter_text] at h
      exact ih pending _ h
    | closing kind =>
      cases pending with
      | nil => simp [openAfter] at h
      | cons top pending =>
        simp only [List.map_cons, openAfter] at h
        split at h
        · rename_i htop
          simp only [List.cons_append, unmatchedFrom, htop, ↓reduceIte]
          exact ih pending _ h
        · cases h

theorem unmatchedFrom_behind {ts : List Token} (h : Balanced ts) (position : Nat)
    (rest : List Token) : unmatchedFrom [] position (ts ++ rest) =
      unmatchedFrom [] (position + Token.listWidth ts) rest := by
  obtain ⟨stack, hstack, hread⟩ := unmatchedFrom_read [] position (h.openAfter [])
  obtain rfl := List.map_eq_nil_iff.mp hstack
  exact hread [] rest

theorem unmatchedFrom_misfit {before : List Token} {left : List String} {kind : String}
    (h : openAfter [] before = some left) (hne : left.head? ≠ some kind) (after : List Token) :
    unmatchedFrom [] 0 (before ++ .closing kind :: after) = some (Token.listWidth before) := by
  obtain ⟨stack, rfl, hread⟩ := unmatchedFrom_read [] 0 h
  have hstart := hread [] (.closing kind :: after)
  rw [List.append_nil, List.append_nil, Nat.zero_add] at hstart
  rw [hstart]
  cases stack with
  | nil => rfl
  | cons top stack =>
    have htop : top.1 ≠ kind := fun he => hne (congrArg some he)
    simp [unmatchedFrom, htop]

/-- A branch that nothing reaches out of is given when it is the outermost. -/
theorem unmatchedFrom_bottom {ts : List Token} {left : List String}
    (h : openAfter [] ts = some left) (bottom : String × Nat) (position : Nat) :
    unmatchedFrom [bottom] position ts = some bottom.2 := by
  obtain ⟨stack, -, hread⟩ := unmatchedFrom_read [] position h
  have hend := hread [bottom] []
  rw [List.append_nil, List.nil_append] at hend
  rw [hend]
  simp [unmatchedFrom]

/-! ## First positions -/

theorem Extendable.not_stuckAt {ts : List Token} (h : Extendable ts) (position : Nat) :
    ¬ StuckAt ts position := by
  rintro ⟨before, kind, after, rfl, -, hstuck⟩
  refine hstuck (Extendable.front (b := after) ?_)
  rwa [List.append_assoc, List.singleton_append]

theorem isLeast_stuckAt {before : List Token} {left : List String} {kind : String}
    (h : openAfter [] before = some left) (hne : left.head? ≠ some kind) (after : List Token) :
    IsLeast {p | StuckAt (before ++ .closing kind :: after) p} (Token.listWidth before) := by
  constructor
  · refine ⟨before, kind, after, rfl, rfl, fun hext => ?_⟩
    obtain ⟨stack, hstack⟩ := (extendable_iff _).mp hext
    rw [openAfter_append, h, Option.bind_some, openAfter_misfit hne] at hstack
    cases hstack
  · rintro p ⟨front, other, back, hsplit, rfl, hstuck⟩
    rcases append_eq_append_cons hsplit with ⟨between, hbefore, -⟩ | ⟨extra, rfl, -⟩
    · refine absurd (Extendable.front (b := between) ?_) hstuck
      rw [List.append_assoc, List.singleton_append, ← hbefore]
      exact (extendable_iff _).mpr ⟨left, h⟩
    · rw [Token.listWidth_append]
      exact Nat.le_add_right _ _

theorem Balanced.closesIn {before after : List Token} {kind : String}
    (h : Balanced (before ++ .opening kind :: after)) : ClosesIn kind after := by
  rw [balanced_iff, openAfter_append] at h
  obtain ⟨pending, -, h⟩ := Option.bind_eq_some_iff.mp h
  rw [openAfter_opening] at h
  obtain ⟨inside, rest, rfl, hinside, -⟩ := exists_closing h (Nat.zero_le _)
  exact ⟨inside, rest, rfl, hinside⟩

theorem ClosesIn.append {kind : String} {ts : List Token} (h : ClosesIn kind ts)
    (rest : List Token) : ClosesIn kind (ts ++ rest) := by
  obtain ⟨inside, after, rfl, hinside⟩ := h
  exact ⟨inside, after ++ rest, by simp, hinside⟩

theorem isLeast_leftOpenAt {before after : List Token} {kind : String} {inner : List String}
    (hb : Balanced before) (ha : openAfter [] after = some inner) :
    IsLeast {p | LeftOpenAt (before ++ .opening kind :: after) p} (Token.listWidth before) := by
  constructor
  · refine ⟨before, kind, after, rfl, rfl, ?_⟩
    rintro ⟨inside, rest, rfl, hinside⟩
    rw [openAfter_append, hinside.openAfter, Option.bind_some] at ha
    cases ha
  · rintro p ⟨front, other, back, hsplit, rfl, hopen⟩
    rcases append_eq_append_cons hsplit with ⟨between, rfl, rfl⟩ | ⟨extra, rfl, -⟩
    · exact absurd (hb.closesIn.append _) hopen
    · rw [Token.listWidth_append]
      exact Nat.le_add_right _ _

/-- A row is balanced, or a closing boundary does not fit, or a branch stays open. -/
theorem unmatchedFrom_cases (ts : List Token) :
    (unmatchedFrom [] 0 ts = none ∧ Balanced ts) ∨
      ∃ q, unmatchedFrom [] 0 ts = some q ∧ (IsLeast {p | StuckAt ts p} q ∨
        Extendable ts ∧ IsLeast {p | LeftOpenAt ts p} q) := by
  cases h : openAfter [] ts with
  | none =>
    obtain ⟨before, kind, after, left, rfl, hleft, hne⟩ := exists_misfit h
    exact Or.inr ⟨_, unmatchedFrom_misfit hleft hne after, Or.inl (isLeast_stuckAt hleft hne after)⟩
  | some left =>
    by_cases hleft : left = []
    · subst hleft
      exact Or.inl ⟨(unmatchedFrom_eq_none_iff [] 0 ts).mpr h, (balanced_iff ts).mpr h⟩
    · obtain ⟨before, kind, after, inner, rfl, hb, ha⟩ := exists_leftOpen h hleft
      refine Or.inr ⟨Token.listWidth before, ?_, Or.inr ⟨(extendable_iff _).mpr ⟨left, h⟩,
        isLeast_leftOpenAt hb ha⟩⟩
      rw [unmatchedFrom_behind hb]
      simp only [unmatchedFrom, Nat.zero_add]
      exact unmatchedFrom_bottom ha (kind, Token.listWidth before) _

namespace Fragment

/-- **Where the first unmatched boundary is.** -/
theorem firstUnmatched_eq_some_iff (f : Fragment) (q : Nat) :
    f.firstUnmatched = some q ↔ IsLeast {p | StuckAt f.tokens p} q ∨
      (∀ p, ¬ StuckAt f.tokens p) ∧ IsLeast {p | LeftOpenAt f.tokens p} q := by
  constructor
  · intro h
    rcases unmatchedFrom_cases f.tokens with ⟨hnone, -⟩ | ⟨q', hq, hcase⟩
    · rw [firstUnmatched, hnone] at h
      cases h
    · obtain rfl : q' = q := Option.some.inj (hq.symm.trans h)
      exact hcase.imp id fun ⟨hext, hleast⟩ => ⟨hext.not_stuckAt, hleast⟩
  · intro h
    rcases unmatchedFrom_cases f.tokens with ⟨-, hbal⟩ | ⟨q', hq, hcase⟩
    · rcases h with ⟨hstuck, -⟩ | ⟨-, ⟨before, kind, after, hsplit, -, hopen⟩, -⟩
      · exact absurd hstuck (hbal.extendable.not_stuckAt q)
      · rw [hsplit] at hbal
        exact absurd hbal.closesIn hopen
    · rw [firstUnmatched, hq]
      rcases h with hstuck | ⟨hnone, hopen⟩
      · rcases hcase with hstuck' | ⟨hext, -⟩
        · rw [hstuck'.unique hstuck]
        · exact absurd hstuck.1 (hext.not_stuckAt q)
      · rcases hcase with hstuck' | ⟨-, hopen'⟩
        · exact absurd hstuck'.1 (hnone q')
        · rw [hopen'.unique hopen]

end Fragment

/-! ## Pieces put in and taken out -/

/-- A cut leaves all boundaries as they are, also one that goes through a text. -/
theorem openAfter_cutTokens (pending : List String) (n : Nat) (ts : List Token) :
    openAfter pending ((cutTokens n ts).1 ++ (cutTokens n ts).2) = openAfter pending ts := by
  induction ts generalizing pending n with
  | nil => rfl
  | cons t ts ih =>
    cases n with
    | zero => rw [cutTokens_zero, List.nil_append]
    | succ n =>
      cases t with
      | opening kind => simp only [cutTokens, List.cons_append, openAfter_opening, ih]
      | text s =>
        by_cases hs : Text.units s ≤ n + 1
        · simp only [cutTokens, hs, ↓reduceIte, List.cons_append, openAfter_text, ih]
        · simp only [cutTokens, hs, ↓reduceIte, List.cons_append, List.nil_append, openAfter_text]
      | closing kind =>
        cases pending with
        | nil => rfl
        | cons top pending => simp only [cutTokens, List.cons_append, openAfter, ih]

namespace Fragment

theorem openAfter_cutAt {f front back : Fragment} {position : Nat}
    (h : f.cutAt position = .ok (front, back)) (pending : List String) :
    openAfter pending (front ++ back).tokens = openAfter pending f.tokens := by
  unfold cutAt at h
  split at h
  · cases h
  · simp only [Except.ok.injEq, Prod.mk.injEq] at h
    obtain ⟨rfl, rfl⟩ := h
    rw [← ofTokens_append]
    exact (openAfter_normalize _ _).trans (openAfter_cutTokens pending position f.tokens)

theorem matched_cutAt {f front back : Fragment} {position : Nat}
    (h : f.cutAt position = .ok (front, back)) : (front ++ back).Matched ↔ f.Matched := by
  rw [matched_iff, matched_iff, openAfter_cutAt h]

/-- Three parts that two cuts leave are the whole as far as boundaries go. -/
theorem matched_cutAt_cutAt {f front rest part back : Fragment} {start length : Nat}
    (h : f.cutAt start = .ok (front, rest)) (hrest : rest.cutAt length = .ok (part, back)) :
    (front ++ part ++ back).Matched ↔ f.Matched := by
  rw [← matched_cutAt h, append_assoc, matched_iff, matched_iff]
  rw [openAfter_fragment_append [] front (part ++ back), openAfter_fragment_append [] front rest]
  simp only [openAfter_cutAt hrest]

end Fragment

/-- **Unmatched boundaries are found.** None is found just if the fragment is balanced. Otherwise
the position is that of the first closing boundary with which no balanced row can begin any more,
or, where there is no such boundary, of the first branch that is never closed. Balanced fragments
side by side are balanced, and putting a balanced piece in anywhere or taking one out changes
nothing about whether a fragment is balanced. -/
theorem firstUnmatched_locates (f : Fragment) :
    (f.firstUnmatched = none ↔ Balanced f.tokens) ∧
    (∀ q, f.firstUnmatched = some q ↔ IsLeast {p | StuckAt f.tokens p} q ∨
      (∀ p, ¬ StuckAt f.tokens p) ∧ IsLeast {p | LeftOpenAt f.tokens p} q) ∧
    (∀ g : Fragment, Balanced f.tokens → Balanced g.tokens → Balanced (f ++ g).tokens) ∧
    (∀ position front back, f.cutAt position = .ok (front, back) →
      ∀ x : Fragment, Balanced x.tokens →
        (Balanced (front ++ x ++ back).tokens ↔ Balanced f.tokens)) ∧
    ∀ start length front rest part back, f.cutAt start = .ok (front, rest) →
      rest.cutAt length = .ok (part, back) → Balanced part.tokens →
        (Balanced (front ++ back).tokens ↔ Balanced f.tokens) := by
  simp only [← Fragment.matched_iff_balanced]
  refine ⟨Iff.rfl, f.firstUnmatched_eq_some_iff, fun g => Fragment.Matched.append, ?_, ?_⟩
  · intro position front back hcut x hx
    exact (Fragment.matched_insert hx front back).trans (Fragment.matched_cutAt hcut)
  · intro start length front rest part back hcut hrest hpart
    exact (Fragment.matched_insert hpart front back).symm.trans
      (Fragment.matched_cutAt_cutAt hcut hrest)

/-- A branch around a lone character of two units. -/
def framed : Fragment := .ofTokens [.opening "p", .text "🦀", .closing "p"]

/-- A branch goes in between the halves of the character, and the character comes out. -/
theorem firstUnmatched_locates_framed :
    Balanced (framed ++ framed).tokens ∧
    (∃ front back, framed.cutAt 2 = .ok (front, back) ∧
      Balanced (front ++ .bareBranch "br" ++ back).tokens) ∧
    (∃ front rest part back, framed.cutAt 1 = .ok (front, rest) ∧
      rest.cutAt 2 = .ok (part, back) ∧ Balanced (front ++ back).tokens) ∧
    Fragment.firstUnmatched (.ofTokens [.text "🦀", .opening "p", .closing "q"]) = some 3 ∧
      ¬ Balanced (Fragment.ofTokens [.text "🦀", .opening "p", .closing "q"]).tokens := by
  obtain ⟨-, -, happend, hin, hout⟩ := firstUnmatched_locates framed
  have hframed : Balanced framed.tokens := by decide
  refine ⟨happend framed hframed hframed, ⟨_, _, rfl, (hin 2 _ _ rfl _ (by decide)).mpr hframed⟩,
    ⟨_, _, _, _, rfl, rfl, (hout 1 2 _ _ _ _ rfl rfl (by decide)).mpr hframed⟩, by decide, ?_⟩
  obtain ⟨hnone, -⟩ := firstUnmatched_locates (.ofTokens [.text "🦀", .opening "p", .closing "q"])
  exact mt hnone.mpr (by decide)

end TreePatch
