import TreePatch.Fragment.Balance

/-! Matching of boundaries as one reading with a stack. A fragment is matched when reading it
leaves every stack as it was, so a matched piece can be put in or taken out anywhere
(`matched_insert`). -/

namespace TreePatch

/-- The kinds still open after the tokens, innermost first; nothing if a closing boundary does
not fit. -/
def openAfter : List String → List Token → Option (List String)
  | pending, [] => some pending
  | pending, .opening kind :: ts => openAfter (kind :: pending) ts
  | [], .closing _ :: _ => none
  | top :: pending, .closing kind :: ts => if top = kind then openAfter pending ts else none
  | pending, .text _ :: ts => openAfter pending ts

@[simp] theorem openAfter_nil (pending : List String) : openAfter pending [] = some pending := by
  cases pending <;> rfl

@[simp] theorem openAfter_opening (pending : List String) (kind : String) (ts : List Token) :
    openAfter pending (.opening kind :: ts) = openAfter (kind :: pending) ts := by
  cases pending <;> rfl

@[simp] theorem openAfter_text (pending : List String) (s : String) (ts : List Token) :
    openAfter pending (.text s :: ts) = openAfter pending ts := by
  cases pending <;> rfl

theorem unmatchedFrom_eq_none_iff (pending : List (String × Nat)) (position : Nat)
    (ts : List Token) :
    unmatchedFrom pending position ts = none ↔
      openAfter (pending.map Prod.fst) ts = some [] := by
  induction ts generalizing pending position with
  | nil => simp [unmatchedFrom]
  | cons t ts ih =>
    cases t with
    | opening kind => simp [unmatchedFrom, ih]
    | text s => simp [unmatchedFrom, ih]
    | closing kind =>
      cases pending with
      | nil => simp [unmatchedFrom, openAfter]
      | cons top pending =>
        simp only [unmatchedFrom, List.map_cons, openAfter]
        split <;> simp [ih]

theorem openAfter_append (pending : List String) (a b : List Token) :
    openAfter pending (a ++ b) = (openAfter pending a).bind fun left => openAfter left b := by
  induction a generalizing pending with
  | nil => simp
  | cons t a ih =>
    cases t with
    | opening kind => simp [ih]
    | text s => simp [ih]
    | closing kind =>
      cases pending with
      | nil => simp [openAfter]
      | cons top pending =>
        simp only [List.cons_append, openAfter]
        split <;> simp [ih]

theorem openAfter_joinFront (pending : List String) (t : Token) (ts : List Token) :
    openAfter pending (joinFront t ts) = openAfter pending (t :: ts) := by
  cases t with
  | opening kind => rfl
  | closing kind => rfl
  | text s =>
    cases ts with
    | nil => simp only [joinFront]; split <;> simp
    | cons u us =>
      cases u with
      | text r => simp [joinFront]
      | _ => simp only [joinFront]; split <;> simp

/-- The normal form has the same boundaries. -/
theorem openAfter_normalize (pending : List String) (ts : List Token) :
    openAfter pending (normalize ts) = openAfter pending ts := by
  induction ts generalizing pending with
  | nil => rfl
  | cons t ts ih =>
    rw [normalize_cons, openAfter_joinFront]
    cases t with
    | opening kind => simp [ih]
    | text s => simp [ih]
    | closing kind =>
      cases pending with
      | nil => rfl
      | cons top pending =>
        simp only [openAfter]
        split <;> simp [ih]

/-- What is open around the tokens stays open. -/
theorem openAfter_frame {pending left : List String} {ts : List Token} (outer : List String)
    (h : openAfter pending ts = some left) :
    openAfter (pending ++ outer) ts = some (left ++ outer) := by
  induction ts generalizing pending with
  | nil => simp_all
  | cons t ts ih =>
    cases t with
    | opening kind =>
      rw [openAfter_opening] at h ⊢
      exact ih h
    | text s =>
      rw [openAfter_text] at h ⊢
      exact ih h
    | closing kind =>
      cases pending with
      | nil => simp [openAfter] at h
      | cons top pending =>
        simp only [List.cons_append, openAfter] at h ⊢
        split at h
        · rename_i hk
          rw [if_pos hk]
          exact ih h
        · simp at h

namespace Fragment

/-- Every boundary has its counterpart. -/
def Matched (f : Fragment) : Prop := f.firstUnmatched = none

theorem matched_iff (f : Fragment) : f.Matched ↔ openAfter [] f.tokens = some [] :=
  unmatchedFrom_eq_none_iff [] 0 f.tokens

theorem matched_ofTokens_iff (ts : List Token) :
    (ofTokens ts).Matched ↔ openAfter [] ts = some [] := by
  rw [matched_iff]
  simp only [ofTokens, openAfter_normalize]

theorem openAfter_fragment_append (pending : List String) (f g : Fragment) :
    openAfter pending (f ++ g).tokens =
      (openAfter pending f.tokens).bind fun left => openAfter left g.tokens := by
  simp only [append_def, ofTokens, openAfter_normalize, openAfter_append]

theorem Matched.openAfter {f : Fragment} (h : f.Matched) (pending : List String) :
    openAfter pending f.tokens = some pending :=
  openAfter_frame pending ((matched_iff f).mp h)

theorem matched_empty : empty.Matched := rfl

theorem matched_bareBranch (kind : String) : (bareBranch kind).Matched := by
  rw [matched_iff]
  simp [bareBranch, TreePatch.openAfter]

/-- **A matched piece goes in or comes out anywhere.** -/
theorem matched_insert {x : Fragment} (hx : x.Matched) (f g : Fragment) :
    (f ++ x ++ g).Matched ↔ (f ++ g).Matched := by
  simp only [matched_iff, openAfter_fragment_append, Option.bind_assoc]
  cases openAfter [] f.tokens with
  | none => simp
  | some left => simp [hx.openAfter left]

theorem Matched.append {f g : Fragment} (hf : f.Matched) (hg : g.Matched) : (f ++ g).Matched := by
  have h := matched_insert hf empty g
  rw [empty_append, empty_append] at h
  exact h.mpr hg

/-- What follows a matched beginning is matched by itself. -/
theorem matched_of_append {f g : Fragment} (hf : f.Matched) (h : (f ++ g).Matched) :
    g.Matched := by
  have := matched_insert hf empty g
  rw [empty_append, empty_append] at this
  exact this.mp h

end Fragment
end TreePatch
