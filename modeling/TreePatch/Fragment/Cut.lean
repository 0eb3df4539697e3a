import TreePatch.Fragment.Basic
import TreePatch.Error
import TreePatch.Extent

/-! Fragments cut at positions. A cut inside a text cuts the text. -/

namespace TreePatch

/-- The tokens of the first `n` positions and those after them. -/
def cutTokens : Nat → List Token → List Token × List Token
  | _, [] => ([], [])
  | 0, ts => ([], ts)
  | n + 1, .text s :: ts =>
    if Text.units s ≤ n + 1 then
      let (before, after) := cutTokens (n + 1 - Text.units s) ts
      (.text s :: before, after)
    else
      let (head, tail) := Text.cut (n + 1) s
      ([.text head], .text tail :: ts)
  | n + 1, t :: ts =>
    let (before, after) := cutTokens n ts
    (t :: before, after)

theorem cutTokens_zero (ts : List Token) : cutTokens 0 ts = ([], ts) := by
  cases ts <;> rfl

/-- A cut inside the tokens gives the first part just the width asked for. -/
theorem cutTokens_width (n : Nat) (ts : List Token) (h : n ≤ Token.listWidth ts) :
    Token.listWidth (cutTokens n ts).1 = n ∧
      Token.listWidth (cutTokens n ts).2 = Token.listWidth ts - n := by
  induction ts generalizing n with
  | nil => simp_all [cutTokens]
  | cons t ts ih =>
    cases n with
    | zero => simp [cutTokens_zero]
    | succ n =>
      rw [Token.listWidth_cons] at h
      cases t with
      | text s =>
        simp only [Token.width] at h
        by_cases hs : Text.units s ≤ n + 1
        · have := ih (n + 1 - Text.units s) (by omega)
          simp only [cutTokens, hs, ↓reduceIte, Token.listWidth_cons, Token.width]
          omega
        · have := Text.units_cut (n + 1) s (by omega)
          simp only [cutTokens, hs, ↓reduceIte, Token.listWidth_cons, Token.listWidth_nil,
            Token.width]
          omega
      | _ =>
        simp only [Token.width] at h
        have := ih n (by omega)
        simp only [cutTokens, Token.listWidth_cons, Token.width]
        omega

namespace Fragment

def cutAt (f : Fragment) (position : Nat) : Except Error (Fragment × Fragment) :=
  if f.size < position then .error (.outOfBounds position f.size)
  else
    let (before, after) := cutTokens position f.tokens
    .ok (ofTokens before, ofTokens after)

/-- The content inside an extent. The error for a stop past the end counts from the start. -/
def slice (f : Fragment) (e : Extent) : Except Error Fragment := do
  if e.stop < e.start then throw (.outOfBounds e.start e.stop)
  let (_, rest) ← f.cutAt e.start
  let (inside, _) ← rest.cutAt e.length
  return inside

theorem cutAt_eq_error_iff (f : Fragment) (position : Nat) (e : Error) :
    f.cutAt position = .error e ↔ f.size < position ∧ e = .outOfBounds position f.size := by
  unfold cutAt
  split
  · simp_all [eq_comm]
  · simp only [reduceCtorEq, false_iff]
    rintro ⟨_, _⟩
    contradiction

theorem cutAt_size {f before after : Fragment} {position : Nat}
    (h : f.cutAt position = .ok (before, after)) :
    before.size = position ∧ after.size = f.size - position := by
  unfold cutAt at h
  split at h
  · simp at h
  · rename_i hle
    have := cutTokens_width position f.tokens (by simp only [size] at hle; omega)
    simp only [Except.ok.injEq, Prod.mk.injEq] at h
    obtain ⟨rfl, rfl⟩ := h
    rw [size_ofTokens, size_ofTokens]
    exact this

end Fragment
end TreePatch
