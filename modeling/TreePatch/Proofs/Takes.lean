import TreePatch.Proofs.Joint
import TreePatch.Proofs.Matching

/-! What patches do to a surface. A step between joints of the content does just what it
says, as long as something is left and the boundaries match. -/

namespace TreePatch

/-- Fit to be the content of a document. -/
def Fragment.Fit (f : Fragment) : Prop := f.size ≠ 0 ∧ f.Matched

namespace Document

@[ext] theorem ext {d e : Document} (h : d.content = e.content) : d = e := by
  cases d; cases e; cases h; rfl

theorem isEmpty_eq_false_iff (f : Fragment) : f.isEmpty = false ↔ f.size ≠ 0 := by
  rw [← Bool.not_eq_true, Fragment.isEmpty_iff_size_eq_zero]

theorem fit (d : Document) : d.content.Fit :=
  ⟨(isEmpty_eq_false_iff _).mp d.inhabited, d.matched⟩

theorem ofFragment_of_fit {f : Fragment} (h : f.Fit) :
    Document.ofFragment f = .ok ⟨f, (isEmpty_eq_false_iff f).mpr h.1, h.2⟩ := by
  have he := (isEmpty_eq_false_iff f).mpr h.1
  have hm : f.firstUnmatched = none := h.2
  unfold ofFragment
  rw [dif_neg (by simp [he])]
  split
  · rename_i position hp
    rw [hm] at hp
    cases hp
  · rfl

theorem content_of_ofFragment {f : Fragment} {d : Document} (h : Document.ofFragment f = .ok d) :
    d.content = f := by
  unfold ofFragment at h
  split at h
  · cases h
  · split at h
    · cases h
    · cases h
      rfl

theorem applyPatch_append {d e : Document} {a : Patch} (b : Patch)
    (h : d.applyPatch a = (e, none)) : d.applyPatch (a ++ b) = e.applyPatch b := by
  induction a generalizing d with
  | nil =>
    simp only [applyPatch, Prod.mk.injEq, and_true] at h
    rw [List.nil_append, h]
  | cons step a ih =>
    simp only [List.cons_append, applyPatch] at h ⊢
    cases hs : d.apply step with
    | ok next =>
      simp only [hs] at h ⊢
      exact ih h
    | error reason => simp [hs] at h

/-- A deletion between joints puts its replacement in place of just the middle part. -/
theorem apply_delete_append {d : Document} {f x g : Fragment} (hd : d.content = f ++ x ++ g)
    (replacement : Option Fragment) :
    d.apply (.delete f.size (f.size + x.size) replacement) =
      ofFragment (f ++ replacement.getD .empty ++ g) := by
  have hlt : ¬ f.size + x.size < f.size := by omega
  have hlen : f.size + x.size - f.size = x.size := by omega
  simp only [apply, hlt, ↓reduceIte, hlen]
  exact d.splice_append f x g _ hd

end Document

/-- A surface that holds the first content takes every step and then holds the second. -/
def Patch.Takes (patch : Patch) (f g : Fragment) : Prop :=
  ∀ d : Document, d.content = f → ∃ e : Document, d.applyPatch patch = (e, none) ∧ e.content = g

namespace Patch

theorem takes_nil (f : Fragment) : Takes [] f f := fun d hd => ⟨d, rfl, hd⟩

theorem Takes.append {a b : Patch} {f g h : Fragment} (ha : Takes a f g) (hb : Takes b g h) :
    Takes (a ++ b) f h := by
  intro d hd
  obtain ⟨e, he, hg⟩ := ha d hd
  obtain ⟨e', he', hh⟩ := hb e hg
  exact ⟨e', (Document.applyPatch_append b he).trans he', hh⟩

theorem takes_of_apply {step : Step} {f g : Fragment}
    (h : ∀ d : Document, d.content = f → d.apply step = Document.ofFragment g) (fit : g.Fit) :
    Takes [step] f g := by
  intro d hd
  refine ⟨⟨g, (Document.isEmpty_eq_false_iff g).mpr fit.1, fit.2⟩, ?_, rfl⟩
  simp only [Document.applyPatch, h d hd, Document.ofFragment_of_fit fit]

theorem takes_delete (f x g : Fragment) (replacement : Option Fragment)
    (fit : (f ++ replacement.getD .empty ++ g).Fit) :
    Takes [.delete f.size (f.size + x.size) replacement] (f ++ x ++ g)
      (f ++ replacement.getD .empty ++ g) :=
  takes_of_apply (fun _ hd => Document.apply_delete_append hd replacement) fit

theorem takes_insert (f x g : Fragment) (fit : (f ++ x ++ g).Fit) :
    Takes [.insert f.size x] (f ++ g) (f ++ x ++ g) := by
  refine takes_of_apply (fun d hd => ?_) fit
  refine d.splice_append f .empty g x ?_
  rw [hd, Fragment.append_empty]

end Patch
end TreePatch
