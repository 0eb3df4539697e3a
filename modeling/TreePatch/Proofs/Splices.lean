import TreePatch.Proofs.Grammar
import TreePatch.Proofs.Places

/-! A step told by the places of the document. It takes the places between its two positions out
and puts its filler there, or it leaves the document alone (`Document.apply_eq`); a patch is taken
up to the first step that is refused (`Document.applyPatch_longest`). So a document keeps to the
grammar whatever is done to it (`steps_splice`). -/

namespace TreePatch

namespace Step

/-- The position behind the last one that a step takes out. -/
def stop : Step → Nat
  | delete _ stop _ => stop
  | insert position _ => position

/-- What a step puts in. -/
def filler : Step → Fragment
  | delete _ _ replacement => replacement.getD .empty
  | insert _ content => content

/-- The positions are in order and inside a document of the size. -/
def InBounds (step : Step) (size : Nat) : Prop := step.start ≤ step.stop ∧ step.stop ≤ size

instance (step : Step) (size : Nat) : Decidable (step.InBounds size) :=
  inferInstanceAs (Decidable (_ ∧ _))

/-- The position that is named when a step is out of bounds. -/
def stray (step : Step) (size : Nat) : Nat :=
  if step.stop < step.start ∨ size < step.start then step.start else step.stop

end Step

namespace Document

/-- The places before a step, its filler, and the places behind it. -/
def spliced (d : Document) (step : Step) : Fragment :=
  .ofPlaces (d.content.places.take step.start) ++ step.filler ++
    .ofPlaces (d.content.places.drop step.stop)

/-- Why a step is refused. Positions come first, then emptiness, then boundaries. -/
inductive Refuses (d : Document) (step : Step) : Error → Prop
  | stray : ¬ step.InBounds d.size → Refuses d step (.outOfBounds (step.stray d.size) d.size)
  | empty : step.InBounds d.size → (d.spliced step).tokens = [] → Refuses d step .noContent
  | unmatched {position : Nat} : step.InBounds d.size → (d.spliced step).tokens ≠ [] →
      (d.spliced step).firstUnmatched = some position →
      Refuses d step (.unmatchedBoundary position)

/-- Two cuts, each with an error of its own, make one splice. -/
theorem splice_eq (d : Document) (start removed : Nat) (content : Fragment) :
    d.splice start removed content =
      if d.size < start then .error (.outOfBounds start d.size)
      else if d.size < start + removed then .error (.outOfBounds (start + removed) d.size)
      else ofFragment (.ofPlaces (d.content.places.take start) ++ content ++
        .ofPlaces (d.content.places.drop (start + removed))) := by
  unfold splice
  by_cases hstart : d.size < start
  · have hcut := (d.content.cutAt_eq_error_iff start _).mpr ⟨hstart, rfl⟩
    rw [if_pos hstart, hcut]
    rfl
  · have hle : start ≤ d.content.size := Nat.le_of_not_lt hstart
    have hcut := (d.content.cutAt_eq_ok_iff _ _ start).mpr ⟨hle, rfl, rfl⟩
    have hrest := d.content.size_ofPlaces_drop hle
    rw [if_neg hstart, hcut]
    simp only [bind, Except.bind]
    by_cases hstop : d.size < start + removed
    · have hlt : (Fragment.ofPlaces (d.content.places.drop start)).size < removed := by
        rw [hrest]
        simp only [size] at hstop
        omega
      rw [if_pos hstop, (Fragment.cutAt_eq_error_iff _ removed _).mpr ⟨hlt, rfl⟩]
      rfl
    · have hle' : removed ≤ (Fragment.ofPlaces (d.content.places.drop start)).size := by
        rw [hrest]
        simp only [size] at hstop
        omega
      rw [if_neg hstop, (Fragment.cutAt_eq_ok_iff _ _ _ removed).mpr ⟨hle', rfl, rfl⟩,
        Fragment.ofPlaces_drop_ofPlaces]

/-- **A step is a splice** or leaves the document alone. -/
theorem apply_eq (d : Document) (step : Step) :
    d.apply step =
      if step.InBounds d.size then ofFragment (d.spliced step)
      else .error (.outOfBounds (step.stray d.size) d.size) := by
  cases step with
  | insert position content =>
    simp only [apply, splice_eq, Step.InBounds, Step.stray, spliced, Step.start, Step.stop,
      Step.filler, Nat.add_zero, Nat.le_refl, true_and, Nat.lt_irrefl, false_or]
    by_cases h : d.size < position
    · simp [h, Nat.not_le_of_lt h]
    · simp [h, Nat.le_of_not_lt h]
  | delete start stop replacement =>
    simp only [apply, splice_eq, Step.InBounds, Step.stray, spliced, Step.start, Step.stop,
      Step.filler]
    by_cases hrev : stop < start
    · simp [hrev, Nat.not_le_of_lt hrev]
    · have hsum : start + (stop - start) = stop := by omega
      simp only [hrev, ↓reduceIte, hsum, false_or, Nat.le_of_not_lt hrev, true_and]
      by_cases hstart : d.size < start
      · have hstop : ¬ stop ≤ d.size := by omega
        simp [hstart, hstop]
      · by_cases hstop : d.size < stop
        · simp [hstart, hstop, Nat.not_le_of_lt hstop]
        · simp [hstart, hstop, Nat.le_of_not_lt hstop]

theorem size_spliced {d : Document} {step : Step} (h : step.InBounds d.size) :
    (d.spliced step).size = d.size - (step.stop - step.start) + step.filler.size := by
  obtain ⟨hle, hstop⟩ := h
  simp only [size] at hstop ⊢
  rw [spliced, Fragment.size_append, Fragment.size_append,
    Fragment.size_ofPlaces_take _ (by omega), Fragment.size_ofPlaces_drop _ hstop]
  omega

theorem apply_eq_ok_iff (d e : Document) (step : Step) :
    d.apply step = .ok e ↔ step.InBounds d.size ∧ (d.spliced step).tokens ≠ [] ∧
      Balanced (d.spliced step).tokens ∧ e.content = d.spliced step := by
  rw [apply_eq]
  split
  · rename_i h
    rw [ofFragment_eq_ok_iff]
    simp [h]
  · rename_i h
    simp [h]

theorem exists_apply_iff (d : Document) (step : Step) :
    (∃ e, d.apply step = .ok e) ↔ step.InBounds d.size ∧ (d.spliced step).tokens ≠ [] ∧
      Balanced (d.spliced step).tokens := by
  simp only [apply_eq_ok_iff]
  constructor
  · rintro ⟨e, hb, hne, hbal, -⟩
    exact ⟨hb, hne, hbal⟩
  · rintro ⟨hb, hne, hbal⟩
    obtain ⟨hsize, hm⟩ := (fit_iff _).mpr ⟨hne, hbal⟩
    exact ⟨⟨_, (isEmpty_eq_false_iff _).mpr hsize, hm⟩, hb, hne, hbal, rfl⟩

theorem apply_eq_error_iff (d : Document) (step : Step) (reason : Error) :
    d.apply step = .error reason ↔ d.Refuses step reason := by
  rw [apply_eq]
  split
  · rename_i h
    rw [ofFragment_eq_error_iff]
    constructor
    · rintro (⟨hnil, rfl⟩ | ⟨hne, position, hp, rfl⟩)
      · exact .empty h hnil
      · exact .unmatched h hne hp
    · rintro (hout | ⟨-, hnil⟩ | ⟨-, hne, hp⟩)
      · exact absurd h hout
      · exact Or.inl ⟨hnil, rfl⟩
      · exact Or.inr ⟨hne, _, hp, rfl⟩
  · rename_i h
    simp only [Except.error.injEq]
    constructor
    · rintro rfl
      exact .stray h
    · rintro (- | ⟨hin, -⟩ | ⟨hin, -, -⟩)
      · rfl
      · exact absurd hin h
      · exact absurd hin h

/-- The document after so many steps, all of which succeed. -/
def after (d : Document) (patch : Patch) (count : Nat) : Except Error Document :=
  (patch.take count).foldlM apply d

theorem after_succ {d e : Document} {step : Step} (h : d.apply step = .ok e) (patch : Patch)
    (count : Nat) : d.after (step :: patch) (count + 1) = e.after patch count := by
  simp [after, List.foldlM_cons, h, bind, Except.bind]

/-- Of a patch is taken the longest beginning that succeeds, and the next step is refused. -/
structure Carries (d : Document) (patch : Patch) (count : Nat) : Prop where
  within : count ≤ patch.length
  reached : d.after patch count = .ok (d.applyPatch patch).1
  longest : ∀ more ≤ patch.length, (∃ e, d.after patch more = .ok e) → more ≤ count
  ended : (d.applyPatch patch).2 = none ↔ count = patch.length
  refused : ∀ step, patch[count]? = some step →
    ∃ reason, (d.applyPatch patch).1.apply step = .error reason ∧
      (d.applyPatch patch).2 = some reason

theorem applyPatch_longest (d : Document) (patch : Patch) : ∃ count, d.Carries patch count := by
  induction patch generalizing d with
  | nil =>
    refine ⟨0, Nat.le_refl _, rfl, fun more hm _ => hm, by simp [applyPatch], ?_⟩
    intro step hs
    cases hs
  | cons step patch ih =>
    cases hstep : d.apply step with
    | ok e =>
      obtain ⟨count, h⟩ := ih e
      have hpatch : d.applyPatch (step :: patch) = e.applyPatch patch := by
        simp only [applyPatch, hstep]
      refine ⟨count + 1, Nat.succ_le_succ h.within, ?_, ?_, ?_, ?_⟩
      · rw [after_succ hstep, hpatch, h.reached]
      · intro more hm hok
        cases more with
        | zero => exact Nat.zero_le _
        | succ more =>
          rw [after_succ hstep] at hok
          exact Nat.succ_le_succ (h.longest more (Nat.le_of_succ_le_succ hm) hok)
      · rw [hpatch, h.ended, List.length_cons, Nat.add_right_cancel_iff]
      · intro next hn
        rw [hpatch]
        exact h.refused next hn
    | error reason =>
      have hpatch : d.applyPatch (step :: patch) = (d, some reason) := by
        simp only [applyPatch, hstep]
      refine ⟨0, Nat.zero_le _, by rw [hpatch]; rfl, ?_, by simp [hpatch], ?_⟩
      · rintro more - ⟨e, he⟩
        cases more with
        | zero => exact Nat.le_refl _
        | succ more => simp [after, List.foldlM_cons, hstep, bind, Except.bind] at he
      · intro next hn
        obtain rfl : step = next := by simpa using hn
        rw [hpatch]
        exact ⟨reason, hstep, rfl⟩

end Document

/-- **Steps splice or do nothing.** Every document holds something, keeps to the grammar and is in
normal form. A step succeeds just if its positions are in bounds and what it leaves holds something
and is balanced; that is then the content, and its size tells what went and what came. Otherwise the
error is the first that applies and the document stays as it was. Of a patch is taken the longest
beginning that succeeds. -/
theorem steps_splice (d : Document) :
    (d.content.tokens ≠ [] ∧ Balanced d.content.tokens ∧ Normal d.content.tokens) ∧
    (∀ step,
      ((∃ e, d.apply step = .ok e) ↔ step.InBounds d.size ∧ (d.spliced step).tokens ≠ [] ∧
        Balanced (d.spliced step).tokens) ∧
      (∀ e, d.apply step = .ok e → e.content = d.spliced step ∧
        e.size = d.size - (step.stop - step.start) + step.filler.size) ∧
      ∀ reason, (d.apply step = .error reason ↔ d.Refuses step reason) ∧
        (d.Refuses step reason → d.applyPatch [step] = (d, some reason))) ∧
    ∀ patch, ∃ count, d.Carries patch count := by
  obtain ⟨hne, hbal⟩ := (Document.fit_iff _).mp d.fit
  refine ⟨⟨hne, hbal, d.content.normal⟩, fun step => ⟨d.exists_apply_iff step, ?_, ?_⟩,
    d.applyPatch_longest⟩
  · intro e he
    obtain ⟨hin, -, -, hcontent⟩ := (d.apply_eq_ok_iff e step).mp he
    exact ⟨hcontent, by rw [Document.size, hcontent, Document.size_spliced hin]⟩
  · intro reason
    refine ⟨d.apply_eq_error_iff step reason, fun h => ?_⟩
    simp only [Document.applyPatch, (d.apply_eq_error_iff step reason).mpr h]

/-- The surface of a lone character that takes up two positions. -/
def pairSurface : Document := ⟨.ofTokens [.text "🦀"], by decide, by decide⟩

def mark : Fragment := .ofTokens [.text "x"]

/-- An insertion in the middle of the character, and then a deletion that would leave nothing. -/
theorem steps_splice_pair :
    (∃ e, pairSurface.apply (.insert 1 mark) = .ok e ∧
      e.content = .ofTokens [.text "\uFFFDx\uFFFD"] ∧ e.size = 3) ∧
    pairSurface.applyPatch [.delete 0 2 none] = (pairSurface, some .noContent) ∧
    pairSurface.applyPatch [.delete 2 1 none] = (pairSurface, some (.outOfBounds 2 2)) := by
  obtain ⟨-, hsteps, -⟩ := steps_splice pairSurface
  obtain ⟨hok, hinto, -⟩ := hsteps (.insert 1 mark)
  obtain ⟨e, he⟩ := hok.mpr (by decide)
  obtain ⟨hcontent, hsize⟩ := hinto e he
  refine ⟨⟨e, he, hcontent.trans (by decide), hsize.trans (by decide)⟩, ?_, ?_⟩
  · exact ((hsteps (.delete 0 2 none)).2.2 _).2 (.empty (by decide) (by decide))
  · exact ((hsteps (.delete 2 1 none)).2.2 _).2 (.stray (by decide))

end TreePatch
