import TreePatch.Settle

/-! Scaffolds are well nested, and every branch in one keeps a subtree. So a boundary always
has its enclosure, and where two scaffolds part there is always something to uproot
(`displaced_ne_nil`). -/

namespace TreePatch

namespace Scaffold

/-- Every boundary has its counterpart, and something is kept between the two. -/
inductive Nested : Scaffold → Prop
  | nil : Nested []
  | kept (h : Handle) {s : Scaffold} : Nested s → Nested (.kept h :: s)
  | branch (kind : String) {inside after : Scaffold} : Nested inside →
      inside.keptHandles ≠ [] → Nested after →
      Nested (.opening kind :: (inside ++ .closing kind :: after))

@[simp] theorem keptHandles_nil : keptHandles [] = [] := rfl

@[simp] theorem keptHandles_opening (kind : String) (s : List Piece) :
    keptHandles (.opening kind :: s) = keptHandles s := rfl

@[simp] theorem keptHandles_closing (kind : String) (s : List Piece) :
    keptHandles (.closing kind :: s) = keptHandles s := rfl

@[simp] theorem keptHandles_append (a b : Scaffold) :
    keptHandles (a ++ b) = keptHandles a ++ keptHandles b := by
  simp [keptHandles]

theorem Nested.append {a b : Scaffold} (ha : Nested a) (hb : Nested b) : Nested (a ++ b) := by
  induction ha with
  | nil => exact hb
  | kept h _ ih => exact .kept h ih
  | branch kind hi hk _ _ ih =>
    simpa using Nested.branch kind hi hk ih

theorem Nested.eq_nil {s : Scaffold} (hs : Nested s) (h : keptHandles s = []) : s = [] := by
  cases hs with
  | nil => rfl
  | kept k _ => simp [keptHandles, Piece.kept?] at h
  | branch kind _ hk _ =>
    rw [keptHandles_opening, keptHandles_append, List.append_eq_nil_iff] at h
    exact absurd h.1 hk

/-- A nested stretch is passed over on the way to the closing boundary. -/
theorem reachClosing_append {s : Scaffold} (hs : Nested s) (depth : Nat) (rest : List Piece) :
    reachClosing (depth + 1) (s ++ rest) =
      (reachClosing (depth + 1) rest).map (· + s.length) := by
  induction hs generalizing depth rest with
  | nil => simp
  | kept h _ ih =>
    simp only [List.cons_append, reachClosing, ih, Option.map_map, List.length_cons]
    congr 1
  | branch kind _ _ _ ihi iha =>
    simp only [List.cons_append, List.append_assoc, reachClosing, ihi, Option.map_map,
      List.length_cons, List.length_append]
    rw [if_neg (by omega)]
    simp only [Nat.add_sub_cancel, iha, Option.map_map]
    congr 1
    funext n
    simp only [Function.comp_apply]
    omega

/-- The same on the way back to the opening boundary. -/
theorem reachOpening_append {s : Scaffold} (hs : Nested s) (depth : Nat) (rest : List Piece) :
    reachOpening (depth + 1) (s.reverse ++ rest) =
      (reachOpening (depth + 1) rest).map (· + s.length) := by
  induction hs generalizing depth rest with
  | nil => simp
  | kept h _ ih =>
    simp only [List.reverse_cons, List.append_assoc, List.singleton_append, ih, reachOpening,
      Option.map_map, List.length_cons]
    congr 1
    funext n
    simp only [Function.comp_apply]
    omega
  | branch kind _ _ _ ihi iha =>
    simp only [List.reverse_cons, List.reverse_append, List.append_assoc, List.cons_append,
      List.nil_append, iha, reachOpening, ihi, Option.map_map, List.length_cons,
      List.length_append]
    rw [if_neg (by omega)]
    simp only [Nat.add_sub_cancel, Option.map_map]
    congr 1
    funext n
    simp only [Function.comp_apply]
    omega

/-- A boundary of a nested scaffold is one of a pair. -/
theorem Nested.pair {s : Scaffold} (hs : Nested s) {i : Nat} {p : Piece} (hi : s[i]? = some p)
    (hp : p.kept? = none) :
    ∃ front kind inside rest, s = front ++ .opening kind :: (inside ++ .closing kind :: rest) ∧
      Nested inside ∧ inside.keptHandles ≠ [] ∧
      (i = front.length ∨ i = front.length + inside.length + 1) := by
  induction hs generalizing i with
  | nil => simp at hi
  | @kept h s _ ih =>
    cases i with
    | zero =>
      simp only [List.getElem?_cons_zero, Option.some.injEq] at hi
      subst hi
      simp [Piece.kept?] at hp
    | succ i =>
      obtain ⟨front, kind, inside, rest, he, hn, hk, hpos⟩ := ih (by simpa using hi)
      refine ⟨.kept h :: front, kind, inside, rest, by simp [he], hn, hk, ?_⟩
      simp only [List.length_cons]
      omega
  | @branch kind inside after hn hk _ ihi iha =>
    cases i with
    | zero => exact ⟨[], kind, inside, after, rfl, hn, hk, Or.inl rfl⟩
    | succ i =>
      rw [List.getElem?_cons_succ] at hi
      by_cases hlt : i < inside.length
      · rw [List.getElem?_append_left hlt] at hi
        obtain ⟨front, kind', inside', rest, he, hn', hk', hpos⟩ := ihi hi
        refine ⟨.opening kind :: front, kind', inside', rest ++ .closing kind :: after,
          by simp [he], hn', hk', ?_⟩
        simp only [List.length_cons]
        omega
      · rw [List.getElem?_append_right (by omega)] at hi
        obtain ⟨j, hj⟩ : ∃ j, i - inside.length = j := ⟨_, rfl⟩
        rw [hj] at hi
        cases j with
        | zero =>
          refine ⟨[], kind, inside, after, rfl, hn, hk, Or.inr ?_⟩
          simp only [List.length_nil]
          omega
        | succ j =>
          obtain ⟨front, kind', inside', rest, he, hn', hk', hpos⟩ := iha (by simpa using hi)
          refine ⟨.opening kind :: (inside ++ .closing kind :: front), kind', inside', rest,
            by simp [he], hn', hk', ?_⟩
          simp only [List.length_cons, List.length_append]
          omega

/-- **Both boundaries of a pair have the pair as their enclosure.** -/
theorem enclosureAt_pair {front inside rest : Scaffold} (kind : String) (hn : Nested inside)
    {i : Nat} (hi : i = front.length ∨ i = front.length + inside.length + 1) :
    enclosureAt (front ++ .opening kind :: (inside ++ .closing kind :: rest)) i =
      some ⟨front.length, front.length + inside.length + 2⟩ := by
  rcases hi with rfl | rfl
  · unfold enclosureAt
    simp only [List.getElem?_append_right (Nat.le_refl _), Nat.sub_self, List.getElem?_cons_zero,
      List.drop_left, reachClosing, Nat.zero_add]
    rw [reachClosing_append hn 0]
    simp only [reachClosing, ↓reduceIte, Option.map_some, Option.some.injEq, Extent.mk.injEq,
      true_and]
    omega
  · have hget : (front ++ Piece.opening kind :: (inside ++ .closing kind :: rest))[
        front.length + inside.length + 1]? = some (.closing kind) := by
      rw [List.getElem?_append_right (by omega)]
      simp [show front.length + inside.length + 1 - front.length = inside.length + 1 by omega]
    have htake : (front ++ Piece.opening kind :: (inside ++ .closing kind :: rest)).take
        (front.length + inside.length + 1 + 1) =
          front ++ .opening kind :: (inside ++ [.closing kind]) := by
      rw [List.take_append, List.take_of_length_le (by omega)]
      have hin : inside.take (inside.length + 1) = inside := List.take_of_length_le (by omega)
      simp [show front.length + inside.length + 1 + 1 - front.length = inside.length + 1 + 1 by
        omega, List.take_append, hin]
    unfold enclosureAt
    rw [hget, htake]
    simp only [List.reverse_append, List.reverse_cons, List.reverse_nil, List.nil_append,
      List.append_assoc, List.cons_append, reachOpening, Nat.zero_add]
    rw [reachOpening_append hn 0]
    simp only [reachOpening, ↓reduceIte, Option.map_some, Option.some.injEq, Extent.mk.injEq,
      and_true]
    omega

/-- What is kept around either boundary of a pair is what is kept between them. -/
theorem keptAround_pair {front inside rest : Scaffold} (kind : String) (hn : Nested inside)
    {i : Nat} (hi : i = front.length ∨ i = front.length + inside.length + 1) :
    keptAround (front ++ .opening kind :: (inside ++ .closing kind :: rest)) i =
      inside.keptHandles := by
  have hmid : ((front ++ Piece.opening kind :: (inside ++ .closing kind :: rest)).take
      (front.length + inside.length + 2)).drop front.length =
        .opening kind :: (inside ++ [.closing kind]) := by
    rw [List.drop_take]
    have hin : inside.take (inside.length + 1) = inside := List.take_of_length_le (by omega)
    simp [show front.length + inside.length + 2 - front.length = inside.length + 1 + 1 by omega,
      List.take_append, hin]
  unfold keptAround
  simp only [enclosureAt_pair kind hn hi, hmid]
  simp [keptHandles_append inside]

theorem keptAround_ne_nil {s : Scaffold} (hs : Nested s) {i : Nat} {p : Piece}
    (hi : s[i]? = some p) (hp : p.kept? = none) : s.keptAround i ≠ [] := by
  obtain ⟨front, kind, inside, rest, rfl, hn, hk, hpos⟩ := hs.pair hi hp
  rwa [keptAround_pair kind hn hpos]

/-- **Where two scaffolds part, something cannot stay.** -/
theorem displaced_ne_nil {a b : Scaffold} (ha : Nested a) (hb : Nested b) (hne : a ≠ b) :
    displaced a b ≠ [] := by
  unfold displaced
  cases hd : firstDifference a b with
  | none => exact absurd ((firstDifference_eq_none_iff a b).mp hd) hne
  | some i =>
    have hdiff := (take_eq_of_firstDifference hd).2
    simp only [displacedAt]
    split
    · rename_i hempty
      simp only [List.isEmpty_iff, List.append_eq_nil_iff] at hempty
      -- no subtree is kept here on either side, so one side has a boundary
      have around : ∀ s : Scaffold, Nested s → s.keptAt i = [] → s[i]? ≠ none →
          s.keptAround i ≠ [] := by
        intro s hs hk hsome
        cases hp : s[i]? with
        | none => exact absurd hp hsome
        | some p =>
          refine keptAround_ne_nil hs hp ?_
          simpa [keptAt, hp] using hk
      intro h
      rw [List.append_eq_nil_iff] at h
      have hna : a[i]? = none := Classical.byContradiction fun hx => around a ha hempty.1 hx h.1
      have hnb : b[i]? = none := Classical.byContradiction fun hx => around b hb hempty.2 hx h.2
      exact hdiff (hna.trans hnb.symm)
    · rename_i hsome
      simpa using hsome

theorem displaced_eq_nil_iff {a b : Scaffold} (ha : Nested a) (hb : Nested b) :
    displaced a b = [] ↔ a = b := by
  refine ⟨fun h => Classical.byContradiction fun hne => displaced_ne_nil ha hb hne h, ?_⟩
  rintro rfl
  simp [displaced, (firstDifference_eq_none_iff a a).mpr rfl]

theorem ofSegments_append (a b : List Segment) :
    ofSegments (a ++ b) = ofSegments a ++ ofSegments b := by
  simp [ofSegments]

theorem keptHandles_ne_nil {segments : List Segment}
    (h : segments.any Segment.isKept = true) : (ofSegments segments).keptHandles ≠ [] := by
  obtain ⟨s, hs, hk⟩ := List.any_eq_true.mp h
  cases s with
  | kept n =>
    have hm : n.handle ∈ (ofSegments segments).keptHandles :=
      (mem_keptHandles _ _).mpr ((mem_ofSegments _ _).mpr ⟨n, hs, rfl⟩)
    exact List.ne_nil_of_mem hm
  | _ => simp [Segment.isKept] at hk

end Scaffold

open Scaffold

mutual

theorem nested_survey (s : Sieve) (n : Node) : Nested (ofSegments (survey s n)) := by
  cases n with
  | leaf tag text =>
    unfold survey
    split
    · exact .kept _ .nil
    · exact .nil
  | branch tag kind children =>
    unfold survey
    split
    · exact .kept _ .nil
    · split
      · exact .nil
      · simp only
        split
        · rename_i hany
          have h := Nested.branch kind (nested_surveyAmong s children)
            (keptHandles_ne_nil hany) .nil
          simpa [ofSegments, Segment.piece?] using h
        · exact .nil

theorem nested_surveyAmong (s : Sieve) (ns : List Node) :
    Nested (ofSegments (surveyAmong s ns)) := by
  cases ns with
  | nil => exact .nil
  | cons n ns =>
    rw [surveyAmong, ofSegments_append]
    exact (nested_survey s n).append (nested_surveyAmong s ns)

end

/-- The scaffold of a whole tree is nested. -/
theorem nested_surveyRoot (s : Sieve) (root : Node) : Nested (ofSegments (surveyRoot s root)) := by
  unfold surveyRoot
  split
  · exact .kept _ .nil
  · split
    · exact .nil
    · rw [surveyAmongOnto_eq, List.append_nil]
      exact nested_surveyAmong s _

/-- What the rounds keep true: both surveys are those of the handles uprooted so far. -/
theorem settleFrom_spec (claimed : Handle → Generation) (old new : Node)
    (uprooted : Std.TreeSet Handle) :
    (settleFrom claimed old new uprooted).old =
        surveyOld claimed (settleFrom claimed old new uprooted).uprooted.contains old ∧
      (settleFrom claimed old new uprooted).new =
        surveyNew (settleFrom claimed old new uprooted).uprooted.contains new ∧
      uprootNext claimed old new (settleFrom claimed old new uprooted).uprooted.contains = [] := by
  fun_induction settleFrom claimed old new uprooted with
  | case1 uprooted h => exact ⟨rfl, rfl, h⟩
  | case2 uprooted _ ih => exact ih

/-- **Once the rounds end, the scaffolds agree.** -/
theorem settle_agrees (claimed : Handle → Generation) (old new : Node) :
    ofSegments (settle claimed old new).old = ofSegments (settle claimed old new).new := by
  obtain ⟨ho, hn, hnext⟩ := settleFrom_spec claimed old new ∅
  rw [settle, ho, hn]
  exact (displaced_eq_nil_iff (nested_surveyRoot _ old) (nested_surveyRoot _ new)).mp hnext

theorem contains_nothing : (∅ : Std.TreeSet Handle).contains = fun _ => false := by
  funext h
  simp

/-- Surveys that agree from the start are settled. -/
theorem settle_of_agree {claimed : Handle → Generation} {old new : Node}
    (h : uprootNext claimed old new (fun _ => false) = []) :
    settle claimed old new =
      ⟨surveyOld claimed (fun _ => false) old, surveyNew (fun _ => false) new, ∅⟩ := by
  rw [settle, settleFrom, contains_nothing, if_pos h]

end TreePatch
