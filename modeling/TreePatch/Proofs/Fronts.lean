import TreePatch.Proofs.RootReuse
import TreePatch.Proofs.Rounds

/-! What both trees begin with. A front that both first scaffolds share, and in which every branch
is closed, is never drawn into the rounds: only what is kept behind it is displaced, and a tree
whose handles are all different keeps nothing of the front there (`front_stays`). -/

namespace TreePatch

open Segment Scaffold

namespace Scaffold

/-- Every branch that opens in the row is closed in it. -/
def Closed (s : Scaffold) : Prop :=
  ∀ i kind, s[i]? = some (.opening kind) → s.enclosureAt i ≠ none

variable {s u a b : Scaffold}

theorem Closed.reaches (hc : Closed s) (front : Scaffold) {rest : Scaffold} {kind : String}
    (hs : s = front ++ .opening kind :: rest) : reachClosing 1 rest ≠ none := by
  subst hs
  intro hnone
  have hget : (front ++ Piece.opening kind :: rest)[front.length]? = some (.opening kind) := by
    rw [List.getElem?_append_right (Nat.le_refl _), Nat.sub_self, List.getElem?_cons_zero]
  refine hc front.length kind hget ?_
  simp only [enclosureAt, hget, List.drop_left, reachClosing, Nat.zero_add, hnone, Option.map_none]

/-- What is behind the pieces can only be closed by itself. -/
theorem closed_of_reaches
    (h : ∀ front kind rest, s = front ++ .opening kind :: rest → reachClosing 1 rest ≠ none) :
    Closed s := by
  intro i kind hi
  obtain ⟨hlt, hget⟩ := List.getElem?_eq_some_iff.mp hi
  have hdrop : s.drop i = .opening kind :: s.drop (i + 1) := by
    rw [List.drop_eq_getElem_cons hlt, hget]
  have hrest := h (s.take i) kind (s.drop (i + 1)) (by rw [← hdrop, List.take_append_drop])
  simpa only [enclosureAt, hi, hdrop, reachClosing, Nat.zero_add, ne_eq, Option.map_eq_none_iff]
    using hrest

theorem Closed.behind (h : Closed (a ++ s)) : Closed s :=
  closed_of_reaches fun front kind rest hs =>
    h.reaches (a ++ front) (by rw [hs, List.append_assoc])

/-- The front of two rows ends inside the first or takes in some of the second. -/
theorem front_of_append (h : u <+: a ++ b) : u <+: a ∨ ∃ v, v <+: b ∧ u = a ++ v := by
  obtain ⟨rest, hrest⟩ := h
  rcases List.append_eq_append_iff.mp hrest with ⟨inside, ha, -⟩ | ⟨v, hu, hb⟩
  · exact Or.inl ⟨inside, ha.symm⟩
  · exact Or.inr ⟨v, ⟨rest, hb.symm⟩, hu⟩

/-- Nothing in front of a nested scaffold closes more than has been opened. -/
theorem reachClosing_eq_none (hs : Nested s) (hu : u <+: s) (depth : Nat) :
    reachClosing (depth + 1) u = none := by
  induction hs generalizing u depth with
  | nil => rw [List.prefix_nil.mp hu, reachClosing]
  | kept h _ ih =>
    rcases List.prefix_cons_iff.mp hu with rfl | ⟨t, rfl, ht⟩
    · rfl
    · rw [reachClosing, ih ht, Option.map_none]
  | @branch kind inside after hi _ _ ihi iha =>
    rcases List.prefix_cons_iff.mp hu with rfl | ⟨t, rfl, ht⟩
    · rfl
    rw [reachClosing, Option.map_eq_none_iff]
    rcases front_of_append ht with ht | ⟨v, hv, rfl⟩
    · exact ihi ht (depth + 1)
    · rw [reachClosing_append hi, Option.map_eq_none_iff]
      rcases List.prefix_cons_iff.mp hv with rfl | ⟨w, rfl, hw⟩
      · rfl
      · rw [reachClosing, if_neg (by omega), Nat.add_sub_cancel, iha hw, Option.map_none]

/-- Where all that opens in front of a nested scaffold is closed, that is nested by itself. -/
theorem Nested.front (hs : Nested s) (hu : u <+: s) (hc : Closed u) : Nested u := by
  induction hs generalizing u with
  | nil =>
    rw [List.prefix_nil.mp hu]
    exact .nil
  | kept h _ ih =>
    rcases List.prefix_cons_iff.mp hu with rfl | ⟨t, rfl, ht⟩
    · exact .nil
    · exact .kept h (ih ht (Closed.behind (a := [.kept h]) hc))
  | @branch kind inside after hi hk _ _ iha =>
    rcases List.prefix_cons_iff.mp hu with rfl | ⟨t, rfl, ht⟩
    · exact .nil
    have hreach : reachClosing 1 t ≠ none := hc.reaches [] rfl
    rcases front_of_append ht with ht | ⟨v, hv, rfl⟩
    · exact absurd (reachClosing_eq_none hi ht 0) hreach
    · rcases List.prefix_cons_iff.mp hv with rfl | ⟨w, rfl, hw⟩
      · rw [List.append_nil] at hreach
        exact absurd (reachClosing_eq_none hi (List.prefix_refl inside) 0) hreach
      · refine .branch kind hi hk (iha hw ?_)
        exact Closed.behind (a := .opening kind :: (inside ++ [.closing kind])) (by simpa using hc)

/-- The boundary that closes a branch is the same for every reading of it. -/
theorem Nested.inside_unique {i j x y : Scaffold} {k l : String} (hi : Nested i) (hj : Nested j)
    (h : i ++ .closing k :: x = j ++ .closing l :: y) : i = j ∧ k = l ∧ x = y := by
  have hreach := congrArg (reachClosing 1) h
  rw [reachClosing_append hi 0, reachClosing_append hj 0] at hreach
  simp only [reachClosing, ↓reduceIte, Option.map_some, Option.some.injEq,
    Nat.add_left_cancel_iff] at hreach
  obtain ⟨hij, hrest⟩ := List.append_inj h hreach
  obtain ⟨hkl, hxy⟩ := List.cons.inj hrest
  exact ⟨hij, Piece.closing.inj hkl, hxy⟩

/-- What follows a nested front of a nested scaffold is nested. -/
theorem Nested.behind (hu : Nested u) (h : Nested (u ++ a)) : Nested a := by
  induction hu with
  | nil => exact h
  | kept _ _ ih =>
    cases h with
    | kept _ h => exact ih h
  | branch kind hi _ _ _ iha =>
    rw [List.cons_append, List.append_assoc, List.cons_append] at h
    generalize hrow : Piece.opening kind :: _ = row at h
    cases h with
    | nil => cases hrow
    | kept _ _ => cases hrow
    | branch _ hj _ hafter =>
      obtain ⟨-, hrow⟩ := List.cons.inj hrow
      obtain ⟨-, -, rfl⟩ := hi.inside_unique hj hrow
      exact iha hafter

/-! ## What is displaced behind a front -/

theorem firstDifference_append (u a b : Scaffold) :
    firstDifference (u ++ a) (u ++ b) = (firstDifference a b).map (u.length + ·) := by
  induction u with
  | nil => simp
  | cons p u ih =>
    simp only [List.cons_append, firstDifference, ↓reduceIte, ih, Option.map_map, List.length_cons]
    congr 1
    funext i
    simp only [Function.comp_apply]
    omega

theorem keptAt_append (u a : Scaffold) (i : Nat) : keptAt (u ++ a) (u.length + i) = keptAt a i := by
  rw [keptAt, keptAt, List.getElem?_append_right (Nat.le_add_right _ _), Nat.add_sub_cancel_left]

theorem keptAround_append (u : Scaffold) (ha : Nested a) (i : Nat) :
    keptAround (u ++ a) (u.length + i) = keptAround a i := by
  have hget : (u ++ a)[u.length + i]? = a[i]? := by
    rw [List.getElem?_append_right (Nat.le_add_right _ _), Nat.add_sub_cancel_left]
  cases hp : a[i]? with
  | none => simp only [keptAround, enclosureAt, hget, hp]
  | some piece =>
    cases hk : piece.kept? with
    | some h =>
      cases piece with
      | kept _ => simp only [keptAround, enclosureAt, hget, hp]
      | _ => cases hk
    | none =>
      obtain ⟨front, kind, inside, rest, rfl, hi, -, hpos⟩ := ha.pair hp hk
      rw [keptAround_pair kind hi hpos, ← List.append_assoc]
      refine keptAround_pair kind hi ?_
      rw [List.length_append]
      omega

/-- **A common front is out of reach**: only what follows it decides what is displaced. -/
theorem displaced_append (u : Scaffold) (ha : Nested a) (hb : Nested b) :
    displaced (u ++ a) (u ++ b) = displaced a b := by
  unfold displaced
  rw [firstDifference_append]
  cases firstDifference a b with
  | none => rfl
  | some i =>
    simp only [Option.map_some, displacedAt, keptAt_append, keptAround_append u ha,
      keptAround_append u hb]

end Scaffold

/-! ## What is kept when other handles go -/

/-- The sieve with some handles uprooted. -/
def Sieve.without (s : Sieve) (gone : Handle → Bool) : Sieve where
  keeps n := s.keeps n && !gone n.handle
  changes := s.changes

mutual

/-- A survey that keeps none of what goes stays as it is. -/
theorem survey_without {s : Sieve} {gone : Handle → Bool} (n : Node)
    (h : ∀ k ∈ keptHandles (ofSegments (survey s n)), gone k = false) :
    survey (s.without gone) n = survey s n := by
  rw [keptHandles_survey] at h
  cases hk : s.keeps n with
  | true =>
    have hstays : (s.without gone).keeps n = true := by
      simp only [hk, ↓reduceIte, List.mem_singleton, forall_eq] at h
      simp only [Sieve.without, hk, h, Bool.not_false, Bool.and_true]
    rw [survey_of_keeps hk, survey_of_keeps hstays]
  | false =>
    have hgoes : (s.without gone).keeps n = false := by
      simp only [Sieve.without, hk, Bool.false_and]
    cases n with
    | leaf tag text => simp only [survey, hk, hgoes]
    | branch tag kind children =>
      cases hc : s.changes (.branch tag kind children) with
      | true =>
        have hchanges : (s.without gone).changes (.branch tag kind children) = true := hc
        simp only [survey, hk, hgoes, hc, hchanges, Bool.false_eq_true, ↓reduceIte]
      | false =>
        have hchanges : (s.without gone).changes (.branch tag kind children) = false := hc
        simp only [hk, hc, Bool.false_eq_true, ↓reduceIte, Node.children] at h
        simp only [survey, hk, hgoes, hc, hchanges, surveyAmong_without children h]

theorem surveyAmong_without {s : Sieve} {gone : Handle → Bool} (ns : List Node)
    (h : ∀ k ∈ keptHandles (ofSegments (surveyAmong s ns)), gone k = false) :
    surveyAmong (s.without gone) ns = surveyAmong s ns := by
  cases ns with
  | nil => rfl
  | cons n ns =>
    rw [surveyAmong, ofSegments_append, keptHandles_append, List.forall_mem_append] at h
    rw [surveyAmong, surveyAmong, survey_without n h.1, surveyAmong_without ns h.2]

end

/-- The survey of one node has no nested front but itself. -/
theorem front_survey {s : Sieve} {n : Node} {u : Scaffold} (hu : Nested u)
    (hfront : u <+: ofSegments (survey s n)) : u = [] ∨ u = ofSegments (survey s n) := by
  have hrow : ofSegments (survey s n) = [] ∨ (∃ h, ofSegments (survey s n) = [.kept h]) ∨
      ∃ kind inside, Nested inside ∧
        ofSegments (survey s n) = .opening kind :: (inside ++ [.closing kind]) := by
    cases n with
    | leaf tag text =>
      unfold survey
      split
      · exact Or.inr (Or.inl ⟨_, rfl⟩)
      · exact Or.inl rfl
    | branch tag kind children =>
      unfold survey
      split
      · exact Or.inr (Or.inl ⟨_, rfl⟩)
      · split
        · exact Or.inl rfl
        · simp only
          split
          · refine Or.inr (Or.inr ⟨kind, _, nested_surveyAmong s children, ?_⟩)
            simp [ofSegments, piece?]
          · exact Or.inl rfl
  rcases hrow with hrow | ⟨h, hrow⟩ | ⟨kind, inside, hi, hrow⟩
  · rw [hrow] at hfront
    exact Or.inl (List.prefix_nil.mp hfront)
  · rw [hrow] at hfront ⊢
    rcases List.prefix_cons_iff.mp hfront with rfl | ⟨t, rfl, ht⟩
    · exact Or.inl rfl
    · exact Or.inr (by rw [List.prefix_nil.mp ht])
  · rw [hrow] at hfront ⊢
    obtain ⟨rest, hrest⟩ := hfront
    cases hu with
    | nil => exact Or.inl rfl
    | kept _ _ => cases hrest
    | @branch kind' inside' after hi' _ _ =>
      rw [List.cons_append, List.append_assoc, List.cons_append] at hrest
      obtain ⟨hkind, hinside⟩ := List.cons.inj hrest
      obtain ⟨rfl, rfl, hafter⟩ := hi'.inside_unique hi hinside
      rw [(List.append_eq_nil_iff.mp hafter).1]
      exact Or.inr rfl

theorem front_surveyAmong {s : Sieve} {gone : Handle → Bool} {ns : List Node} {u : Scaffold}
    (hu : Nested u) (hfront : u <+: ofSegments (surveyAmong s ns))
    (hstay : ∀ h ∈ keptHandles u, gone h = false) :
    u <+: ofSegments (surveyAmong (s.without gone) ns) := by
  induction ns generalizing u with
  | nil => exact hfront
  | cons n ns ih =>
    rw [surveyAmong, ofSegments_append] at hfront ⊢
    rcases front_of_append hfront with hn | ⟨v, hv, rfl⟩
    · rcases front_survey hu hn with rfl | rfl
      · exact List.nil_prefix
      · rw [survey_without n hstay]
        exact List.prefix_append _ _
    · rw [keptHandles_append, List.forall_mem_append] at hstay
      rw [survey_without n hstay.1, List.prefix_append_right_inj]
      exact ih ((nested_survey s n).behind hu) hv hstay.2

theorem surveyRoot_of_keeps {s : Sieve} {root : Node} (h : s.keeps root = true) :
    surveyRoot s root = [.kept root] := by
  unfold surveyRoot
  exact if_pos h

/-- **A front stays** in the scaffold of a tree as long as nothing kept in it goes. -/
theorem front_surveyRoot {s : Sieve} {gone : Handle → Bool} {root : Node} {u : Scaffold}
    (hu : Nested u) (hfront : u <+: ofSegments (surveyRoot s root))
    (hstay : ∀ h ∈ keptHandles u, gone h = false) :
    u <+: ofSegments (surveyRoot (s.without gone) root) := by
  cases hk : s.keeps root with
  | true =>
    rw [surveyRoot_of_keeps hk] at hfront
    rcases List.prefix_cons_iff.mp hfront with rfl | ⟨t, rfl, ht⟩
    · exact List.nil_prefix
    · have hroot : gone root.handle = false := hstay _ (by simp [keptHandles, Piece.kept?])
      have hkeeps : (s.without gone).keeps root = true := by
        simp only [Sieve.without, hk, hroot, Bool.not_false, Bool.and_true]
      rwa [surveyRoot_of_keeps hkeeps]
  | false =>
    have hgoes : (s.without gone).keeps root = false := by
      simp only [Sieve.without, hk, Bool.false_and]
    cases root with
    | leaf tag text =>
      simp only [surveyRoot, hk, hgoes, Bool.false_eq_true, ↓reduceIte] at hfront ⊢
      exact hfront
    | branch tag kind children =>
      rw [surveyRoot_branch s tag kind children hk] at hfront
      rw [surveyRoot_branch _ tag kind children hgoes]
      exact front_surveyAmong hu hfront hstay

/-! ## No handle is kept twice -/

mutual

theorem kept_sublist_survey (s : Sieve) (n : Node) :
    (keptHandles (ofSegments (survey s n))).Sublist n.handles := by
  rw [keptHandles_survey]
  have hself : [n.handle].Sublist n.handles := List.singleton_sublist.mpr (handle_mem_handles n)
  split
  · exact hself
  · split
    · exact List.nil_sublist _
    · cases n with
      | leaf tag text => exact List.nil_sublist _
      | branch tag kind children => exact (kept_sublist_surveyAmong s children).cons _

theorem kept_sublist_surveyAmong (s : Sieve) (ns : List Node) :
    (keptHandles (ofSegments (surveyAmong s ns))).Sublist (Node.handlesAmong ns) := by
  cases ns with
  | nil => exact List.nil_sublist _
  | cons n ns =>
    rw [surveyAmong, ofSegments_append, keptHandles_append]
    exact (kept_sublist_survey s n).append (kept_sublist_surveyAmong s ns)

end

theorem kept_sublist_surveyRoot (s : Sieve) (root : Node) :
    (keptHandles (ofSegments (surveyRoot s root))).Sublist root.handles := by
  unfold surveyRoot
  split
  · exact List.singleton_sublist.mpr (handle_mem_handles root)
  · split
    · exact List.nil_sublist _
    · rw [surveyAmongOnto_eq, List.append_nil]
      exact (kept_sublist_surveyAmong s _).cons _

/-! ## The rounds behind a front -/

section Rounds

variable {claimed : Handle → Generation} {old new : Node} {uprooted : Std.TreeSet Handle}
  {u : Scaffold}

theorem front_oldScaffold (hu : Nested u) (hold : u <+: oldScaffold claimed old ∅)
    (hstay : ∀ h ∈ keptHandles u, h ∉ uprooted) : u <+: oldScaffold claimed old uprooted := by
  have hsieve : Sieve.standing old claimed uprooted.contains =
      (Sieve.standing old claimed (∅ : Std.TreeSet Handle).contains).without
        uprooted.contains := by
    simp [Sieve.standing, Sieve.without]
  rw [oldScaffold, surveyOld, hsieve]
  exact front_surveyRoot hu hold fun h hm =>
    Bool.eq_false_iff.mpr (mt Std.TreeSet.contains_iff_mem.mp (hstay h hm))

theorem front_newScaffold (hu : Nested u) (hnew : u <+: newScaffold new ∅)
    (hstay : ∀ h ∈ keptHandles u, h ∉ uprooted) : u <+: newScaffold new uprooted := by
  have hsieve : Sieve.reused new uprooted.contains =
      (Sieve.reused new (∅ : Std.TreeSet Handle).contains).without uprooted.contains := by
    simp [Sieve.reused, Sieve.without]
  rw [newScaffold, surveyNew, hsieve]
  exact front_surveyRoot hu hnew fun h hm =>
    Bool.eq_false_iff.mpr (mt Std.TreeSet.contains_iff_mem.mp (hstay h hm))

/-- What is kept behind a front of a tree without repeated handles is not kept in the front. -/
theorem not_mem_front {s : Sieve} {root : Node} {a : Scaffold} {h : Handle}
    (once : root.handles.Nodup) (hrow : u ++ a = ofSegments (surveyRoot s root))
    (hu : h ∈ keptHandles u) : Piece.kept h ∉ a := by
  have hnodup : (keptHandles (u ++ a)).Nodup :=
    hrow ▸ (kept_sublist_surveyRoot s root).nodup once
  rw [keptHandles_append, List.nodup_append] at hnodup
  exact fun ha => hnodup.2.2 h hu h ((mem_keptHandles a h).mpr ha) rfl

/-- One round uproots nothing of the front. -/
theorem not_mem_uprootNext (hu : Nested u) (once_old : old.handles.Nodup)
    (once_new : new.handles.Nodup) (hold : u <+: oldScaffold claimed old uprooted)
    (hnew : u <+: newScaffold new uprooted) {h : Handle} (hm : h ∈ keptHandles u) :
    h ∉ uprootNext claimed old new uprooted.contains := by
  obtain ⟨a, ha⟩ := hold
  obtain ⟨b, hb⟩ := hnew
  have hna : Nested a := hu.behind (ha ▸ nested_oldScaffold claimed old uprooted)
  have hnb : Nested b := hu.behind (hb ▸ nested_newScaffold new uprooted)
  change h ∉ displaced (oldScaffold claimed old uprooted) (newScaffold new uprooted)
  rw [← ha, ← hb, displaced_append u hna hnb]
  intro hd
  rcases mem_of_mem_displaced a b h hd with hd | hd
  · exact not_mem_front once_old ha hm hd
  · exact not_mem_front once_new hb hm hd

/-- The rounds uproot nothing of the front. -/
theorem not_mem_settleFrom (hu : Nested u) (once_old : old.handles.Nodup)
    (once_new : new.handles.Nodup) (hold : u <+: oldScaffold claimed old ∅)
    (hnew : u <+: newScaffold new ∅) (uprooted : Std.TreeSet Handle)
    (hstart : ∀ h ∈ keptHandles u, h ∉ uprooted) :
    ∀ h ∈ keptHandles u, h ∉ (settleFrom claimed old new uprooted).uprooted := by
  fun_induction settleFrom claimed old new uprooted with
  | case1 uprooted _ => exact hstart
  | case2 uprooted _ ih =>
    refine ih fun h hm hin => ?_
    rcases Std.TreeSet.mem_insertMany_list.mp hin with hin | hin
    · exact hstart h hm hin
    · exact not_mem_uprootNext hu once_old once_new (front_oldScaffold hu hold hstart)
        (front_newScaffold hu hnew hstart) hm (List.contains_iff_mem.mp hin)

/-- **The front stays.** Nothing kept in it is uprooted, and the settled scaffolds begin with it. -/
theorem front_stays (hu : Nested u) (once_old : old.handles.Nodup)
    (once_new : new.handles.Nodup) (hold : u <+: oldScaffold claimed old ∅)
    (hnew : u <+: newScaffold new ∅) :
    (∀ h ∈ keptHandles u, h ∉ (settle claimed old new).uprooted) ∧
      u <+: ofSegments (settle claimed old new).old ∧
      u <+: ofSegments (settle claimed old new).new := by
  have hstay := not_mem_settleFrom hu once_old once_new hold hnew ∅ (by simp)
  obtain ⟨ho, hn, -⟩ := settleFrom_spec claimed old new ∅
  rw [settle, ho, hn]
  exact ⟨hstay, front_oldScaffold hu hold hstay, front_newScaffold hu hnew hstay⟩

end Rounds

end TreePatch
