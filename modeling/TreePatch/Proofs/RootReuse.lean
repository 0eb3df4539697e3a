import TreePatch.Proofs.RoundTrip

/-! An old root that the new tree has taken in. A root is rendered without its own boundaries,
so as a branch it must not stay as a whole. It does stay just where the new root opens with it
(`Forest.Sound.rootKept_iff`), and then no patch of insertions makes up for the boundaries. -/

namespace TreePatch

open Segment Scaffold

namespace Scaffold

/-- The subtree comes first and is kept nowhere else. -/
def Opens (s : Scaffold) (h : Handle) : Prop :=
  s.head? = some (.kept h) ∧ h ∉ keptHandles s.tail

instance (s : Scaffold) (h : Handle) : Decidable (Opens s h) :=
  inferInstanceAs (Decidable (_ ∧ _))

theorem Opens.eq_cons {s : Scaffold} {h : Handle} (ho : Opens s h) :
    ∃ rest, s = .kept h :: rest ∧ h ∉ keptHandles rest := by
  obtain ⟨hh, ht⟩ := ho
  cases s with
  | nil => simp at hh
  | cons x rest =>
    simp only [List.head?_cons, Option.some.injEq] at hh
    exact ⟨rest, by rw [hh], ht⟩

/-- A scaffold of one subtree does not drive it out of one that opens with it. -/
theorem Opens.not_displaced {s : Scaffold} {h : Handle} (ho : Opens s h) :
    h ∉ displaced [.kept h] s := by
  obtain ⟨rest, rfl, hrest⟩ := ho.eq_cons
  cases rest with
  | nil => simp [displaced, firstDifference]
  | cons x rest =>
    have hd : firstDifference [.kept h] (.kept h :: x :: rest) = some 1 := by
      simp [firstDifference]
    have ha : keptAround [.kept h] 1 = [] := rfl
    simp only [displaced, hd, displacedAt]
    cases x with
    | kept k =>
      have hk : h ≠ k := by
        rintro rfl
        simp [keptHandles, Piece.kept?] at hrest
      simpa [keptAt, Piece.kept?] using hk
    | closing kind =>
      have hc : keptAround (.kept h :: .closing kind :: rest) 1 = [] := by
        simp [keptAround, enclosureAt, reachOpening]
      simp [keptAt, Piece.kept?, ha, hc]
    | opening kind =>
      -- what is kept around the boundary is kept behind the first piece
      have hb : h ∉ keptAround (.kept h :: .opening kind :: rest) 1 := by
        simp only [keptAround, enclosureAt, List.getElem?_cons_succ, List.getElem?_cons_zero,
          List.drop_succ_cons, List.drop_zero]
        cases reachClosing 0 (.opening kind :: rest) with
        | none => simp
        | some n =>
          simp only [Option.map_some, Nat.add_comm 1 n, List.take_succ_cons, List.drop_succ_cons,
            List.drop_zero]
          intro hm
          rw [mem_keptHandles] at hm
          exact hrest ((mem_keptHandles _ _).mpr (List.mem_of_mem_take hm))
      simpa [keptAt, Piece.kept?, ha] using hb

/-- Otherwise the subtree is driven out at once if the scaffold begins with something else. -/
theorem mem_displaced_of_head {s : Scaffold} {h : Handle} {x : Piece} (hs : s.head? = some x)
    (hx : x ≠ .kept h) : h ∈ displaced [.kept h] s := by
  cases s with
  | nil => simp at hs
  | cons y rest =>
    simp only [List.head?_cons, Option.some.injEq] at hs
    subst hs
    have hd : firstDifference [.kept h] (y :: rest) = some 0 := by
      simp [firstDifference, hx.symm]
    simp [displaced, hd, displacedAt, keptAt, Piece.kept?]

theorem any_isKept_iff (segments : List Segment) :
    segments.any Segment.isKept = true ↔ keptHandles (ofSegments segments) ≠ [] := by
  refine ⟨keptHandles_ne_nil, fun h => ?_⟩
  obtain ⟨k, hk⟩ := List.exists_mem_of_ne_nil _ h
  obtain ⟨n, hn, -⟩ := (mem_ofSegments _ _).mp ((mem_keptHandles _ _).mp hk)
  exact List.any_eq_true.mpr ⟨_, hn, rfl⟩

end Scaffold

/-! ## Surveys with fewer handles kept -/

theorem survey_of_keeps {s : Sieve} {n : Node} (h : s.keeps n = true) :
    survey s n = [.kept n] := by
  cases n <;> simp [survey, h]

theorem surveyAmong_append (s : Sieve) (a b : List Node) :
    surveyAmong s (a ++ b) = surveyAmong s a ++ surveyAmong s b := by
  induction a with
  | nil => rfl
  | cons n a ih => simp [surveyAmong, ih]

theorem keptHandles_survey (s : Sieve) (n : Node) :
    keptHandles (ofSegments (survey s n)) =
      if s.keeps n then [n.handle] else if s.changes n then []
      else keptHandles (ofSegments (surveyAmong s n.children)) := by
  cases n with
  | leaf tag text =>
    unfold survey
    split <;> simp [ofSegments, piece?, keptHandles, Piece.kept?, surveyAmong, Node.children]
  | branch tag kind children =>
    unfold survey
    split
    · simp [ofSegments, piece?, keptHandles, Piece.kept?]
    · split
      · rfl
      · simp only [Node.children]
        split
        · have hrow : ofSegments (.opening kind :: surveyAmong s children ++ [.closing kind]) =
              .opening kind :: (ofSegments (surveyAmong s children) ++ [.closing kind]) := by
            simp [ofSegments, piece?]
          rw [hrow, keptHandles_opening, keptHandles_append, keptHandles_closing, keptHandles_nil,
            List.append_nil]
        · rename_i hany
          rw [any_isKept_iff, ne_eq, Classical.not_not] at hany
          rw [hany]
          rfl

mutual

/-- What is kept with some handles uprooted is what would be kept, without these. -/
theorem keptHandles_survey_reused (root : Node) (uprooted : Handle → Bool) (n : Node) :
    keptHandles (ofSegments (survey (.reused root uprooted) n)) =
      (keptHandles (ofSegments (survey (.reused root fun _ => false) n))).filter
        fun h => !uprooted h := by
  have ih : keptHandles (ofSegments (surveyAmong (.reused root uprooted) n.children)) =
      (keptHandles (ofSegments (surveyAmong (.reused root fun _ => false) n.children))).filter
        fun h => !uprooted h := by
    cases n with
    | leaf tag text => rfl
    | branch tag kind children => exact keptHandles_surveyAmong_reused root uprooted children
  rw [keptHandles_survey, keptHandles_survey, ih]
  by_cases hb : n.born < root.born
  · cases hu : uprooted n.handle <;> simp [Sieve.reused, hb, hu]
  · by_cases ho : root.born ≤ n.oldest <;> simp [Sieve.reused, hb, ho]

theorem keptHandles_surveyAmong_reused (root : Node) (uprooted : Handle → Bool)
    (ns : List Node) :
    keptHandles (ofSegments (surveyAmong (.reused root uprooted) ns)) =
      (keptHandles (ofSegments (surveyAmong (.reused root fun _ => false) ns))).filter
        fun h => !uprooted h := by
  cases ns with
  | nil => rfl
  | cons n ns =>
    simp only [surveyAmong, ofSegments_append, keptHandles_append, List.filter_append,
      keptHandles_survey_reused root uprooted n, keptHandles_surveyAmong_reused root uprooted ns]

end

/-- A node whose survey begins with a kept subtree is that subtree. -/
theorem keeps_of_head {s : Sieve} {n : Node} {h : Handle}
    (hh : (ofSegments (survey s n)).head? = some (.kept h)) : s.keeps n = true ∧ n.handle = h := by
  cases n with
  | leaf tag text =>
    unfold survey at hh
    split at hh
    · rename_i hk
      simp only [ofSegments, List.filterMap_cons, piece?, List.filterMap_nil, List.head?_cons,
        Option.some.injEq, Piece.kept.injEq] at hh
      exact ⟨hk, hh⟩
    · simp [ofSegments, piece?] at hh
  | branch tag kind children =>
    unfold survey at hh
    split at hh
    · rename_i hk
      simp only [ofSegments, List.filterMap_cons, piece?, List.filterMap_nil, List.head?_cons,
        Option.some.injEq, Piece.kept.injEq] at hh
      exact ⟨hk, hh⟩
    · split at hh
      · simp [ofSegments, piece?] at hh
      · simp only at hh
        split at hh <;> simp [ofSegments, piece?] at hh

/-- A row opens with a subtree when that is one of the nodes, with nothing kept before it. -/
theorem opens_surveyAmong_iff (s : Sieve) (ns : List Node) (h : Handle) :
    Opens (ofSegments (surveyAmong s ns)) h ↔
      ∃ before n after, ns = before ++ n :: after ∧ ofSegments (surveyAmong s before) = [] ∧
        s.keeps n = true ∧ n.handle = h ∧
        h ∉ keptHandles (ofSegments (surveyAmong s after)) := by
  constructor
  · intro ho
    induction ns with
    | nil => simp [Opens, surveyAmong, ofSegments] at ho
    | cons n ns ih =>
      rw [surveyAmong, ofSegments_append] at ho
      cases hn : ofSegments (survey s n) with
      | nil =>
        rw [hn, List.nil_append] at ho
        obtain ⟨before, m, after, rfl, hbefore, hm⟩ := ih ho
        exact ⟨n :: before, m, after, rfl, by
          rw [surveyAmong, ofSegments_append, hn, hbefore]; rfl, hm⟩
      | cons x rest =>
        have hhead : (ofSegments (survey s n)).head? = some (.kept h) := by
          rw [hn] at ho ⊢
          exact ho.1
        obtain ⟨hk, hh⟩ := keeps_of_head hhead
        refine ⟨[], n, ns, rfl, rfl, hk, hh, ?_⟩
        have ht := ho.2
        rw [survey_of_keeps hk] at ht
        simpa [ofSegments, piece?] using ht
  · rintro ⟨before, n, after, rfl, hbefore, hk, rfl, hafter⟩
    rw [surveyAmong_append, ofSegments_append, hbefore, List.nil_append, surveyAmong,
      survey_of_keeps hk]
    exact ⟨rfl, hafter⟩

/-! ## A root that stays -/

/-- The first that the root reuses is the node, as a child of its own, and it reuses it nowhere
else. -/
def Node.OpensWith (root : Node) (h : Handle) : Prop :=
  Opens (ofSegments (surveyNew (fun _ => false) root)) h

instance (root : Node) (h : Handle) : Decidable (root.OpensWith h) :=
  inferInstanceAs (Decidable (Opens _ _))

theorem surveyNew_branch (uprooted : Handle → Bool) (tag : Tag) (kind : String)
    (children : List Node) :
    surveyNew uprooted (.branch tag kind children) =
      surveyAmong (.reused (.branch tag kind children) uprooted) children :=
  surveyRoot_branch _ tag kind children (by simp [Sieve.reused])

theorem ofSegments_surveyNew_leaf (uprooted : Handle → Bool) (tag : Tag) (text : String) :
    ofSegments (surveyNew uprooted (.leaf tag text)) = [] := by
  simp [surveyNew, surveyRoot, Sieve.reused, ofSegments, piece?]

/-- A root opens with a subtree until that is uprooted. -/
theorem Node.OpensWith.opens {root : Node} {h : Handle} (ho : root.OpensWith h)
    {uprooted : Handle → Bool} (hu : uprooted h = false) :
    Opens (ofSegments (surveyNew uprooted root)) h := by
  cases root with
  | leaf tag text => simp [OpensWith, ofSegments_surveyNew_leaf, Opens] at ho
  | branch tag kind children =>
    rw [OpensWith, surveyNew_branch, opens_surveyAmong_iff] at ho
    obtain ⟨before, n, after, rfl, hbefore, hk, rfl, hafter⟩ := ho
    rw [surveyNew_branch, opens_surveyAmong_iff]
    refine ⟨before, n, after, rfl, ?_, ?_, rfl, ?_⟩
    · refine (nested_surveyAmong _ before).eq_nil ?_
      rw [keptHandles_surveyAmong_reused, hbefore]
      rfl
    · simp only [Sieve.reused, Bool.and_eq_true, decide_eq_true_eq] at hk ⊢
      exact ⟨hk.1, by simp [hu]⟩
    · rw [keptHandles_surveyAmong_reused]
      exact fun hm => hafter (List.mem_filter.mp hm).1

section Rounds

variable {claimed : Handle → Generation} {old new : Node} {uprooted : Std.TreeSet Handle}

theorem surveyOld_of_claimed (hc : old.born < claimed old.handle) {uprooted : Handle → Bool}
    (hu : uprooted old.handle = false) : surveyOld claimed uprooted old = [.kept old] := by
  simp [surveyOld, surveyRoot, Sieve.standing, hc, hu]

/-- What is uprooted stays uprooted. -/
theorem contains_settleFrom {k : Handle} (hk : uprooted.contains k = true) :
    (settleFrom claimed old new uprooted).uprooted.contains k = true := by
  fun_induction settleFrom claimed old new uprooted with
  | case1 uprooted h => exact hk
  | case2 uprooted h ih =>
    refine ih ?_
    rw [Std.TreeSet.contains_insertMany_list, hk, Bool.true_or]

theorem contains_settleFrom_of_next {k : Handle}
    (hk : k ∈ uprootNext claimed old new uprooted.contains) :
    (settleFrom claimed old new uprooted).uprooted.contains k = true := by
  rw [settleFrom, if_neg (List.ne_nil_of_mem hk)]
  refine contains_settleFrom ?_
  rw [Std.TreeSet.contains_insertMany_list, List.contains_iff_mem.mpr hk, Bool.or_true]

/-- A claimed root with which the new one opens is never uprooted. -/
theorem not_uprooted_of_opensWith (hc : old.born < claimed old.handle)
    (ho : new.OpensWith old.handle) (hu : uprooted.contains old.handle = false) :
    (settleFrom claimed old new uprooted).uprooted.contains old.handle = false := by
  fun_induction settleFrom claimed old new uprooted with
  | case1 uprooted h => exact hu
  | case2 uprooted h ih =>
    have hnext : old.handle ∉ uprootNext claimed old new uprooted.contains := by
      rw [uprootNext, surveyOld_of_claimed hc hu]
      exact (ho.opens hu).not_displaced
    refine ih ?_
    rw [Std.TreeSet.contains_insertMany_list, hu, Bool.false_or]
    simpa using hnext

/-- A claimed root that is never uprooted is what the new one opens with. -/
theorem opensWith_of_not_uprooted (hc : old.born < claimed old.handle)
    (hu : (settle claimed old new).uprooted.contains old.handle = false) :
    new.OpensWith old.handle := by
  obtain ⟨hold, hnew, -⟩ := settleFrom_spec claimed old new ∅
  have hagree := settle_agrees claimed old new
  rw [settle] at hagree hu
  rw [hold, hnew, surveyOld_of_claimed hc hu] at hagree
  generalize hU : (settleFrom claimed old new ∅).uprooted = final at hagree hu
  cases new with
  | leaf tag text =>
    rw [ofSegments_surveyNew_leaf] at hagree
    cases hagree
  | branch tag kind children =>
    rw [surveyNew_branch] at hagree
    have hopens : Opens (ofSegments (surveyAmong
        (.reused (.branch tag kind children) final.contains) children)) old.handle := by
      rw [← hagree]
      exact ⟨rfl, List.not_mem_nil⟩
    -- all that was reused beside the root has been uprooted, and the root has not
    have still (ns : List Node)
        (h : keptHandles (ofSegments (surveyAmong
          (.reused (.branch tag kind children) final.contains) ns)) = []) :
        old.handle ∉ keptHandles (ofSegments (surveyAmong
          (.reused (.branch tag kind children) fun _ => false) ns)) := by
      intro hm
      rw [keptHandles_surveyAmong_reused, List.filter_eq_nil_iff] at h
      exact h _ hm (by simp [hu])
    obtain ⟨before, n, after, hchildren, hbefore, hk, hn, -⟩ :=
      (opens_surveyAmong_iff _ _ _).mp hopens
    have hafter : ofSegments (surveyAmong
        (.reused (.branch tag kind children) final.contains) after) = [] := by
      rw [hchildren, surveyAmong_append, ofSegments_append, ← hchildren, hbefore, surveyAmong,
        survey_of_keeps hk] at hagree
      exact (List.cons.inj hagree).2.symm
    rw [Node.OpensWith, surveyNew_branch]
    cases hb : ofSegments (surveyAmong (.reused (.branch tag kind children) fun _ => false)
        before) with
    | nil =>
      refine (opens_surveyAmong_iff _ _ _).mpr ⟨before, n, after, hchildren, hb, ?_, hn, ?_⟩
      · simp only [Sieve.reused, Bool.and_eq_true, decide_eq_true_eq] at hk ⊢
        exact ⟨hk.1, rfl⟩
      · exact still after (by rw [hafter]; rfl)
    | cons x rest =>
      -- something comes before the root, so the first round uproots it
      have hx : x ≠ .kept old.handle := by
        rintro rfl
        refine still before (by rw [hbefore]; rfl) ?_
        rw [hb, mem_keptHandles]
        exact List.mem_cons_self
      have hhead : (ofSegments (surveyAmong (.reused (.branch tag kind children) fun _ => false)
          children)).head? = some x := by
        rw [hchildren, surveyAmong_append, ofSegments_append, ← hchildren, hb]
        rfl
      have hnext : old.handle ∈ uprootNext claimed old (.branch tag kind children)
          (∅ : Std.TreeSet Handle).contains := by
        rw [uprootNext, contains_nothing, surveyOld_of_claimed hc rfl, surveyNew_branch]
        exact mem_displaced_of_head hhead hx
      rw [← hU, contains_settleFrom_of_next hnext] at hu
      cases hu

end Rounds

/-! ## What the boundaries of a root that stays are missing -/

/-- How much a step puts in. -/
def Step.added : Step → Nat
  | .delete _ _ replacement => (replacement.getD .empty).size
  | .insert _ content => content.size

/-- How much a patch puts in. -/
def Patch.added (patch : Patch) : Nat := patch.foldr (fun step n => step.added + n) 0

theorem Document.size_of_insert {d e : Document} {position : Nat} {x : Fragment}
    (h : d.apply (.insert position x) = .ok e) : e.size = d.size + x.size := by
  simp only [apply, splice, bind, Except.bind] at h
  split at h
  · cases h
  · rename_i parts hcut
    obtain ⟨before, rest⟩ := parts
    split at h
    · cases h
    · rename_i gone after hcut'
      have hsize := Fragment.cutAt_size hcut
      have hsize' := Fragment.cutAt_size (f := rest) hcut'
      have hle : ¬ d.content.size < position := by
        intro hlt
        have := (Fragment.cutAt_eq_error_iff d.content position _).mpr ⟨hlt, rfl⟩
        rw [hcut] at this
        cases this
      have hcontent := content_of_ofFragment h
      simp only [size, hcontent, Fragment.size_append]
      omega

theorem Document.size_of_inserts {patch : Patch} {d e : Document}
    (hins : ∀ step ∈ patch, ∃ position x, step = .insert position x)
    (h : d.applyPatch patch = (e, none)) : e.size = d.size + patch.added := by
  induction patch generalizing d with
  | nil =>
    simp only [applyPatch, Prod.mk.injEq, and_true] at h
    rw [h]
    rfl
  | cons step patch ih =>
    obtain ⟨position, x, rfl⟩ := hins step List.mem_cons_self
    simp only [applyPatch] at h
    cases hs : d.apply (.insert position x) with
    | error reason => simp [hs] at h
    | ok next =>
      simp only [hs] at h
      have hnext := ih (fun s hs => hins s (List.mem_cons_of_mem _ hs)) h
      have hsize := size_of_insert hs
      simp only [Patch.added, List.foldr_cons, Step.added] at hnext ⊢
      omega

theorem Patch.insertions_only {content : Fragment} {es : List Extent} {patch : Patch}
    (h : insertions content es = .ok patch) :
    ∀ step ∈ patch, ∃ position x, step = .insert position x := by
  induction es generalizing patch with
  | nil =>
    simp only [insertions, Except.ok.injEq] at h
    subst h
    simp
  | cons e es ih =>
    simp only [insertions, bind, Except.bind] at h
    split at h
    · cases h
    · rename_i inside _
      split at h
      · cases h
      · rename_i later hlater
        simp only [pure, Except.pure, Except.ok.injEq] at h
        subst h
        rintro step (_ | ⟨_, hs⟩)
        · exact ⟨_, _, rfl⟩
        · exact ih hlater step hs

namespace Forest

variable {f : Forest} {p c : Handle} {old new : Node}

/-- **A claimed branch stays a whole** just where the new root opens with it. -/
theorem Sound.rootKept_iff (hf : f.Sound) (hp : f.node p = .ok old)
    (claim : old.born < f.claimedAt p) :
    f.RootKept old new ↔ old.layer.isLeaf = false ∧ new.OpensWith p := by
  have hname := hf.named hp
  rw [← hname] at claim ⊢
  refine and_congr_right fun _ => ?_
  simp only [Sieve.standing, Bool.and_eq_true, decide_eq_true_eq, claim, true_and,
    Bool.not_eq_true']
  constructor
  · exact opensWith_of_not_uprooted claim
  · intro ho
    exact not_uprooted_of_opensWith claim ho (by simp)

/-- A branch with its boundaries is two longer than its content. -/
theorem size_tokens {n : Node} (h : n.layer.isLeaf = false) :
    (Fragment.ofTokens n.tokens).size = n.content.size + 2 := by
  cases n with
  | leaf tag text => simp [Node.layer, Layer.isLeaf] at h
  | branch tag kind children =>
    rw [Node.content, Node.contentTokens_branch]
    simp only [Node.tokens, Fragment.size_ofTokens, List.cons_append, Token.listWidth_append,
      Token.listWidth_cons, Token.listWidth_nil, Token.width]
    omega

theorem fit_tokens {n : Node} (h : n.layer.isLeaf = false) : (Fragment.ofTokens n.tokens).Fit :=
  ⟨by rw [size_tokens h]; omega, n.matched_tokens⟩

theorem old_settled_of_rootKept (h : f.RootKept old new) :
    (f.settled old new).old = [.kept old] := by
  rw [old_settled]
  unfold surveyRoot
  exact if_pos h.2

/-- The patch is all insertions then, made for a surface that has the boundaries. -/
theorem Sound.between_of_rootKept (hf : f.Sound) (hp : f.node p = .ok old)
    (hc : f.node c = .ok new) (next : new.born = old.born + 1) (h : f.RootKept old new) :
    ∃ patch, Patch.between f p c = .ok patch ∧
      (∀ step ∈ patch, ∃ position x, step = .insert position x) ∧
      Patch.Takes patch (.ofTokens old.tokens) new.content := by
  have hrow := old_settled_of_rootKept h
  have hrem : remnant (f.settled old new).new = .ofTokens old.tokens := by
    rw [← hf.remnant_settled hp hc, hrow]
    simp [remnant, Segment.rendering, isChanged, Segment.tokens]
  have hfit := fit_tokens h.1
  have hsized : ∀ s ∈ (f.settled old new).new, s.Sized := hf.sized_new hc
  obtain ⟨patch, hpatch, htakes⟩ := Patch.takes_insertions hsized .empty .empty rfl
    (by simpa [hrem] using hfit)
  simp only [Fragment.empty_append, Fragment.append_empty, hrem, rendering_new] at hpatch htakes
  refine ⟨patch, ?_, Patch.insertions_only hpatch, htakes⟩
  have hnone : Removal.ofSegments f.settings 0 (settle f.claimedAt old new).old = [] := by
    rw [show (settle f.claimedAt old new).old = [.kept old] from hrow]
    rfl
  have hadds : Patch.insertions new.content
      (Addition.ofSegments none 0 (settle f.claimedAt old new).new) = .ok patch := hpatch
  simp only [Patch.between, hp, hc, bind, Except.bind, next, ne_eq, not_true_eq_false,
    ↓reduceIte, hnone]
  simp [Patch.assemble, Patch.deletions, hadds, bind, Except.bind, pure, Except.pure]

/-- Between roots of successive generations there is always a patch. -/
theorem Sound.between_ok (hf : f.Sound) (hp : f.node p = .ok old) (hc : f.node c = .ok new)
    (next : new.born = old.born + 1) : ∃ patch, Patch.between f p c = .ok patch := by
  by_cases h : f.RootKept old new
  · obtain ⟨patch, hpatch, -⟩ := hf.between_of_rootKept hp hc next h
    exact ⟨patch, hpatch⟩
  · -- any surface that begins with the old rendering will do
    have hfit : (old.content ++ .bareBranch f.settings.placeholderKind).Fit :=
      ⟨by simp, old.matched_content.append (Fragment.matched_bareBranch _)⟩
    obtain ⟨patch, hpatch, -⟩ := takes_between hf hp hc next h _ hfit
    exact ⟨patch, hpatch⟩

/-- Without the boundaries the surface ends up too short, if it takes the patch at all. -/
theorem Sound.misses_of_rootKept (hf : f.Sound) {d e : Document} (hp : f.node p = .ok old)
    (hc : f.node c = .ok new) (next : new.born = old.born + 1) (h : f.RootKept old new)
    (hd : Document.ofRoot old = .ok d) (he : Document.ofRoot new = .ok e) :
    ∃ patch, Patch.between f p c = .ok patch ∧ d.applyPatch patch ≠ (e, none) := by
  obtain ⟨patch, hpatch, hins, htakes⟩ := hf.between_of_rootKept hp hc next h
  refine ⟨patch, hpatch, fun happly => ?_⟩
  have hbare := Document.size_of_inserts hins happly
  -- the same insertions on a surface that has the boundaries
  obtain ⟨full, hfull⟩ : ∃ full : Document, full.content = .ofTokens old.tokens :=
    ⟨⟨_, (Document.isEmpty_eq_false_iff _).mpr (fit_tokens h.1).1, (fit_tokens h.1).2⟩, rfl⟩
  obtain ⟨last, hlast, hcontent⟩ := htakes full hfull
  have hsize := Document.size_of_inserts hins hlast
  have htokens := size_tokens h.1
  simp only [Document.size, Document.content_of_ofFragment hd, Document.content_of_ofFragment he]
    at hbare
  simp only [Document.size, hfull, hcontent] at hsize
  omega

end Forest

/-- **Round trip of a claimed root.** The surface ends up with the new rendering unless the old
root is a branch with which the new one opens, or a placeholder stays behind. -/
theorem between_roundTrip_claimed_iff {f : Forest} (hf : f.Reachable) {p c : Handle}
    {old new : Node} {d e : Document} (hp : f.node p = .ok old) (hc : f.node c = .ok new)
    (next : new.born = old.born + 1) (hd : Document.ofRoot old = .ok d)
    (he : Document.ofRoot new = .ok e) (claim : old.born < f.claimedAt p) :
    ∃ patch, Patch.between f p c = .ok patch ∧ (d.applyPatch patch = (e, none) ↔
      ¬ (old.layer.isLeaf = false ∧ new.OpensWith p) ∧
      ¬ Patch.Strands f.settings (f.settled old new).old (f.settled old new).new) := by
  have hs := hf.sound
  rw [← hs.rootKept_iff hp claim]
  by_cases hroot : f.RootKept old new
  · obtain ⟨patch, hpatch, hne⟩ := hs.misses_of_rootKept hp hc next hroot hd he
    exact ⟨patch, hpatch, iff_of_false hne fun h => h.1 hroot⟩
  · obtain ⟨patch, last, hpatch, hlast, -, hiff⟩ := applyPatch_between hs hp hc next hroot hd he
    refine ⟨patch, hpatch, ?_⟩
    rw [hlast, Prod.mk.injEq, hiff]
    simp [hroot]

/-- The new root holds the old one and nothing else. -/
def wrappedForest : Forest :=
  Scripted.forest [.build (.branch "doc" [.branch "paragraph" [.leaf "a" none] none] (some "p")),
    .advance, .build (.branch "book" [.node (.label "p")] (some "c"))]

def wrappedBefore : Document :=
  ⟨.ofTokens [.opening "paragraph", .text "a", .closing "paragraph"], by decide, by decide⟩

def wrappedAfter : Document :=
  ⟨.ofTokens [.opening "doc", .opening "paragraph", .text "a", .closing "paragraph",
    .closing "doc"], by decide, by decide⟩

/-- Nothing seems to change there, and the boundaries never come. -/
theorem between_roundTrip_fails_of_claimed : ¬ ∀ {f : Forest} {p c : Handle} {old new : Node}
    {d e : Document}, f.Reachable → f.node p = .ok old → f.node c = .ok new →
    new.born = old.born + 1 → Document.ofRoot old = .ok d → Document.ofRoot new = .ok e →
    old.born < f.claimedAt p →
    ∃ patch, Patch.between f p c = .ok patch ∧ d.applyPatch patch = (e, none) := by
  intro h
  have hp : wrappedForest.node ⟨0, 2⟩ = .ok _ := rfl
  have hc : wrappedForest.node ⟨0, 3⟩ = .ok _ := rfl
  have hpatch : Patch.between wrappedForest ⟨0, 2⟩ ⟨0, 3⟩ = .ok [] := by
    rw [Patch.between_of_agree hp hc rfl (by decide)]
    rfl
  obtain ⟨patch, hbetween, happly⟩ := h (d := wrappedBefore) (e := wrappedAfter)
    (Scripted.reachable_forest _) hp hc rfl rfl rfl (by decide)
  obtain rfl := Except.ok.inj (hpatch.symm.trans hbetween)
  revert happly
  decide

/-- The new root holds the old one twice. -/
def doubledForest : Forest :=
  Scripted.forest [.build (.branch "doc" [.leaf "a" none] (some "p")), .advance,
    .build (.branch "book" [.node (.label "p"), .node (.label "p")] (some "c"))]

def doubledBefore : Document := ⟨.ofTokens [.text "a"], by decide, by decide⟩

def doubledAfter : Document :=
  ⟨.ofTokens [.opening "doc", .text "a", .closing "doc", .opening "doc", .text "a",
    .closing "doc"], by decide, by decide⟩

theorem between_roundTrip_doubled : ∃ patch,
    Patch.between doubledForest ⟨0, 1⟩ ⟨0, 2⟩ = .ok patch ∧
      doubledBefore.applyPatch patch = (doubledAfter, none) := by
  have hf : doubledForest.Reachable := Scripted.reachable_forest _
  have hp : doubledForest.node ⟨0, 1⟩ = .ok _ := rfl
  have hc : doubledForest.node ⟨0, 2⟩ = .ok _ := rfl
  obtain ⟨patch, hpatch, hiff⟩ := between_roundTrip_claimed_iff (d := doubledBefore)
    (e := doubledAfter) hf hp hc rfl rfl rfl (by decide)
  refine ⟨patch, hpatch, hiff.mpr ⟨by decide, ?_⟩⟩
  exact hf.sound.not_strands hp hc (by decide) (by decide)

end TreePatch
