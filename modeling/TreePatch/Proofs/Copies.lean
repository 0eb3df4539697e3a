import TreePatch.Proofs.Ranges
import TreePatch.Proofs.RootReuse
import TreePatch.Proofs.Stamps

/-! A tree built anew along the paths to its edits, with all that the edits left alone taken over.
The old row keeps a node because a newer branch has claimed it, the new row because it is old.
Both come to the same if nothing but the copies claims nodes of the old tree
(`Node.Revises.agree`), so what was left alone is never written again (`between_of_copies`). -/

namespace TreePatch

open Segment Scaffold

namespace Node

mutual

theorem handles_eq_map (n : Node) : n.handles = n.nodes.map Node.handle := by
  cases n with
  | leaf tag text => rfl
  | branch tag kind children =>
    rw [handles, nodes, List.map_cons, handlesAmong_eq_map children]
    rfl

theorem handlesAmong_eq_map (ns : List Node) :
    handlesAmong ns = (nodesAmong ns).map Node.handle := by
  cases ns with
  | nil => rfl
  | cons n ns =>
    rw [handlesAmong, nodesAmong, List.map_append, handles_eq_map n, handlesAmong_eq_map ns]

end

mutual

/-- What stands below a child stands below its parent. -/
theorem mem_nodes_of_child {n b x : Node} (hb : b ∈ n.nodes) (hx : x ∈ b.children) :
    x ∈ n.nodes := by
  cases n with
  | leaf tag text =>
    obtain rfl := List.mem_singleton.mp hb
    cases hx
  | branch tag kind children =>
    rcases List.mem_cons.mp hb with rfl | hb
    · exact mem_nodes_branch.mpr (Or.inr ⟨x, hx, mem_nodes_self x⟩)
    · exact List.mem_cons_of_mem _ (mem_nodesAmong_of_child hb hx)

theorem mem_nodesAmong_of_child {ns : List Node} {b x : Node} (hb : b ∈ nodesAmong ns)
    (hx : x ∈ b.children) : x ∈ nodesAmong ns := by
  cases ns with
  | nil => cases hb
  | cons n ns =>
    rcases List.mem_append.mp hb with hb | hb
    · exact List.mem_append_left _ (mem_nodes_of_child hb hx)
    · exact List.mem_append_right _ (mem_nodesAmong_of_child hb hx)

end

/-- The second row of siblings revises the first: each sibling is kept, dropped or copied, and
trees of the new generation are put in anywhere. A copy is a new branch of the same kind whose
children revise those of the old one. -/
inductive Revises (generation : Generation) : List Node → List Node → Prop
  | nil : Revises generation [] []
  | keep (n : Node) {ns ms : List Node} :
      Revises generation ns ms → Revises generation (n :: ns) (n :: ms)
  | drop (n : Node) {ns ms : List Node} :
      Revises generation ns ms → Revises generation (n :: ns) ms
  | copy {tag tag' : Tag} (kind : String) {below below' ns ms : List Node} :
      tag'.born = generation → Revises generation below below' → Revises generation ns ms →
      Revises generation (.branch tag kind below :: ns) (.branch tag' kind below' :: ms)
  | insert {m : Node} {ns ms : List Node} : (∀ k ∈ m.nodes, k.born = generation) →
      Revises generation ns ms → Revises generation ns (m :: ms)

/-- The new root copies the old one, whose kind it need not have. -/
def Copies (new old : Node) : Prop :=
  new.layer.isLeaf = false ∧ old.layer.isLeaf = false ∧
    Revises new.born old.children new.children

/-- The node stands among siblings, or right below a branch of the generation or a later one. -/
def StandsIn (generation : Generation) (x : Node) (ms : List Node) : Prop :=
  x ∈ ms ∨ ∃ b ∈ nodesAmong ms, generation ≤ b.born ∧ x ∈ b.children

variable {generation : Generation} {x m : Node} {ns ms : List Node}

theorem StandsIn.cons (m : Node) (h : StandsIn generation x ms) :
    StandsIn generation x (m :: ms) := by
  rcases h with hx | ⟨b, hb, hle, hx⟩
  · exact Or.inl (List.mem_cons_of_mem _ hx)
  · exact Or.inr ⟨b, List.mem_append_right _ hb, hle, hx⟩

theorem StandsIn.below {tag : Tag} {kind : String} {children : List Node}
    (h : StandsIn generation x children) (hle : generation ≤ tag.born) (ms : List Node) :
    StandsIn generation x (.branch tag kind children :: ms) := by
  rcases h with hx | ⟨b, hb, hle, hx⟩
  · exact Or.inr ⟨_, List.mem_append_left _ (mem_nodes_self _), hle, hx⟩
  · exact Or.inr ⟨b, List.mem_append_left _ (List.mem_cons_of_mem _ hb), hle, hx⟩

/-- What stands in a row is the first sibling, or stands below that or among the others. -/
theorem StandsIn.cases (h : StandsIn generation x (m :: ms)) :
    x = m ∨ (∃ b ∈ m.nodes, generation ≤ b.born ∧ x ∈ b.children) ∨ StandsIn generation x ms := by
  rcases h with hx | ⟨b, hb, hle, hx⟩
  · rcases List.mem_cons.mp hx with rfl | hx
    · exact Or.inl rfl
    · exact Or.inr (Or.inr (Or.inl hx))
  · rcases List.mem_append.mp hb with hb | hb
    · exact Or.inr (Or.inl ⟨b, hb, hle, hx⟩)
    · exact Or.inr (Or.inr (Or.inr ⟨b, hb, hle, hx⟩))

theorem mem_nodes_of_below (h : x ∈ nodesAmong m.children) : x ∈ m.nodes := by
  cases m with
  | leaf tag text => cases h
  | branch tag kind children => exact List.mem_cons_of_mem _ h

/-- Among the children of a root stands what is right below a branch as new as the root. -/
theorem standsIn_children_iff (m : Node) : StandsIn m.born x m.children ↔
    ∃ b ∈ m.nodes, m.born ≤ b.born ∧ x ∈ b.children := by
  constructor
  · rintro (hx | ⟨b, hb, hle, hx⟩)
    · exact ⟨m, mem_nodes_self m, Nat.le_refl _, hx⟩
    · exact ⟨b, mem_nodes_of_below hb, hle, hx⟩
  · rintro ⟨b, hb, hle, hx⟩
    cases m with
    | leaf tag text =>
      obtain rfl := List.mem_singleton.mp hb
      exact Or.inl hx
    | branch tag kind children =>
      rcases List.mem_cons.mp hb with rfl | hb
      · exact Or.inl hx
      · exact Or.inr ⟨b, hb, hle, hx⟩

/-- Where two siblings are named apart, no node stands below both. -/
theorem not_mem_of_nodup {n : Node} (once : (handlesAmong (n :: ns)).Nodup) (hx : x ∈ n.nodes) :
    x ∉ nodesAmong ns := by
  intro hx'
  rw [handlesAmong, List.nodup_append, handles_eq_map, handlesAmong_eq_map] at once
  exact once.2.2 _ (List.mem_map_of_mem hx) _ (List.mem_map_of_mem hx') rfl

/-- A branch named once does not stand below itself. -/
theorem not_mem_below_of_nodup {tag : Tag} {kind : String} {below : List Node}
    (once : (handlesAmong (.branch tag kind below :: ns)).Nodup) :
    .branch tag kind below ∉ nodesAmong below := by
  intro hmem
  rw [handlesAmong, handles, handlesAmong_eq_map below] at once
  have hnot := (List.nodup_cons.mp (List.nodup_append.mp once).1).1
  exact hnot (List.mem_map_of_mem hmem)

theorem mem_nodesAmong_of_mem {x : Node} {ms : List Node} (h : x ∈ ms) : x ∈ nodesAmong ms :=
  mem_nodesAmong.mpr ⟨x, h, mem_nodes_self x⟩

theorem StandsIn.mem_nodesAmong (h : StandsIn generation x ms) : x ∈ nodesAmong ms := by
  rcases h with hx | ⟨b, hb, -, hx⟩
  · exact mem_nodesAmong_of_mem hx
  · exact mem_nodesAmong_of_child hb hx

/-- What stands in a revision and is older has been there before. -/
theorem Revises.mem_of_mem (h : Revises generation ns ms) (hx : x ∈ nodesAmong ms)
    (old : x.born < generation) : x ∈ nodesAmong ns := by
  induction h with
  | nil => exact hx
  | keep n _ ih =>
    rcases List.mem_append.mp hx with hx | hx
    · exact List.mem_append_left _ hx
    · exact List.mem_append_right _ (ih hx)
  | drop n _ ih => exact List.mem_append_right _ (ih hx)
  | copy kind hborn _ _ ihbelow ih =>
    rcases List.mem_append.mp hx with hx | hx
    · rcases List.mem_cons.mp hx with rfl | hx
      · exact absurd hborn (Nat.ne_of_lt old)
      · exact List.mem_append_left _ (List.mem_cons_of_mem _ (ihbelow hx))
    · exact List.mem_append_right _ (ih hx)
  | insert hborn _ ih =>
    rcases List.mem_append.mp hx with hx | hx
    · exact absurd (hborn x hx) (Nat.ne_of_lt old)
    · exact ih hx

end Node

namespace Scaffold

/-- A scaffold inside a branch, which goes if nothing is kept in it. -/
def enclosed (kind : String) (inside : Scaffold) : Scaffold :=
  if keptHandles inside = [] then [] else .opening kind :: (inside ++ [.closing kind])

end Scaffold

theorem ofSegments_survey_changed {s : Sieve} {n : Node} (hk : s.keeps n = false)
    (hc : s.changes n = true) : ofSegments (survey s n) = [] := by
  cases n with
  | leaf tag text => simp [survey, hk, ofSegments, piece?]
  | branch tag kind children => simp [survey, hk, hc, ofSegments, piece?]

theorem ofSegments_survey_branch {s : Sieve} {tag : Tag} {kind : String} {children : List Node}
    (hk : s.keeps (.branch tag kind children) = false)
    (hc : s.changes (.branch tag kind children) = false) :
    ofSegments (survey s (.branch tag kind children)) =
      enclosed kind (ofSegments (surveyAmong s children)) := by
  unfold survey enclosed
  simp only [hk, hc, Bool.false_eq_true, ↓reduceIte, any_isKept_iff, ne_eq]
  by_cases hinside : keptHandles (ofSegments (surveyAmong s children)) = []
  · rw [if_pos hinside, if_neg (Classical.not_not.mpr hinside)]
    rfl
  · rw [if_neg hinside, if_pos hinside]
    simp [ofSegments, piece?]

/-- Nothing is left of a tree in which nothing is kept. -/
theorem ofSegments_survey_eq_nil {s : Sieve} {n : Node} (h : ∀ x ∈ n.nodes, s.keeps x = false) :
    ofSegments (survey s n) = [] := by
  refine (nested_survey s n).eq_nil (List.eq_nil_iff_forall_not_mem.mpr fun k hk => ?_)
  obtain ⟨x, hx, rfl⟩ := (mem_ofSegments _ _).mp ((mem_keptHandles _ _).mp hk)
  have hkeeps := (kept_mem_survey s n x hx).2
  rw [h x (node_mem_survey s n x _ hx rfl)] at hkeeps
  cases hkeeps

namespace Node

/-- Each old node of the row is named once and kept just if it stands in the new one. -/
structure Accounted (s : Sieve) (generation : Generation) (ns ms : List Node) : Prop where
  older : ∀ x ∈ nodesAmong ns, x.born < generation
  once : (handlesAmong ns).Nodup
  kept_iff : ∀ x ∈ nodesAmong ns, (s.keeps x = true ↔ StandsIn generation x ms)

namespace Accounted

variable {s : Sieve} {generation : Generation} {n m : Node} {ns ms : List Node}

/-- Without its first sibling the old row is still accounted for, if the new row says the same of
all others. -/
theorem tail (h : Accounted s generation (n :: ns) ms) {ms' : List Node}
    (same : ∀ x ∈ nodesAmong ns, StandsIn generation x ms ↔ StandsIn generation x ms') :
    Accounted s generation ns ms' where
  older := by
    intro x hx
    exact h.older x (List.mem_append_right _ hx)
  once := (List.nodup_append.mp h.once).2.1
  kept_iff := by
    intro x hx
    rw [h.kept_iff x (List.mem_append_right _ hx), same x hx]

theorem keep (h : Accounted s generation (n :: ns) (n :: ms)) :
    s.keeps n = true ∧ Accounted s generation ns ms := by
  have hn : n ∈ nodesAmong (n :: ns) := mem_nodesAmong_of_mem List.mem_cons_self
  constructor
  · exact (h.kept_iff n hn).mpr (Or.inl List.mem_cons_self)
  · apply h.tail
    intro x hx
    constructor
    · intro hstands
      rcases hstands.cases with rfl | ⟨b, hb, hle, -⟩ | hstands
      · exact absurd hx (not_mem_of_nodup h.once (mem_nodes_self x))
      · exact absurd (h.older b (List.mem_append_left _ hb)) (Nat.not_lt_of_le hle)
      · exact hstands
    · exact StandsIn.cons n

theorem drop (h : Accounted s generation (n :: ns) ms) (hr : Revises generation ns ms) :
    (∀ x ∈ n.nodes, s.keeps x = false) ∧ Accounted s generation ns ms := by
  constructor
  · intro x hx
    have hx' : x ∈ nodesAmong (n :: ns) := List.mem_append_left _ hx
    rw [Bool.eq_false_iff]
    intro hkeeps
    have hstands := (h.kept_iff x hx').mp hkeeps
    have hrest := hr.mem_of_mem hstands.mem_nodesAmong (h.older x hx')
    exact not_mem_of_nodup h.once hx hrest
  · exact h.tail fun _ _ => Iff.rfl

theorem insert (h : Accounted s generation ns (m :: ms))
    (hm : ∀ k ∈ m.nodes, k.born = generation) : Accounted s generation ns ms := by
  refine ⟨h.older, h.once, fun x hx => ?_⟩
  rw [h.kept_iff x hx]
  constructor
  · intro hstands
    -- all that is put in is new
    have hold : x ∉ m.nodes := fun hxm => Nat.ne_of_lt (h.older x hx) (hm x hxm)
    rcases hstands.cases with rfl | ⟨b, hb, -, hx'⟩ | hstands
    · exact absurd (mem_nodes_self x) hold
    · exact absurd (mem_nodes_of_child hb hx') hold
    · exact hstands
  · exact StandsIn.cons m

section Copy

variable {tag tag' : Tag} {kind : String} {below below' : List Node}
  (h : Accounted s generation (.branch tag kind below :: ns) (.branch tag' kind below' :: ms))
  (hborn : tag'.born = generation) (hbelow : Revises generation below below')
  (hr : Revises generation ns ms)

include h hborn in
/-- What is old and stands in the copy or beside it stands below one or among the others. -/
theorem standsIn_copy {x : Node} (hx : x ∈ nodesAmong (.branch tag kind below :: ns)) :
    StandsIn generation x (.branch tag' kind below' :: ms) ↔
      StandsIn generation x below' ∨ StandsIn generation x ms := by
  constructor
  · intro hstands
    rcases hstands.cases with rfl | ⟨b, hb, hle, hxb⟩ | hstands
    · exact absurd hborn (Nat.ne_of_lt (h.older _ hx))
    · rcases List.mem_cons.mp hb with rfl | hb
      · exact Or.inl (Or.inl hxb)
      · exact Or.inl (Or.inr ⟨b, hb, hle, hxb⟩)
    · exact Or.inr hstands
  · rintro (hstands | hstands)
    · exact hstands.below (Nat.le_of_eq hborn.symm) ms
    · exact hstands.cons _

include h hborn hbelow hr in
theorem copy_not_kept : s.keeps (.branch tag kind below) = false := by
  have hself : .branch tag kind below ∈ nodesAmong (.branch tag kind below :: ns) :=
    mem_nodesAmong_of_mem List.mem_cons_self
  rw [Bool.eq_false_iff]
  intro hkeeps
  have hold := h.older _ hself
  rcases (standsIn_copy h hborn hself).mp ((h.kept_iff _ hself).mp hkeeps) with hstands | hstands
  · exact not_mem_below_of_nodup h.once (hbelow.mem_of_mem hstands.mem_nodesAmong hold)
  · exact not_mem_of_nodup h.once (mem_nodes_self _) (hr.mem_of_mem hstands.mem_nodesAmong hold)

include h hborn hr in
theorem copy_below : Accounted s generation below below' := by
  have hmem {x : Node} (hx : x ∈ nodesAmong below) : x ∈ (Node.branch tag kind below).nodes :=
    List.mem_cons_of_mem _ hx
  constructor
  · intro x hx
    exact h.older x (List.mem_append_left _ (hmem hx))
  · have honce := (List.nodup_append.mp h.once).1
    exact (List.nodup_cons.mp honce).2
  · intro x hx
    have hx' := List.mem_append_left (nodesAmong ns) (hmem hx)
    rw [h.kept_iff x hx', standsIn_copy h hborn hx', or_iff_left_iff_imp]
    intro hstands
    have hrest := hr.mem_of_mem hstands.mem_nodesAmong (h.older x hx')
    exact absurd hrest (not_mem_of_nodup h.once (hmem hx))

include h hborn hbelow in
theorem copy_beside : Accounted s generation ns ms := by
  apply h.tail
  intro x hx
  have hx' := List.mem_append_right (Node.branch tag kind below).nodes hx
  rw [standsIn_copy h hborn hx', or_iff_right_iff_imp]
  intro hstands
  have hin := hbelow.mem_of_mem hstands.mem_nodesAmong (h.older x hx')
  exact absurd hx (not_mem_of_nodup h.once (List.mem_cons_of_mem _ hin))

end Copy

/-- Nothing is kept of siblings whose revision holds nothing older. -/
theorem keptHandles_eq_nil (h : Accounted s generation ns ms)
    (young : ∀ x ∈ nodesAmong ms, generation ≤ x.born) :
    keptHandles (ofSegments (surveyAmong s ns)) = [] := by
  refine List.eq_nil_iff_forall_not_mem.mpr fun k hk => ?_
  obtain ⟨x, hx, rfl⟩ := (mem_ofSegments _ _).mp ((mem_keptHandles _ _).mp hk)
  have hold := node_mem_surveyAmong s ns x _ hx rfl
  have hkeeps := (kept_mem_surveyAmong s ns x hx).2
  have hnew := ((h.kept_iff x hold).mp hkeeps).mem_nodesAmong
  exact Nat.not_lt_of_le (young x hnew) (h.older x hold)

end Accounted

variable {claimed : Handle → Generation} {old new : Node} {ns ms : List Node}

/-- **Rows that revise one another agree**: what is claimed on one side is reused on the other,
and the branches around it match. -/
theorem Revises.agree (h : Revises new.born ns ms)
    (hs : Accounted (.standing old claimed fun _ => false) new.born ns ms)
    (aged : ∀ m ∈ nodesAmong ms, ∀ x ∈ m.nodes, m.oldest ≤ x.born) :
    ofSegments (surveyAmong (.standing old claimed fun _ => false) ns) =
      ofSegments (surveyAmong (.reused new fun _ => false) ms) := by
  generalize hg : new.born = generation at h hs
  induction h with
  | nil => rfl
  | keep n hr ih =>
    obtain ⟨hkeeps, hs'⟩ := hs.keep
    have hreuse : (Sieve.reused new fun _ => false).keeps n = true := by
      have hold := hs.older n (mem_nodesAmong_of_mem List.mem_cons_self)
      simpa [Sieve.reused, hg] using hold
    have hrest := ih (fun m hm => aged m (List.mem_append_right _ hm)) hs'
    rw [surveyAmong, surveyAmong, survey_of_keeps hkeeps, survey_of_keeps hreuse,
      ofSegments_append, ofSegments_append, hrest]
  | drop n hr ih =>
    obtain ⟨hnone, hs'⟩ := hs.drop hr
    rw [surveyAmong, ofSegments_append, ofSegments_survey_eq_nil hnone, List.nil_append]
    exact ih aged hs'
  | @copy tag tag' kind below below' ns ms hborn hbelow hr ihbelow ih =>
    have hs' := hs.copy_beside hborn hbelow
    have hsbelow := hs.copy_below hborn hr
    have hrest := ih (fun m hm => aged m (List.mem_append_right _ hm)) hs'
    have hinside := ihbelow
      (fun m hm => aged m (List.mem_append_left _ (List.mem_cons_of_mem _ hm))) hsbelow
    rw [surveyAmong, surveyAmong, ofSegments_append, ofSegments_append, hrest]
    congr 1
    rw [ofSegments_survey_branch (hs.copy_not_kept hborn hbelow hr) rfl, hinside]
    have hsame : (Node.branch tag' kind below').born = new.born := hborn.trans hg.symm
    have hnew : (Sieve.reused new fun _ => false).keeps (.branch tag' kind below') = false := by
      simp [Sieve.reused, hsame]
    cases hchanges : (Sieve.reused new fun _ => false).changes (.branch tag' kind below') with
    | false => exact (ofSegments_survey_branch hnew hchanges).symm
    | true =>
      -- a copy that holds nothing older changes as a whole, and nothing below it is claimed
      rw [ofSegments_survey_changed hnew hchanges, ← hinside]
      have hyoung : new.born ≤ tag'.oldest := by
        simp only [Sieve.reused, Bool.or_eq_true, decide_eq_true_eq] at hchanges
        rcases hchanges with hlt | hle
        · exact absurd hsame (Nat.ne_of_lt hlt)
        · exact hle
      have hnone := hsbelow.keptHandles_eq_nil fun x hx => by
        have hage := aged _ (mem_nodesAmong_of_mem List.mem_cons_self) x
          (List.mem_cons_of_mem _ hx)
        exact hg ▸ Nat.le_trans hyoung hage
      rw [enclosed, if_pos hnone]
  | @insert m ns ms hm hr ih =>
    have hs' := hs.insert hm
    have hnone : ofSegments (survey (.reused new fun _ => false) m) = [] := by
      refine ofSegments_survey_eq_nil fun x hx => ?_
      simp [Sieve.reused, hm x hx, hg]
    rw [surveyAmong, ofSegments_append, hnone, List.nil_append]
    exact ih (fun m hm => aged m (List.mem_append_right _ hm)) hs'

end Node

/-! ## What a new row keeps for certain -/

mutual

/-- An older node right below a branch of the generation is kept, since all the branches around
it are new and hold something older. -/
theorem kept_survey_of_mem {root m n b : Node} (hb : b ∈ m.nodes) (hle : root.born ≤ b.born)
    (hn : n ∈ b.children) (old : n.born < root.born)
    (dated : ∀ k ∈ m.nodes, ∀ x ∈ k.nodes, k.oldest ≤ x.born ∧ x.born ≤ k.born) :
    Segment.kept n ∈ survey (.reused root fun _ => false) m := by
  cases m with
  | leaf tag text =>
    obtain rfl := List.mem_singleton.mp hb
    cases hn
  | branch tag kind children =>
    have hself := dated _ (Node.mem_nodes_self (.branch tag kind children))
    have hborn : root.born ≤ (Node.branch tag kind children).born :=
      Nat.le_trans hle (hself b hb).2
    have holdest := (hself n (Node.mem_nodes_of_child hb hn)).1
    have hkeeps : (Sieve.reused root fun _ => false).keeps (.branch tag kind children) = false := by
      simp [Sieve.reused, hborn]
    have hchanges : (Sieve.reused root fun _ => false).changes (.branch tag kind children) =
        false := by
      simp [Sieve.reused, hborn, Nat.lt_of_le_of_lt holdest old]
    have hstands : Node.StandsIn root.born n children := by
      rcases List.mem_cons.mp hb with rfl | hb
      · exact Or.inl hn
      · exact Or.inr ⟨b, hb, hle, hn⟩
    have hinside := kept_surveyAmong_of_standsIn hstands old
      fun k hk => dated k (List.mem_cons_of_mem _ hk)
    have hany : (surveyAmong (.reused root fun _ => false) children).any Segment.isKept = true :=
      List.any_eq_true.mpr ⟨_, hinside, rfl⟩
    unfold survey
    simp only [hkeeps, hchanges, hany, Bool.false_eq_true, ↓reduceIte]
    exact List.mem_cons_of_mem _ (List.mem_append_left _ hinside)

theorem kept_surveyAmong_of_standsIn {root n : Node} {ms : List Node}
    (h : Node.StandsIn root.born n ms) (old : n.born < root.born)
    (dated : ∀ k ∈ Node.nodesAmong ms, ∀ x ∈ k.nodes, k.oldest ≤ x.born ∧ x.born ≤ k.born) :
    Segment.kept n ∈ surveyAmong (.reused root fun _ => false) ms := by
  cases ms with
  | nil =>
    obtain ⟨b, hb, -⟩ := h.resolve_left List.not_mem_nil
    cases hb
  | cons m ms =>
    rcases h.cases with rfl | ⟨b, hb, hle, hn⟩ | hstands
    · have hkeeps : (Sieve.reused root fun _ => false).keeps n = true := by
        simpa [Sieve.reused] using old
      rw [surveyAmong, survey_of_keeps hkeeps]
      exact List.mem_cons_self
    · exact List.mem_append_left _ (kept_survey_of_mem hb hle hn old
        fun k hk => dated k (List.mem_append_left _ hk))
    · exact List.mem_append_right _ (kept_surveyAmong_of_standsIn hstands old
        fun k hk => dated k (List.mem_append_right _ hk))

end

namespace Forest

variable {f : Forest} {h k p c : Handle} {old new b x : Node}

/-- The branches newer than the old root with a node of its tree right below them are all in the
new tree. -/
def Reserved (f : Forest) (old new : Node) : Prop :=
  ∀ e ∈ f.entries.toList, old.born < e.node.born →
    (∃ n ∈ e.node.children, n.handle ∈ old.handles) → e.node.handle ∈ new.handles

instance (f : Forest) (old new : Node) : Decidable (f.Reserved old new) :=
  inferInstanceAs (Decidable (∀ e ∈ f.entries.toList, _ → _ → _))

theorem Sound.dated (hf : f.Sound) (hn : f.node h = .ok b) :
    ∀ m ∈ b.nodes, ∀ x ∈ m.nodes, m.oldest ≤ x.born ∧ x.born ≤ m.born := by
  intro m hm x hx
  have hheld := hf.held hn m hm
  exact ⟨(hf.isLeast_oldest hheld).2 ⟨x, hx, rfl⟩, hf.born_le_root hheld x hx⟩

/-- A child named in a held tree is the node of that name. -/
theorem Sound.child_of_handle (hf : f.Sound) (hp : f.node p = .ok old) (hx : x ∈ old.nodes)
    (hb : f.node k = .ok b) (hh : x.handle ∈ b.layer.children) : x ∈ b.children := by
  obtain ⟨n, hn, he⟩ := mem_children_iff.mp hh
  have hheld := (hf.below hb n hn).1
  rw [he, hf.held hp x hx] at hheld
  exact Except.ok.inj hheld ▸ hn

theorem Reserved.mem_nodes (hr : f.Reserved old new) (hf : f.Sound) (hc : f.node c = .ok new)
    (hb : f.node k = .ok b) (newer : old.born < b.born) (hx : x ∈ old.nodes)
    (hchild : x ∈ b.children) : b ∈ new.nodes := by
  obtain ⟨e, he, rfl⟩ := (node_eq_ok_iff f k b).mp hb
  have hmem : e ∈ f.entries.toList := by
    unfold find? at he
    split at he
    · exact Array.mem_toList_iff.mpr (Array.mem_of_getElem? he)
    · cases he
  have hhandle := hr e hmem newer
    ⟨x, hchild, Node.handles_eq_map old ▸ List.mem_map_of_mem hx⟩
  rw [Node.handles_eq_map] at hhandle
  obtain ⟨m, hm, hname⟩ := List.mem_map.mp hhandle
  have hheld := hf.held hc m hm
  rw [hname, hf.named hb, hb] at hheld
  exact Except.ok.inj hheld ▸ hm

theorem Sound.kept_surveyNew_of_mem (hf : f.Sound) (hc : f.node c = .ok new) (hb : b ∈ new.nodes)
    (hle : new.born ≤ b.born) (hx : x ∈ b.children) (older : x.born < new.born) :
    Segment.kept x ∈ surveyNew (fun _ => false) new := by
  have hstands := (Node.standsIn_children_iff new).mpr ⟨b, hb, hle, hx⟩
  have hdated := hf.dated hc
  cases new with
  | leaf tag text => exact absurd hstands.mem_nodesAmong List.not_mem_nil
  | branch tag kind children =>
    rw [surveyNew_branch]
    exact kept_surveyAmong_of_standsIn hstands older
      fun k hk => hdated k (List.mem_cons_of_mem _ hk)

/-- In a reserved tree a newer claim comes from right below a branch of the new generation. -/
theorem Reserved.claimed_iff (hr : f.Reserved old new) (hf : f.Sound) (claims : f.Claimed)
    (hp : f.node p = .ok old) (hc : f.node c = .ok new) (next : new.born = old.born + 1)
    (hx : x ∈ old.nodes) :
    old.born < f.claimedAt x.handle ↔ ∃ b ∈ new.nodes, new.born ≤ b.born ∧ x ∈ b.children := by
  have hheld := hf.held hp x hx
  obtain ⟨e, he, hnode⟩ := (node_eq_ok_iff f _ x).mp hheld
  have hat : f.claimedAt x.handle = e.claimed := by simp [claimedAt, he]
  obtain ⟨hmem, hupper⟩ := claims he
  rw [hat, next]
  constructor
  · intro hlt
    rcases hmem with hself | ⟨k, b, hb, hh, hborn⟩
    · have hle := hf.born_le_root hp x hx
      rw [hself, hnode] at hlt
      exact absurd hle (Nat.not_le_of_lt hlt)
    · have hchild := hf.child_of_handle hp hx hb hh
      rw [hborn] at hlt
      exact ⟨b, hr.mem_nodes hf hc hb hlt hx hchild, hlt, hchild⟩
  · rintro ⟨b, hb, hle, hchild⟩
    have hclaim : b.born ≤ e.claimed :=
      hupper (Or.inr ⟨_, b, hf.held hc b hb, mem_children_iff.mpr ⟨x, hchild, rfl⟩, rfl⟩)
    exact Nat.lt_of_lt_of_le hle hclaim

section Agreement

variable (hf : f.Sound) (claims : f.Claimed) (hp : f.node p = .ok old) (hc : f.node c = .ok new)
  (next : new.born = old.born + 1) (copies : new.Copies old) (once : old.handles.Nodup)
  (reserved : f.Reserved old new)

include hf claims hp hc next once reserved

theorem Sound.accounted : Node.Accounted (.standing old f.claimedAt fun _ => false) new.born
    old.children new.children where
  older := by
    intro x hx
    have hle := hf.born_le_root hp x (Node.mem_nodes_of_below hx)
    rw [next]
    exact Nat.lt_succ_of_le hle
  once := by
    cases old with
    | leaf tag text => exact List.nodup_nil
    | branch tag kind children => exact (List.nodup_cons.mp once).2
  kept_iff := by
    intro x hx
    have hclaimed := reserved.claimed_iff hf claims hp hc next (Node.mem_nodes_of_below hx)
    simpa [Sieve.standing, Node.standsIn_children_iff] using hclaimed

include copies

/-- No one claims the old root, which its copy does not hold. -/
theorem Sound.root_not_kept :
    (Sieve.standing old f.claimedAt fun _ => false).keeps old = false := by
  rw [Bool.eq_false_iff]
  intro hkeeps
  have hlt : old.born < f.claimedAt old.handle := by simpa [Sieve.standing] using hkeeps
  have hstands := (Node.standsIn_children_iff new).mpr
    ((reserved.claimed_iff hf claims hp hc next (Node.mem_nodes_self old)).mp hlt)
  have hbelow := copies.2.2.mem_of_mem hstands.mem_nodesAmong (next ▸ Nat.lt_succ_self _)
  cases old with
  | leaf tag text => cases hbelow
  | branch tag kind children =>
    have honce : (Node.handlesAmong [.branch tag kind children]).Nodup := by
      rw [Node.handlesAmong, Node.handlesAmong, List.append_nil]
      exact once
    exact Node.not_mem_below_of_nodup honce hbelow

/-- **The first rows agree** where the new root copies the old one. -/
theorem Sound.surveys_agree :
    ofSegments (surveyOld f.claimedAt (fun _ => false) old) =
      ofSegments (surveyNew (fun _ => false) new) := by
  have haccounted := hf.accounted claims hp hc next once reserved
  have hroot := hf.root_not_kept claims hp hc next copies once reserved
  have haged : ∀ m ∈ Node.nodesAmong new.children, ∀ x ∈ m.nodes, m.oldest ≤ x.born := by
    intro m hm x hx
    exact (hf.dated hc m (Node.mem_nodes_of_below hm) x hx).1
  obtain ⟨hnew, hold, hrevises⟩ := copies
  have hagree := hrevises.agree haccounted haged
  cases old with
  | leaf tag text => cases hold
  | branch tag kind children =>
    cases new with
    | leaf tag' text => cases hnew
    | branch tag' kind' children' =>
      rw [surveyNew_branch, surveyOld, surveyRoot_branch _ _ _ _ hroot]
      exact hagree

end Agreement

end Forest

/-- **A copy of the path to the edits writes nothing anew.** If the new root copies the old one,
and no newer branch but the copies has a node of the old tree right below it, the first rows
agree. The patch then makes just the removals of the old root and the additions of the new one,
and every older node right below a new branch is kept on both sides. -/
theorem between_of_copies {f : Forest} (hf : f.Reachable) {p c : Handle} {old new : Node}
    (hp : f.node p = .ok old) (hc : f.node c = .ok new) (next : new.born = old.born + 1)
    (copies : new.Copies old) (once : old.handles.Nodup) (reserved : f.Reserved old new) :
    firstDifference (ofSegments (surveyOld f.claimedAt (fun _ => false) old))
        (ofSegments (surveyNew (fun _ => false) new)) = none ∧
      (∃ removals additions patch, f.removals p = .ok removals ∧ f.additions c = .ok additions ∧
        Patch.between f p c = .ok patch ∧
        patch.Makes ⟨0, old.innerSpan⟩ new.content removals additions) ∧
      ∀ b ∈ new.nodes, b.born = new.born → ∀ n ∈ b.children, n.born ≤ old.born →
        Segment.kept n ∈ surveyOld f.claimedAt (fun _ => false) old ∧
          Segment.kept n ∈ surveyNew (fun _ => false) new := by
  obtain ⟨hsound, -, hclaimed⟩ := hf.raised.stamps
  have hagree := hsound.surveys_agree hclaimed hp hc next copies once reserved
  have hnext : uprootNext f.claimedAt old new (fun _ => false) = [] :=
    (displaced_eq_nil_iff (nested_surveyRoot _ old) (nested_surveyRoot _ new)).mpr hagree
  refine ⟨(firstDifference_eq_none_iff _ _).mpr hagree, ?_, ?_⟩
  · obtain ⟨patch, hpatch⟩ := hsound.between_ok hp hc next
    refine ⟨_, _, patch, by rw [Forest.removals, hp]; rfl,
      by rw [Forest.additions, hc]; rfl, hpatch, ?_⟩
    rw [Patch.between_of_agree hp hc next hnext] at hpatch
    exact Patch.makes_of_assemble hpatch
  · intro b hb hborn n hn hold
    have hlt : n.born < new.born := next ▸ Nat.lt_succ_of_le hold
    have hkept : Segment.kept n ∈ surveyNew (fun _ => false) new :=
      hsound.kept_surveyNew_of_mem hc hb (Nat.le_of_eq hborn.symm) hn hlt
    refine ⟨?_, hkept⟩
    -- the other row keeps a node of the same name, and the forest holds one of that name
    have hpiece := (mem_ofSegments _ n.handle).mpr ⟨n, hkept, rfl⟩
    rw [← hagree] at hpiece
    obtain ⟨m, hm, hname⟩ := (mem_ofSegments _ _).mp hpiece
    have hheld := hsound.held hp m (node_mem_surveyRoot _ _ m _ hm rfl)
    rw [hname, hsound.held hc n (Node.mem_nodes_of_child hb hn)] at hheld
    exact Except.ok.inj hheld ▸ hm

/-- The second text of a list is written anew, so the list and the root are copied. -/
def copiedForest : Forest :=
  Scripted.forest [
    .build (.branch "doc" [.branch "list" [.leaf "a" none, .leaf "b" none] none] none), .advance,
    .build (.branch "doc" [.branch "list" [.node (.index 0), .leaf "x" none] none] none)]

def firstText : Node := .leaf ⟨⟨0, 0⟩, 1, 0, 0, 0⟩ "a"

def listBefore : Node :=
  .branch ⟨⟨0, 2⟩, 4, 0, 0, 0⟩ "list" [firstText, .leaf ⟨⟨0, 1⟩, 1, 0, 0, 0⟩ "b"]

def listAfter : Node :=
  .branch ⟨⟨0, 5⟩, 4, 1, 0, 0⟩ "list" [firstText, .leaf ⟨⟨0, 4⟩, 1, 1, 1, 1⟩ "x"]

theorem between_of_copies_list : ∃ old new patch,
    copiedForest.node ⟨0, 3⟩ = .ok old ∧ copiedForest.node ⟨0, 6⟩ = .ok new ∧
      old.children = [listBefore] ∧ new.children = [listAfter] ∧
      Patch.between copiedForest ⟨0, 3⟩ ⟨0, 6⟩ = .ok patch ∧
      patch.filterMap Step.removed? = [⟨2, 3⟩] ∧ patch.filterMap Step.added? = [⟨2, 3⟩] ∧
      Segment.kept firstText ∈ surveyOld copiedForest.claimedAt (fun _ => false) old := by
  have hp : copiedForest.node ⟨0, 3⟩ =
      .ok (.branch ⟨⟨0, 3⟩, 6, 0, 0, 0⟩ "doc" [listBefore]) := rfl
  have hc : copiedForest.node ⟨0, 6⟩ =
      .ok (.branch ⟨⟨0, 6⟩, 6, 1, 1, 0⟩ "doc" [listAfter]) := rfl
  have hlist : Node.Revises 1 [firstText, .leaf ⟨⟨0, 1⟩, 1, 0, 0, 0⟩ "b"]
      [firstText, .leaf ⟨⟨0, 4⟩, 1, 1, 1, 1⟩ "x"] :=
    .keep _ (.drop _ (.insert (by decide) .nil))
  obtain ⟨-, ⟨removals, additions, patch, hremovals, hadditions, hpatch, hmakes⟩, hkept⟩ :=
    between_of_copies (Scripted.reachable_forest _) hp hc rfl
      ⟨rfl, rfl, .copy "list" rfl hlist .nil⟩ (by decide) (by decide)
  have hfirst := (hkept listAfter (List.mem_cons_of_mem _ List.mem_cons_self) rfl firstText
    List.mem_cons_self (by decide)).1
  have hdead : copiedForest.removals ⟨0, 3⟩ = .ok [⟨⟨2, 3⟩, "text"⟩] := rfl
  obtain rfl := Except.ok.inj (hdead.symm.trans hremovals)
  have hnew : copiedForest.additions ⟨0, 6⟩ = .ok [⟨2, 3⟩] := rfl
  obtain rfl := Except.ok.inj (hnew.symm.trans hadditions)
  refine ⟨_, _, patch, hp, hc, rfl, rfl, hpatch, hmakes.removed, ?_, hfirst⟩
  rcases hmakes.added with hadded | ⟨-, filler, -, -, hwhole⟩
  · exact hadded
  · -- the list stays, so there is no deletion of the whole to fill
    have hmem : ⟨0, 4⟩ ∈ patch.filterMap Step.removed? :=
      List.mem_filterMap.mpr ⟨_, hwhole, rfl⟩
    rw [hmakes.removed] at hmem
    exact absurd hmem (by decide)

end TreePatch
