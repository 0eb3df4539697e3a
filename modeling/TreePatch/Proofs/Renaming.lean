import TreePatch.Proofs.Copies

/-! Trees under other names. Nothing is read from a handle but whether it is another one, so with
all handles renamed one to one the surveys, their scaffolds and what is uprooted are the same
but for the names (`Kindred.settle`), and ranges, which hold no names, are the same altogether. -/

namespace TreePatch

namespace Node

mutual

/-- The tree with all of its handles renamed. -/
def rename (ρ : Handle → Handle) : Node → Node
  | leaf tag text => leaf { tag with handle := ρ tag.handle } text
  | branch tag kind children =>
    branch { tag with handle := ρ tag.handle } kind (renameAmong ρ children)

def renameAmong (ρ : Handle → Handle) : List Node → List Node
  | [] => []
  | n :: ns => rename ρ n :: renameAmong ρ ns

end

mutual

/-- The second tree has the kinds, the texts and the births of the first, and its handles
renamed. -/
def Alike (ρ : Handle → Handle) : Node → Node → Prop
  | leaf tag text, leaf tag' text' =>
    tag'.handle = ρ tag.handle ∧ tag'.born = tag.born ∧ text' = text
  | branch tag kind children, branch tag' kind' children' =>
    tag'.handle = ρ tag.handle ∧ tag'.born = tag.born ∧ kind' = kind ∧
      AlikeAmong ρ children children'
  | _, _ => False

def AlikeAmong (ρ : Handle → Handle) : List Node → List Node → Prop
  | [], [] => True
  | n :: ns, m :: ms => Alike ρ n m ∧ AlikeAmong ρ ns ms
  | _, _ => False

end

mutual

def decideAlike (ρ : Handle → Handle) : (m n : Node) → Decidable (Alike ρ m n)
  | leaf _ _, leaf _ _ => inferInstanceAs (Decidable (_ ∧ _ ∧ _))
  | branch _ _ children, branch _ _ children' =>
    have := decideAlikeAmong ρ children children'
    inferInstanceAs (Decidable (_ ∧ _ ∧ _ ∧ AlikeAmong ρ children children'))
  | leaf _ _, branch _ _ _ => inferInstanceAs (Decidable False)
  | branch _ _ _, leaf _ _ => inferInstanceAs (Decidable False)

def decideAlikeAmong (ρ : Handle → Handle) : (ms ns : List Node) → Decidable (AlikeAmong ρ ms ns)
  | [], [] => inferInstanceAs (Decidable True)
  | m :: ms, n :: ns =>
    have := decideAlike ρ m n
    have := decideAlikeAmong ρ ms ns
    inferInstanceAs (Decidable (Alike ρ m n ∧ AlikeAmong ρ ms ns))
  | [], _ :: _ => inferInstanceAs (Decidable False)
  | _ :: _, [] => inferInstanceAs (Decidable False)

end

instance (ρ : Handle → Handle) (m n : Node) : Decidable (Alike ρ m n) := decideAlike ρ m n

variable (ρ : Handle → Handle)

@[simp] theorem handle_rename (n : Node) : (n.rename ρ).handle = ρ n.handle := by
  cases n <;> rfl

@[simp] theorem span_rename (n : Node) : (n.rename ρ).span = n.span := by
  cases n <;> rfl

@[simp] theorem born_rename (n : Node) : (n.rename ρ).born = n.born := by
  cases n <;> rfl

@[simp] theorem oldest_rename (n : Node) : (n.rename ρ).oldest = n.oldest := by
  cases n <;> rfl

@[simp] theorem innerSpan_rename (n : Node) : (n.rename ρ).innerSpan = n.innerSpan := by
  cases n <;> rfl

theorem renameAmong_eq_map (ns : List Node) : renameAmong ρ ns = ns.map (rename ρ) := by
  induction ns with
  | nil => rfl
  | cons n ns ih => rw [renameAmong, List.map_cons, ih]

theorem spanAmong_renameAmong (ns : List Node) :
    spanAmong (renameAmong ρ ns) = spanAmong ns := by
  induction ns with
  | nil => rfl
  | cons n ns ih =>
    show (n.rename ρ).span + spanAmong (renameAmong ρ ns) = n.span + spanAmong ns
    rw [ih, span_rename]

theorem map_born_renameAmong (ns : List Node) :
    (renameAmong ρ ns).map born = ns.map born := by
  simp [renameAmong_eq_map, Function.comp_def]

theorem map_oldest_renameAmong (ns : List Node) :
    (renameAmong ρ ns).map oldest = ns.map oldest := by
  simp [renameAmong_eq_map, Function.comp_def]

mutual

theorem tokens_rename (n : Node) : (n.rename ρ).tokens = n.tokens := by
  cases n with
  | leaf tag text => rfl
  | branch tag kind children =>
    rw [rename, tokens, tokens, tokensAmong_renameAmong children]

theorem tokensAmong_renameAmong (ns : List Node) :
    tokensAmong (renameAmong ρ ns) = tokensAmong ns := by
  cases ns with
  | nil => rfl
  | cons n ns => rw [renameAmong, tokensAmong, tokensAmong, tokens_rename n,
      tokensAmong_renameAmong ns]

end

@[simp] theorem content_rename (n : Node) : (n.rename ρ).content = n.content := by
  cases n with
  | leaf tag text => rfl
  | branch tag kind children =>
    rw [content, content, rename, contentTokens_branch, contentTokens_branch,
      tokensAmong_renameAmong]

mutual

theorem rename_id (n : Node) : n.rename id = n := by
  cases n with
  | leaf tag text => rfl
  | branch tag kind children =>
    rw [rename, renameAmong_id children]
    rfl

theorem renameAmong_id (ns : List Node) : renameAmong id ns = ns := by
  cases ns with
  | nil => rfl
  | cons n ns => rw [renameAmong, rename_id n, renameAmong_id ns]

end

mutual

/-- What tags note beside births and handles follows from the trees. -/
theorem Alike.eq_rename {ρ : Handle → Handle} {m n : Node} (h : Alike ρ m n)
    (hm : ∀ x ∈ m.nodes, x.Grown) (hn : ∀ x ∈ n.nodes, x.Grown) : n = m.rename ρ := by
  have hgm := hm m (mem_nodes_self m)
  have hgn := hn n (mem_nodes_self n)
  cases m with
  | leaf tag text =>
    cases n with
    | branch tag' kind' children' => exact h.elim
    | leaf tag' text' =>
      obtain ⟨hhandle, hborn, rfl⟩ := h
      obtain ⟨hspan, hchild, holdest⟩ := hgm
      obtain ⟨hspan', hchild', holdest'⟩ := hgn
      have htag : tag' = { tag with handle := ρ tag.handle } := by
        cases tag
        cases tag'
        simp_all
      rw [htag, rename]
  | branch tag kind children =>
    cases n with
    | leaf tag' text' => exact h.elim
    | branch tag' kind' children' =>
      obtain ⟨hhandle, hborn, rfl, hchildren⟩ := h
      obtain rfl := AlikeAmong.eq_renameAmong hchildren
        (fun x hx => hm x (List.mem_cons_of_mem _ hx))
        (fun x hx => hn x (List.mem_cons_of_mem _ hx))
      obtain ⟨hspan, hchild, holdest, -⟩ := hgm
      obtain ⟨hspan', hchild', holdest', -⟩ := hgn
      rw [spanAmong_renameAmong] at hspan'
      rw [map_born_renameAmong] at hchild'
      rw [map_oldest_renameAmong] at holdest'
      have htag : tag' = { tag with handle := ρ tag.handle } := by
        cases tag
        cases tag'
        simp_all
      rw [htag, rename]

theorem AlikeAmong.eq_renameAmong {ρ : Handle → Handle} {ms ns : List Node}
    (h : AlikeAmong ρ ms ns) (hm : ∀ x ∈ nodesAmong ms, x.Grown)
    (hn : ∀ x ∈ nodesAmong ns, x.Grown) : ns = renameAmong ρ ms := by
  cases ms with
  | nil =>
    cases ns with
    | nil => rfl
    | cons n ns => exact h.elim
  | cons m ms =>
    cases ns with
    | nil => exact h.elim
    | cons n ns =>
      obtain ⟨hhead, htail⟩ := h
      rw [renameAmong, ← Alike.eq_rename hhead (fun x hx => hm x (List.mem_append_left _ hx))
        (fun x hx => hn x (List.mem_append_left _ hx)),
        ← AlikeAmong.eq_renameAmong htail (fun x hx => hm x (List.mem_append_right _ hx))
        (fun x hx => hn x (List.mem_append_right _ hx))]

end

end Node

/-! ## Surveys and ranges -/

namespace Segment

def rename (ρ : Handle → Handle) : Segment → Segment
  | opening kind => opening kind
  | closing kind => closing kind
  | kept n => kept (n.rename ρ)
  | changed n => changed (n.rename ρ)

variable (ρ : Handle → Handle)

@[simp] theorem isKept_rename (s : Segment) : (s.rename ρ).isKept = s.isKept := by
  cases s <;> rfl

@[simp] theorem width_rename (s : Segment) : (s.rename ρ).width = s.width := by
  cases s <;> simp [rename, width]

theorem any_isKept_rename (segments : List Segment) :
    (segments.map (rename ρ)).any isKept = segments.any isKept := by
  simp [List.any_map, Function.comp_def]

end Segment

/-- Of the nodes listed, one sieve says under their new names what the other says of them. -/
def Sieve.RenamesTo (s : Sieve) (ρ : Handle → Handle) (s' : Sieve) (ns : List Node) : Prop :=
  ∀ n ∈ ns, s'.keeps (n.rename ρ) = s.keeps n ∧ s'.changes (n.rename ρ) = s.changes n

section Surveys

variable {ρ : Handle → Handle} {s s' : Sieve}

mutual

theorem survey_rename (n : Node) (h : s.RenamesTo ρ s' n.nodes) :
    survey s' (n.rename ρ) = (survey s n).map (Segment.rename ρ) := by
  obtain ⟨hkeeps, hchanges⟩ := h n (Node.mem_nodes_self n)
  cases n with
  | leaf tag text =>
    rw [Node.rename] at hkeeps ⊢
    unfold survey
    rw [hkeeps]
    split <;> rfl
  | branch tag kind children =>
    have ih := surveyAmong_rename children fun n hn => h n (List.mem_cons_of_mem _ hn)
    rw [Node.rename] at hkeeps hchanges ⊢
    unfold survey
    rw [hkeeps, hchanges]
    split
    · rfl
    · split
      · rfl
      · simp only [ih, Segment.any_isKept_rename]
        split
        · simp [Segment.rename]
        · rfl

theorem surveyAmong_rename (ns : List Node) (h : s.RenamesTo ρ s' (Node.nodesAmong ns)) :
    surveyAmong s' (Node.renameAmong ρ ns) = (surveyAmong s ns).map (Segment.rename ρ) := by
  cases ns with
  | nil => rfl
  | cons n ns =>
    rw [Node.renameAmong, surveyAmong, surveyAmong, List.map_append,
      survey_rename n fun m hm => h m (List.mem_append_left _ hm),
      surveyAmong_rename ns fun m hm => h m (List.mem_append_right _ hm)]

end

theorem surveyRoot_rename {root : Node} (h : s.RenamesTo ρ s' root.nodes) :
    surveyRoot s' (root.rename ρ) = (surveyRoot s root).map (Segment.rename ρ) := by
  obtain ⟨hkeeps, -⟩ := h root (Node.mem_nodes_self root)
  unfold surveyRoot
  rw [hkeeps]
  split
  · rfl
  · cases root with
    | leaf tag text => rfl
    | branch tag kind children =>
      simp only [Node.rename, surveyAmongOnto_eq, List.append_nil]
      exact surveyAmong_rename children fun n hn => h n (List.mem_cons_of_mem _ hn)

theorem Removal.ofSegments_rename (settings : Settings) (position : Nat)
    (segments : List Segment) :
    ofSegments settings position (segments.map (Segment.rename ρ)) =
      ofSegments settings position segments := by
  induction segments generalizing position with
  | nil => rfl
  | cons s segments ih =>
    cases s with
    | changed n =>
      have hkind : kindOf settings (n.rename ρ) = kindOf settings n := by cases n <;> rfl
      simp only [List.map_cons, Segment.rename, ofSegments, Node.span_rename, hkind, ih]
    | kept n =>
      simp only [List.map_cons, Segment.rename, ofSegments, Segment.width, Node.span_rename, ih]
    | opening kind => exact ih _
    | closing kind => exact ih _

theorem Addition.ofSegments_rename (began : Option Nat) (position : Nat)
    (segments : List Segment) :
    ofSegments began position (segments.map (Segment.rename ρ)) =
      ofSegments began position segments := by
  induction segments generalizing began position with
  | nil => rfl
  | cons s segments ih =>
    cases s with
    | changed n => simp only [List.map_cons, Segment.rename, ofSegments, Node.span_rename, ih]
    | kept n =>
      simp only [List.map_cons, Segment.rename, ofSegments, Segment.width, Node.span_rename, ih]
    | opening kind => simp only [List.map_cons, Segment.rename, ofSegments, Segment.width, ih]
    | closing kind => simp only [List.map_cons, Segment.rename, ofSegments, Segment.width, ih]

end Surveys

/-! ## Scaffolds -/

def Piece.rename (ρ : Handle → Handle) : Piece → Piece
  | opening kind => opening kind
  | closing kind => closing kind
  | kept h => kept (ρ h)

namespace Scaffold

variable (ρ : Handle → Handle)

theorem ofSegments_rename (segments : List Segment) :
    ofSegments (segments.map (Segment.rename ρ)) =
      (ofSegments segments).map (Piece.rename ρ) := by
  induction segments with
  | nil => rfl
  | cons s segments ih =>
    cases s with
    | opening kind => exact congrArg (Piece.opening kind :: ·) ih
    | closing kind => exact congrArg (Piece.closing kind :: ·) ih
    | changed n => exact ih
    | kept n =>
      have hpiece : (Segment.kept (n.rename ρ)).piece? = some (.kept (ρ n.handle)) := by
        rw [Segment.piece?, Node.handle_rename]
      rw [List.map_cons, Segment.rename, ofSegments, List.filterMap_cons_some hpiece]
      exact congrArg (Piece.kept (ρ n.handle) :: ·) ih

theorem keptHandles_rename (s : Scaffold) :
    keptHandles (s.map (Piece.rename ρ)) = (keptHandles s).map ρ := by
  induction s with
  | nil => rfl
  | cons p s ih =>
    cases p with
    | opening kind => exact ih
    | closing kind => exact ih
    | kept h => exact congrArg (ρ h :: ·) ih

theorem reachClosing_rename (depth : Nat) (s : Scaffold) :
    reachClosing depth (s.map (Piece.rename ρ)) = reachClosing depth s := by
  induction s generalizing depth with
  | nil => rfl
  | cons p s ih => cases p <;> simp [Piece.rename, reachClosing, ih]

theorem reachOpening_rename (depth : Nat) (s : Scaffold) :
    reachOpening depth (s.map (Piece.rename ρ)) = reachOpening depth s := by
  induction s generalizing depth with
  | nil => rfl
  | cons p s ih => cases p <;> simp [Piece.rename, reachOpening, ih]

theorem enclosureAt_rename (s : Scaffold) (i : Nat) :
    enclosureAt (s.map (Piece.rename ρ)) i = enclosureAt s i := by
  have hclosing : reachClosing 0 ((s.map (Piece.rename ρ)).drop i) =
      reachClosing 0 (s.drop i) := by
    rw [← List.map_drop, reachClosing_rename]
  have hopening : reachOpening 0 ((s.map (Piece.rename ρ)).take (i + 1)).reverse =
      reachOpening 0 (s.take (i + 1)).reverse := by
    rw [← List.map_take, ← List.map_reverse, reachOpening_rename]
  simp only [enclosureAt, List.getElem?_map, hclosing, hopening]
  cases s[i]? with
  | none => rfl
  | some p => cases p <;> rfl

theorem keptAround_rename (s : Scaffold) (i : Nat) :
    keptAround (s.map (Piece.rename ρ)) i = (keptAround s i).map ρ := by
  unfold keptAround
  rw [enclosureAt_rename]
  split
  · rw [← List.map_take, ← List.map_drop, keptHandles_rename]
  · rfl

theorem keptAt_rename (s : Scaffold) (i : Nat) :
    keptAt (s.map (Piece.rename ρ)) i = (keptAt s i).map ρ := by
  simp only [keptAt, List.getElem?_map]
  cases s[i]? with
  | none => rfl
  | some p => cases p <;> rfl

theorem displacedAt_rename (a b : Scaffold) (i : Nat) :
    displacedAt (a.map (Piece.rename ρ)) (b.map (Piece.rename ρ)) i =
      (displacedAt a b i).map ρ := by
  unfold displacedAt
  rw [keptAt_rename, keptAt_rename, keptAround_rename, keptAround_rename, ← List.map_append,
    ← List.map_append, List.isEmpty_map]
  split <;> rfl

variable {ρ}

/-- The scaffolds part at the same place if no two names fall together. -/
theorem firstDifference_rename {hs : Set Handle} (inj : Set.InjOn ρ hs) {a b : Scaffold}
    (ha : ∀ h ∈ keptHandles a, h ∈ hs) (hb : ∀ h ∈ keptHandles b, h ∈ hs) :
    firstDifference (a.map (Piece.rename ρ)) (b.map (Piece.rename ρ)) =
      firstDifference a b := by
  induction a generalizing b with
  | nil => cases b <;> rfl
  | cons p a ih =>
    cases b with
    | nil => rfl
    | cons q b =>
      have hpq : p.rename ρ = q.rename ρ ↔ p = q := by
        refine ⟨fun he => ?_, fun he => he ▸ rfl⟩
        cases p <;> cases q <;> simp only [Piece.rename, reduceCtorEq, Piece.opening.injEq,
          Piece.closing.injEq, Piece.kept.injEq] at he ⊢
        · exact he
        · exact he
        · exact inj (ha _ (by simp [keptHandles, Piece.kept?]))
            (hb _ (by simp [keptHandles, Piece.kept?])) he
      have htail : firstDifference (a.map (Piece.rename ρ)) (b.map (Piece.rename ρ)) =
          firstDifference a b := by
        refine ih (fun h hh => ha h ?_) (fun h hh => hb h ?_) <;>
        · rw [mem_keptHandles] at hh ⊢
          exact List.mem_cons_of_mem _ hh
      simp only [List.map_cons, firstDifference, hpq, htail]

theorem displaced_rename {hs : Set Handle} (inj : Set.InjOn ρ hs) {a b : Scaffold}
    (ha : ∀ h ∈ keptHandles a, h ∈ hs) (hb : ∀ h ∈ keptHandles b, h ∈ hs) :
    displaced (a.map (Piece.rename ρ)) (b.map (Piece.rename ρ)) = (displaced a b).map ρ := by
  unfold displaced
  rw [firstDifference_rename inj ha hb]
  split
  · rw [displacedAt_rename]
  · rfl

end Scaffold

/-! ## Settling -/

/-- The names given to two trees do not fall together, and the same nodes of the old one count as
claimed under both names. -/
structure Kindred (ρ : Handle → Handle) (claimed claimed' : Handle → Generation)
    (old new : Node) : Prop where
  inj : Set.InjOn ρ {h | h ∈ old.handles ++ new.handles}
  live : ∀ n ∈ old.nodes, old.born < claimed' (ρ n.handle) ↔ old.born < claimed n.handle

namespace Kindred

variable {ρ : Handle → Handle} {claimed claimed' : Handle → Generation} {old new : Node}
  {uprooted uprooted' : Handle → Bool}

theorem surveyOld (h : Kindred ρ claimed claimed' old new)
    (same : ∀ k ∈ old.handles ++ new.handles, uprooted' (ρ k) = uprooted k) :
    TreePatch.surveyOld claimed' uprooted' (old.rename ρ) =
      (TreePatch.surveyOld claimed uprooted old).map (Segment.rename ρ) := by
  refine surveyRoot_rename fun n hn => ?_
  have hmem : n.handle ∈ old.handles ++ new.handles := by
    rw [Node.handles_eq_map]
    exact List.mem_append_left _ (List.mem_map_of_mem hn)
  simp [Sieve.standing, h.live n hn, same _ hmem]

theorem surveyNew (_ : Kindred ρ claimed claimed' old new)
    (same : ∀ k ∈ old.handles ++ new.handles, uprooted' (ρ k) = uprooted k) :
    TreePatch.surveyNew uprooted' (new.rename ρ) =
      (TreePatch.surveyNew uprooted new).map (Segment.rename ρ) := by
  refine surveyRoot_rename fun n hn => ?_
  have hmem : n.handle ∈ old.handles ++ new.handles := by
    rw [Node.handles_eq_map new]
    exact List.mem_append_right _ (List.mem_map_of_mem hn)
  simp [Sieve.reused, same _ hmem]

theorem uprootNext (h : Kindred ρ claimed claimed' old new)
    (same : ∀ k ∈ old.handles ++ new.handles, uprooted' (ρ k) = uprooted k) :
    TreePatch.uprootNext claimed' (old.rename ρ) (new.rename ρ) uprooted' =
      (TreePatch.uprootNext claimed old new uprooted).map ρ := by
  unfold TreePatch.uprootNext
  rw [h.surveyOld same, h.surveyNew same, Scaffold.ofSegments_rename, Scaffold.ofSegments_rename]
  refine Scaffold.displaced_rename h.inj (fun k hk => ?_) (fun k hk => ?_) <;>
    obtain ⟨n, hn, rfl⟩ :=
      (Scaffold.mem_ofSegments _ _).mp ((Scaffold.mem_keptHandles _ _).mp hk)
  · exact List.mem_append_left _ (kept_mem_surveyRoot _ _ _ hn).1
  · exact List.mem_append_right _ (kept_mem_surveyRoot _ _ _ hn).1

/-- **Settling goes by the same rounds**, whichever handles have been uprooted already. -/
theorem settleFrom (h : Kindred ρ claimed claimed' old new)
    {uprooted uprooted' : Std.TreeSet Handle}
    (same : ∀ k ∈ old.handles ++ new.handles, uprooted'.contains (ρ k) = uprooted.contains k) :
    (TreePatch.settleFrom claimed' (old.rename ρ) (new.rename ρ) uprooted').old =
        (TreePatch.settleFrom claimed old new uprooted).old.map (Segment.rename ρ) ∧
      (TreePatch.settleFrom claimed' (old.rename ρ) (new.rename ρ) uprooted').new =
        (TreePatch.settleFrom claimed old new uprooted).new.map (Segment.rename ρ) := by
  fun_induction TreePatch.settleFrom claimed old new uprooted generalizing uprooted' with
  | case1 uprooted hnil =>
    have hnil' : TreePatch.uprootNext claimed' (old.rename ρ) (new.rename ρ)
        uprooted'.contains = [] := by
      rw [h.uprootNext same, hnil, List.map_nil]
    rw [TreePatch.settleFrom, if_pos hnil']
    exact ⟨h.surveyOld same, h.surveyNew same⟩
  | case2 uprooted hne ih =>
    have hne' : TreePatch.uprootNext claimed' (old.rename ρ) (new.rename ρ)
        uprooted'.contains ≠ [] := by
      rw [h.uprootNext same, ne_eq, List.map_eq_nil_iff]
      exact hne
    rw [TreePatch.settleFrom, if_neg hne', h.uprootNext same]
    refine ih fun k hk => ?_
    -- a name is among the new ones just if its node was among those uprooted
    have hfresh : ((TreePatch.uprootNext claimed old new uprooted.contains).map ρ).contains (ρ k) =
        (TreePatch.uprootNext claimed old new uprooted.contains).contains k := by
      rw [Bool.eq_iff_iff, List.contains_iff_mem, List.contains_iff_mem, List.mem_map]
      refine ⟨?_, fun hmem => ⟨k, hmem, rfl⟩⟩
      rintro ⟨j, hj, he⟩
      have hrooted := mem_rooted_of_mem_uprootNext _ _ _ _ _ hj
      rwa [← h.inj (List.mem_filter.mp hrooted).1 hk he]
    rw [Std.TreeSet.contains_insertMany_list, Std.TreeSet.contains_insertMany_list, same k hk,
      hfresh]

end Kindred
end TreePatch
