import TreePatch.Proofs.Added

/-! The first change and the first addition. Both are read off the tree from left to right, the one
by the generations of the nodes on the way, the other by the oldest generation in each tree. Behind
what both pass over stands a node built with the root, and the change is at the end of the
boundaries it begins with (`change_leads_additions`). -/

namespace TreePatch

open Segment Node

/-- What is known of the nodes in a root whose new texts are not empty. -/
structure Node.Regular (n root : Node) : Prop where
  stands : n ∈ root.nodes
  sized : n.Sized
  dated : ∀ m ∈ n.nodes, n.oldest ≤ m.born ∧ m.born ≤ n.born
  recent : n.born ≤ root.born
  written : n.born = root.born → n.layer.isLeaf = true → n.span ≠ 0

section Walk

variable {root n : Node} {ns : List Node} {position q : Nat}

theorem spares_of_regular (regular : ∀ m ∈ n.nodes, m.Regular root) :
    (Sieve.older root).Spares [n] := by
  refine older_spares fun m hm x hx => ((regular m ?_).dated x hx).1
  rwa [nodesAmong, nodesAmong, List.append_nil] at hm

theorem bornIn_of_bare (regular : ∀ m ∈ n.nodes, m.Regular root) (h : n.Bare (.older root)) :
    n.BornIn root.born :=
  fun m hm => Nat.le_antisymm (regular m hm).recent (older_keeps_eq_false.mp (h m hm))

/-! ## The change in a tree that is new -/

/-- A tree built with the root begins with boundaries up to where it is said to change, and no leaf
stands before that. -/
theorem changeFrom_of_bornIn (position : Nat) (n : Node) (regular : ∀ m ∈ n.nodes, m.Regular root)
    (h : n.BornIn root.born) : ∃ (kinds : List String) (rest : List Token),
      n.tokens = kinds.map .opening ++ rest ∧ kinds.length < n.span ∧
      changeFrom root.born position n = some (position + kinds.length) ∧
      ∀ l ∈ n.leavesFrom position, position + kinds.length ≤ l.2.start := by
  have hself := h n (mem_nodes_self n)
  have hsized : AllSized n.children := fun m hm => (regular m (mem_nodes_of_below hm)).sized
  cases n with
  | leaf tag text =>
    have hborn : ¬ tag.born < root.born := hself ▸ Nat.lt_irrefl _
    have hwidth := (regular _ (mem_nodes_self _)).written hself rfl
    refine ⟨[], _, rfl, Nat.pos_of_ne_zero hwidth, if_neg hborn, fun l hl => ?_⟩
    obtain rfl := List.mem_singleton.mp hl
    exact Nat.le_refl _
  | branch tag kind children =>
    have hborn : ¬ tag.born < root.born := hself ▸ Nat.lt_irrefl _
    have hspan := span_branch (regular _ (mem_nodes_self _)).sized hsized
    cases children with
    | nil =>
      refine ⟨[], _, rfl, by rw [hspan]; exact Nat.succ_pos _, if_neg hborn, fun l hl => ?_⟩
      cases hl
    | cons c cs =>
      obtain ⟨kinds, rest, htokens, hwidth, hchange, hleaves⟩ :=
        changeFrom_of_bornIn (position + 1) c
          (fun m hm => regular m (List.mem_cons_of_mem _ (List.mem_append_left _ hm)))
          (fun m hm => h m (List.mem_cons_of_mem _ (List.mem_append_left _ hm)))
      have hsum : spanAmong (c :: cs) = c.span + spanAmong cs := rfl
      refine ⟨kind :: kinds, rest ++ tokensAmong cs ++ [.closing kind], ?_, ?_, ?_, fun l hl => ?_⟩
      · simp [Node.tokens, tokensAmong, htokens]
      · rw [List.length_cons]
        omega
      · simp [changeFrom, changeAmong, hborn, hchange]
        omega
      · rw [List.length_cons]
        rcases List.mem_append.mp hl with hl | hl
        · have := hleaves l hl
          omega
        · have := ((leavesAmong_ascending _ cs hsized.tail).inside l hl).1
          omega

/-! ## What the walk passes over -/

theorem changeFrom_of_keeps (position : Nat) (h : (Sieve.older root).keeps n = true) :
    changeFrom root.born position n = none := by
  have hborn := older_keeps.mp h
  cases n with
  | leaf tag text => exact if_pos hborn
  | branch tag kind children => exact if_pos hborn

theorem changeFrom_of_opened (position : Nat) (hkeeps : (Sieve.older root).keeps n = false)
    (hkept : ∃ m ∈ nodesAmong n.children, (Sieve.older root).keeps m = true) :
    changeFrom root.born position n = changeAmong root.born (position + 1) n.children ∧
      n.leavesFrom position = leavesAmong (position + 1) n.children := by
  obtain ⟨m, hm, -⟩ := hkept
  have hrecent := older_keeps_eq_false.mp hkeeps
  cases n with
  | leaf tag text => cases hm
  | branch tag kind children =>
    have hborn : ¬ tag.born < root.born := Nat.not_lt_of_le hrecent
    cases children with
    | nil => cases hm
    | cons c cs => exact ⟨if_neg hborn, rfl⟩

mutual

/-- Each leaf that is listed is a node of the tree. -/
theorem exists_of_mem_leavesFrom (position : Nat) (n : Node) :
    ∀ l ∈ n.leavesFrom position, ∃ m ∈ n.nodes, m.handle = l.1 := by
  cases n with
  | leaf tag text =>
    intro l hl
    obtain rfl := List.mem_singleton.mp hl
    exact ⟨_, mem_nodes_self _, rfl⟩
  | branch tag kind children =>
    intro l hl
    obtain ⟨m, hm, hh⟩ := exists_of_mem_leavesAmong (position + 1) children l hl
    exact ⟨m, List.mem_cons_of_mem _ hm, hh⟩

theorem exists_of_mem_leavesAmong (position : Nat) (ns : List Node) :
    ∀ l ∈ leavesAmong position ns, ∃ m ∈ nodesAmong ns, m.handle = l.1 := by
  cases ns with
  | nil => exact List.forall_mem_nil _
  | cons n ns =>
    intro l hl
    rcases List.mem_append.mp hl with hl | hl
    · obtain ⟨m, hm, hh⟩ := exists_of_mem_leavesFrom position n l hl
      exact ⟨m, List.mem_append_left _ hm, hh⟩
    · obtain ⟨m, hm, hh⟩ := exists_of_mem_leavesAmong (position + n.span) ns l hl
      exact ⟨m, List.mem_append_right _ hm, hh⟩

end

/-- The handle is that of a node in the root that is older than the root. -/
def OlderIn (root : Node) (leaf : Handle) : Prop :=
  ∃ m ∈ root.nodes, m.handle = leaf ∧ m.born < root.born

theorem olderIn_of_keeps (position : Nat) (regular : ∀ m ∈ n.nodes, m.Regular root)
    (h : (Sieve.older root).keeps n = true) : ∀ l ∈ n.leavesFrom position, OlderIn root l.1 := by
  intro l hl
  obtain ⟨m, hm, hh⟩ := exists_of_mem_leavesFrom position n l hl
  have hdated := ((regular n (mem_nodes_self n)).dated m hm).2
  exact ⟨m, (regular m hm).stands, hh, Nat.lt_of_le_of_lt hdated (older_keeps.mp h)⟩

/-! ## What the walk tells -/

/-- A place in the first changed segment of a row, at the end of the boundaries that begins with. -/
structure FirstNew (position : Nat) (segments : List Segment) (q : Nat) (before : List Segment)
    (n : Node) (after : List Segment) (kinds : List String) : Prop where
  row : segments = before ++ .changed n :: after
  still : ∀ g ∈ before, g.isChanged = false
  tokens : ∃ rest, n.tokens = kinds.map .opening ++ rest
  inside : kinds.length < n.span
  place : q = position + totalWidth before + kinds.length

namespace FirstNew

variable {segments before after : List Segment} {kinds : List String}

theorem behind (front more : List Segment) (hfront : ∀ g ∈ front, g.isChanged = false)
    (h : FirstNew (position + totalWidth front) segments q before n after kinds) :
    FirstNew position (front ++ segments ++ more) q (front ++ before) n (after ++ more) kinds where
  row := by rw [h.row]; simp only [List.append_assoc, List.cons_append]
  still := List.forall_mem_append.mpr ⟨hfront, h.still⟩
  tokens := h.tokens
  inside := h.inside
  place := by rw [h.place, totalWidth_append, Nat.add_assoc position]

theorem lt_of_row (h : FirstNew position segments q before n after kinds) :
    q < position + totalWidth segments := by
  have := h.inside
  rw [h.place, h.row, totalWidth_append, totalWidth_cons, width]
  omega

end FirstNew

/-- What the walk tells of a row at a position, and of the leaves listed with it: nothing changes
and the leaves are older than the root, or this holds up to a place. -/
inductive Tells (root : Node) (position : Nat) (segments : List Segment)
    (leaves : List (Handle × Extent)) : Option Nat → Prop
  | nothing : (∀ g ∈ segments, g.isChanged = false) → (∀ l ∈ leaves, OlderIn root l.1) →
      Tells root position segments leaves none
  | change {q : Nat} {before : List Segment} {n : Node} {after : List Segment}
      {kinds : List String} : FirstNew position segments q before n after kinds →
      (∀ l ∈ leaves, l.2.start < q → OlderIn root l.1) →
      Tells root position segments leaves (some q)

namespace Tells

variable {segments later : List Segment} {leaves more : List (Handle × Extent)}
  {found next : Option Nat}

/-- The walk goes on to the rest of a row only if it has told of no change. -/
theorem append (h : Tells root position segments leaves found)
    (rest : Tells root (position + totalWidth segments) later more next)
    (behind : ∀ l ∈ more, position + totalWidth segments ≤ l.2.start) :
    Tells root position (segments ++ later) (leaves ++ more) (found.orElse fun _ => next) := by
  cases h with
  | nothing still older =>
    cases rest with
    | nothing still' older' =>
      exact .nothing (List.forall_mem_append.mpr ⟨still, still'⟩)
        (List.forall_mem_append.mpr ⟨older, older'⟩)
    | change first older' =>
      have hfirst := first.behind segments [] still
      rw [List.append_nil] at hfirst
      exact .change hfirst (List.forall_mem_append.mpr ⟨fun l hl _ => older l hl, older'⟩)
  | change first older =>
    refine .change (first.behind [] later (List.forall_mem_nil _))
      (List.forall_mem_append.mpr ⟨older, fun l hl hlt => ?_⟩)
    have hrow := first.lt_of_row
    have hlate := behind l hl
    omega

/-- Between the boundaries of a branch it tells the same. -/
theorem between (kind : String) (h : Tells root (position + 1) segments leaves found) :
    Tells root position (.opening kind :: (segments ++ [.closing kind])) leaves found := by
  cases h with
  | nothing still older =>
    refine .nothing (List.forall_mem_cons.mpr ⟨rfl, List.forall_mem_append.mpr ⟨still, ?_⟩⟩) older
    exact List.forall_mem_singleton.mpr rfl
  | change first older =>
    refine .change (first.behind [.opening kind] [.closing kind] ?_) older
    exact List.forall_mem_singleton.mpr rfl

end Tells

mutual

/-- **The walk tells of the first change** in a survey of what is older. -/
theorem tells_changeFrom (position : Nat) (n : Node) (regular : ∀ m ∈ n.nodes, m.Regular root) :
    Tells root position (survey (.older root) n) (n.leavesFrom position)
      (changeFrom root.born position n) := by
  rcases survey_fate (spares_of_regular regular) with
    ⟨hk, hrow⟩ | ⟨hb, hrow⟩ | ⟨kind, hkeeps, -, hkept, hrow⟩
  · rw [hrow, changeFrom_of_keeps position hk]
    exact .nothing (List.forall_mem_singleton.mpr rfl) (olderIn_of_keeps position regular hk)
  · obtain ⟨kinds, rest, htokens, hinside, hchange, hleaves⟩ :=
      changeFrom_of_bornIn position n regular (bornIn_of_bare regular hb)
    rw [hchange]
    refine .change ⟨hrow, List.forall_mem_nil _, ⟨rest, htokens⟩, hinside, rfl⟩ fun l hl hlt => ?_
    exact absurd (hleaves l hl) (Nat.not_le_of_lt hlt)
  · obtain ⟨hchange, hleaves⟩ := changeFrom_of_opened position hkeeps hkept
    rw [hrow, hchange, hleaves]
    exact (tells_changeFrom_below (position + 1) n
      fun m hm => regular m (mem_nodes_of_below hm)).between kind

theorem tells_changeFrom_below (position : Nat) (n : Node)
    (regular : ∀ m ∈ nodesAmong n.children, m.Regular root) :
    Tells root position (surveyAmong (.older root) n.children) (leavesAmong position n.children)
      (changeAmong root.born position n.children) := by
  cases n with
  | leaf tag text => exact .nothing (List.forall_mem_nil _) (List.forall_mem_nil _)
  | branch tag kind children => exact tells_changeAmong position children regular

theorem tells_changeAmong (position : Nat) (ns : List Node)
    (regular : ∀ m ∈ nodesAmong ns, m.Regular root) :
    Tells root position (surveyAmong (.older root) ns) (leavesAmong position ns)
      (changeAmong root.born position ns) := by
  cases ns with
  | nil => exact .nothing (List.forall_mem_nil _) (List.forall_mem_nil _)
  | cons n ns =>
    have hsized : AllSized (n :: ns) := fun m hm => (regular m hm).sized
    have hwidth := totalWidth_survey (.older root) hsized
    have hfirst := tells_changeFrom position n fun m hm => regular m (List.mem_append_left _ hm)
    have hrest := tells_changeAmong (position + n.span) ns
      fun m hm => regular m (List.mem_append_right _ hm)
    have hlate := (leavesAmong_ascending (position + n.span) ns hsized.tail).inside
    rw [← hwidth] at hrest hlate
    have happend := hfirst.append hrest fun l hl => (hlate l hl).1
    rwa [hwidth] at happend

end

end Walk

/-! ## Additions and content -/

/-- Nothing is added where nothing changes. -/
theorem Addition.ofSegments_still {before : List Segment} (position : Nat) (after : List Segment)
    (still : ∀ g ∈ before, g.isChanged = false) :
    ofSegments none position (before ++ after) =
      ofSegments none (position + totalWidth before) after := by
  induction before generalizing position with
  | nil => rfl
  | cons g before ih =>
    obtain ⟨hg, hbefore⟩ := List.forall_mem_cons.mp still
    rw [totalWidth_cons, ← Nat.add_assoc, ← ih _ hbefore]
    cases g with
    | changed n => cases hg
    | _ => rfl

theorem Addition.exists_cons {before : List Segment} {n : Node} (position : Nat)
    (after : List Segment) (still : ∀ g ∈ before, g.isChanged = false) (hn : n.span ≠ 0) :
    ∃ e rest, ofSegments none position (before ++ .changed n :: after) = e :: rest ∧
      e.start = position + totalWidth before ∧ e.start + n.span ≤ e.stop := by
  obtain ⟨run, later, -, -, hadditions⟩ :=
    ofSegments_changed (position + totalWidth before) n after
  rw [ofSegments_still position _ still, hadditions, close, totalWidth_cons, width,
    if_pos (by omega)]
  exact ⟨_, _, rfl, rfl, by simp only; omega⟩

theorem normal_openings (kinds : List String) : Normal (kinds.map .opening) := by
  induction kinds with
  | nil => exact normal_nil
  | cons kind kinds ih => exact (normal_opening kind _).mpr ih

theorem listWidth_openings (kinds : List String) :
    Token.listWidth (kinds.map .opening) = kinds.length := by
  induction kinds with
  | nil => rfl
  | cons kind kinds ih =>
    rw [List.map_cons, Token.listWidth_cons, ih, Token.width, List.length_cons, Nat.add_comm]

/-- Boundaries that open are cut out as they stand. -/
theorem slice_openings (before after : List Token) (kinds : List String) :
    ∃ inside, (Fragment.ofTokens (before ++ kinds.map .opening ++ after)).slice
        ⟨Token.listWidth before, Token.listWidth before + kinds.length⟩ = .ok inside ∧
      ∀ t ∈ inside.tokens, ∃ kind, t = .opening kind := by
  have hcut := Fragment.slice_append (.ofTokens before) (.ofTokens (kinds.map .opening))
    (.ofTokens after)
  rw [← Fragment.ofTokens_append, ← Fragment.ofTokens_append, Fragment.size_ofTokens,
    Fragment.size_ofTokens, listWidth_openings] at hcut
  refine ⟨_, hcut, fun t ht => ?_⟩
  have htokens : (Fragment.ofTokens (kinds.map .opening)).tokens = kinds.map .opening :=
    normalize_eq_self _ (normal_openings kinds)
  rw [htokens] at ht
  obtain ⟨kind, -, rfl⟩ := List.mem_map.mp ht
  exact ⟨kind, rfl⟩

/-- What the walk tells holds of the additions: there are none if nothing changes, and else the
place is in the first, behind the boundaries that begins with. -/
theorem additions_of_tells {root : Node} {segments : List Segment}
    {leaves : List (Handle × Extent)} {found : Option Nat} (hs : ∀ g ∈ segments, g.Sized)
    (h : Tells root 0 segments leaves found) :
    (found = none ↔ Addition.ofSegments none 0 segments = []) ∧ ∀ q, found = some q →
      (∃ e rest, Addition.ofSegments none 0 segments = e :: rest ∧ e.start ≤ q ∧ q < e.stop ∧
        ∃ inside, (rendering segments).slice ⟨e.start, q⟩ = .ok inside ∧
          ∀ t ∈ inside.tokens, ∃ kind, t = .opening kind) ∧
      ∀ l ∈ leaves, l.2.start < q → OlderIn root l.1 := by
  cases h with
  | nothing still older =>
    have hnothing := Addition.ofSegments_still 0 [] still
    rw [List.append_nil] at hnothing
    refine ⟨iff_of_true rfl hnothing, fun q hq => ?_⟩
    cases hq
  | @change q before n after kinds first older =>
    have hinside := first.inside
    have hplace := first.place
    obtain ⟨rest, htokens⟩ := first.tokens
    obtain ⟨e, more, hadditions, hstart, hstop⟩ := Addition.exists_cons 0 after first.still
      (Nat.ne_of_gt (Nat.zero_lt_of_lt hinside))
    rw [← first.row] at hadditions
    rw [Nat.zero_add] at hplace hstart
    have hbefore : Token.listWidth (before.flatMap Segment.tokens) = totalWidth before := by
      rw [← size_rendering fun g hg => hs g (first.row ▸ List.mem_append_left _ hg), rendering,
        Fragment.size_ofTokens]
    have hrow : segments.flatMap Segment.tokens = before.flatMap Segment.tokens ++
        kinds.map .opening ++ (rest ++ after.flatMap Segment.tokens) := by
      rw [first.row]
      simp [Segment.tokens, htokens]
    have hadded : Addition.ofSegments none 0 segments ≠ [] := hadditions ▸ List.cons_ne_nil e more
    refine ⟨iff_of_false (Option.some_ne_none q) hadded, fun _ hq => ?_⟩
    obtain rfl := Option.some.inj hq
    refine ⟨⟨e, more, hadditions, by omega, by omega, ?_⟩, older⟩
    rw [hstart, hplace, rendering, hrow, ← hbefore]
    exact slice_openings _ _ kinds

namespace Forest

variable {f : Forest} {c : Handle} {root : Node}

theorem Sound.regular (hf : f.Sound) (hc : f.node c = .ok root)
    (written : ∀ tag text, .leaf tag text ∈ root.nodes → tag.born = root.born → text ≠ "") :
    ∀ m ∈ root.nodes, m.Regular root := by
  intro m hm
  have hsized := hf.sized hc m hm
  refine ⟨hm, hsized, hf.dated hc m hm, hf.born_le_root hc m hm, fun hborn hleaf => ?_⟩
  cases m with
  | leaf tag text =>
    have hunits := mt (Text.units_eq_zero_iff text).mp (written tag text hm hborn)
    rw [hsized]
    simpa [Node.tokens, Token.width] using hunits
  | branch tag kind children => cases hleaf

end Forest

/-- The first change of a root with content is the one the walk tells of. -/
theorem tells_firstChange {root : Node} (content : root.content.size ≠ 0)
    (regular : ∀ m ∈ root.nodes, m.Regular root) :
    Tells root 0 (surveyNew (fun _ => false) root) root.leafExtents root.firstChange := by
  have hself := regular root (mem_nodes_self root)
  cases root with
  | leaf tag text =>
    have hwidth := hself.written rfl rfl
    have hrow : surveyNew (fun _ => false) (.leaf tag text) = [.changed (.leaf tag text)] := by
      simp [surveyNew, surveyRoot, Sieve.reused]
    have hfirst : FirstNew 0 (surveyNew (fun _ => false) (.leaf tag text)) 0 [] (.leaf tag text) []
        [] := ⟨hrow, List.forall_mem_nil _, ⟨_, rfl⟩, Nat.pos_of_ne_zero hwidth, rfl⟩
    exact .change hfirst fun l _ hlt => absurd hlt (Nat.not_lt_zero _)
  | branch tag kind children =>
    have htells := tells_changeAmong 0 children fun m hm => regular m (List.mem_cons_of_mem _ hm)
    rw [surveyNew_branch]
    cases children with
    | nil => exact absurd rfl content
    | cons n ns => exact htells

/-- A new list whose one item holds a new text comes behind an old text in a new section. -/
def listedForest : Forest :=
  Scripted.forest [
    .build (.branch "doc" [.leaf "a" none] none),
    .advance,
    .build (.branch "doc" [.branch "section" [.node (.index 0),
      .branch "list" [.branch "item" [.leaf "b" none] none] none] none] none)]

def listedText : Node :=
  .branch ⟨⟨0, 6⟩, 10, 1, 1, 0⟩ "doc" [
    .branch ⟨⟨0, 5⟩, 8, 1, 0, 0⟩ "section" [
      .leaf ⟨⟨0, 0⟩, 1, 0, 0, 0⟩ "a",
      .branch ⟨⟨0, 4⟩, 5, 1, 1, 1⟩ "list" [
        .branch ⟨⟨0, 3⟩, 3, 1, 1, 1⟩ "item" [.leaf ⟨⟨0, 2⟩, 1, 1, 1, 1⟩ "b"]]]]

end TreePatch
