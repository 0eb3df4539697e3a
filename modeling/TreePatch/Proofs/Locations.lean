import Mathlib.Data.List.Basic
import TreePatch.Position
import TreePatch.Proofs.Between
import TreePatch.Proofs.Grammar

/-! Where the nodes of a tree stand, and what is found there. A path of child numbers leads from
the root to each occurrence of a node, past the spans of what comes before it. The content of
the root holds just the tokens of the node there, whatever text was joined on either side
(`rendering_located`). -/

namespace TreePatch
namespace Node

/-- The node a path of child numbers leads to from a node that starts at a position below the
root, and where it starts. -/
def follow : Nat → Node → List Nat → Option (Node × Nat)
  | position, n, [] => some (n, position)
  | position, n, i :: path => n.children[i]?.bind fun c =>
      c.follow (position + 1 + spanAmong (n.children.take i)) path

/-- The same from a row of siblings; the path begins with the number of one of them. -/
def followAmong (position : Nat) (ns : List Node) : List Nat → Option (Node × Nat)
  | [] => none
  | i :: path => ns[i]?.bind fun n => n.follow (position + spanAmong (ns.take i)) path

/-- The node a path leads to from the root, whose own boundaries take up no positions. -/
def locate (root : Node) : List Nat → Option (Node × Nat)
  | [] => some (root, 0)
  | i :: path => followAmong 0 root.children (i :: path)

def extentFrom (start : Nat) (n : Node) : Extent := ⟨start, start + n.span⟩

@[simp] theorem follow_nil (position : Nat) (n : Node) :
    n.follow position [] = some (n, position) := rfl

theorem follow_cons (position : Nat) (n : Node) (i : Nat) (path : List Nat) :
    n.follow position (i :: path) = followAmong (position + 1) n.children (i :: path) := rfl

theorem followAmong_cons_eq_some_iff {position : Nat} {ns : List Node} {i : Nat} {path : List Nat}
    {found : Node × Nat} :
    followAmong position ns (i :: path) = some found ↔
      ∃ n, ns[i]? = some n ∧ n.follow (position + spanAmong (ns.take i)) path = some found :=
  Option.bind_eq_some_iff

/-! ## What stands before and after an occurrence -/

theorem tokensAmong_append (a b : List Node) :
    tokensAmong (a ++ b) = tokensAmong a ++ tokensAmong b := by
  induction a with
  | nil => rfl
  | cons n a ih => simp only [List.cons_append, tokensAmong, ih, List.append_assoc]

theorem spanAmong_append (a b : List Node) : spanAmong (a ++ b) = spanAmong a + spanAmong b := by
  induction a with
  | nil => exact (Nat.zero_add _).symm
  | cons n a ih =>
    change n.span + spanAmong (a ++ b) = n.span + spanAmong a + spanAmong b
    rw [ih, Nat.add_assoc]

theorem eq_take_append_drop {ns : List Node} {i : Nat} {n : Node} (h : ns[i]? = some n) :
    ns = ns.take i ++ n :: ns.drop (i + 1) := by
  obtain ⟨hi, hn⟩ := List.getElem?_eq_some_iff.mp h
  rw [← hn, ← List.drop_eq_getElem_cons hi, List.take_append_drop]

theorem tokensAmong_split {ns : List Node} {i : Nat} {n : Node} (h : ns[i]? = some n) :
    tokensAmong ns = tokensAmong (ns.take i) ++ n.tokens ++ tokensAmong (ns.drop (i + 1)) := by
  calc tokensAmong ns = tokensAmong (ns.take i ++ n :: ns.drop (i + 1)) :=
        congrArg _ (eq_take_append_drop h)
    _ = _ := by rw [tokensAmong_append, tokensAmong, List.append_assoc]

/-- The tokens have those of the node in them, behind others that are as wide as the offset. -/
def Stands (n : Node) (offset : Nat) (ts : List Token) : Prop :=
  ∃ before after, ts = before ++ n.tokens ++ after ∧ Token.listWidth before = offset

theorem Stands.within {n : Node} {offset : Nat} {ts : List Token} (h : n.Stands offset ts)
    (before after : List Token) :
    n.Stands (Token.listWidth before + offset) (before ++ ts ++ after) := by
  obtain ⟨front, back, rfl, rfl⟩ := h
  exact ⟨before ++ front, back ++ after, by simp only [List.append_assoc],
    Token.listWidth_append before front⟩

/-- A cut at the ends of a node takes out its tokens, though text on either side was joined. -/
theorem Stands.slice {n : Node} {offset : Nat} {ts : List Token} (h : n.Stands offset ts)
    (hn : n.Sized) :
    (Fragment.ofTokens ts).slice (n.extentFrom offset) = .ok (.ofTokens n.tokens) := by
  obtain ⟨before, after, rfl, rfl⟩ := h
  have hcut := Fragment.slice_append (.ofTokens before) (.ofTokens n.tokens) (.ofTokens after)
  rw [← Fragment.ofTokens_append, ← Fragment.ofTokens_append, Fragment.size_ofTokens,
    Fragment.size_ofTokens, ← hn] at hcut
  exact hcut

/-- Every node below has the span that was noted of it. -/
def AllSized (ns : List Node) : Prop := ∀ n ∈ nodesAmong ns, n.Sized

theorem AllSized.child {ns : List Node} (hs : AllSized ns) {n : Node} (hn : n ∈ ns) :
    n.Sized ∧ AllSized n.children := by
  refine ⟨hs n (mem_nodesAmong.mpr ⟨n, hn, mem_nodes_self n⟩), fun m hm => ?_⟩
  refine hs m (mem_nodesAmong.mpr ⟨n, hn, ?_⟩)
  cases n with
  | leaf tag text => simp [children, nodesAmong] at hm
  | branch tag kind children => exact List.mem_cons_of_mem _ hm

/-- What a path leads to stands as far in as was counted on the way. -/
theorem stands_of_followAmong {ns : List Node} {m : Node} {position start : Nat} {path : List Nat}
    (hs : AllSized ns) (h : followAmong position ns path = some (m, start)) :
    m ∈ nodesAmong ns ∧ ∃ offset, start = position + offset ∧ m.Stands offset (tokensAmong ns) := by
  induction path generalizing ns position with
  | nil => cases h
  | cons i path ih =>
    obtain ⟨n, hn, hfollow⟩ := followAmong_cons_eq_some_iff.mp h
    have hmem : n ∈ ns := List.mem_of_getElem? hn
    have hbefore : spanAmong (ns.take i) = Token.listWidth (tokensAmong (ns.take i)) :=
      Forest.spanAmong_eq fun x hx => (hs.child (List.mem_of_mem_take hx)).1
    have hself : n.Stands 0 n.tokens := ⟨[], [], by simp, rfl⟩
    -- whatever stands in the child stands behind its earlier siblings too
    have hplace : ∀ {x : Node} {offset : Nat}, x.Stands offset n.tokens →
        x.Stands (spanAmong (ns.take i) + offset) (tokensAmong ns) := by
      intro x offset hx
      rw [tokensAmong_split hn, hbefore]
      exact hx.within _ _
    cases path with
    | nil =>
      obtain ⟨rfl, rfl⟩ := Prod.mk.inj (Option.some.inj hfollow)
      exact ⟨mem_nodesAmong.mpr ⟨n, hmem, mem_nodes_self n⟩, _, rfl, hplace hself⟩
    | cons j path =>
      rw [follow_cons] at hfollow
      obtain ⟨hm, offset, rfl, hoffset⟩ := ih (hs.child hmem).2 hfollow
      cases n with
      | leaf tag text => simp [children, nodesAmong] at hm
      | branch tag kind children =>
        refine ⟨mem_nodesAmong.mpr ⟨_, hmem, List.mem_cons_of_mem _ hm⟩,
          spanAmong (ns.take i) + (1 + offset), by omega, ?_⟩
        exact hplace (hoffset.within [.opening kind] [.closing kind])

/-! ## The leaves in order -/

mutual

/-- The paths from a node to its leaves, in document order. -/
def leafPaths : Node → List (List Nat)
  | leaf _ _ => [[]]
  | branch _ _ children => leafPathsAmong 0 children

/-- The same from a row of siblings whose first has the number given. -/
def leafPathsAmong (number : Nat) : List Node → List (List Nat)
  | [] => []
  | n :: ns => (leafPaths n).map (number :: ·) ++ leafPathsAmong (number + 1) ns

end

theorem mem_leafPathsAmong {number : Nat} {ns : List Node} {path : List Nat} :
    path ∈ leafPathsAmong number ns ↔
      ∃ i n rest, path = (number + i) :: rest ∧ ns[i]? = some n ∧ rest ∈ n.leafPaths := by
  induction ns generalizing number with
  | nil => simp [leafPathsAmong]
  | cons n ns ih =>
    rw [leafPathsAmong, List.mem_append, ih, List.mem_map]
    constructor
    · rintro (⟨rest, hrest, rfl⟩ | ⟨i, m, rest, rfl, hm, hrest⟩)
      · exact ⟨0, n, rest, rfl, rfl, hrest⟩
      · exact ⟨i + 1, m, rest, by rw [Nat.add_right_comm, Nat.add_assoc], hm, hrest⟩
    · rintro ⟨i, m, rest, rfl, hm, hrest⟩
      cases i with
      | zero =>
        obtain rfl : n = m := by simpa using hm
        exact Or.inl ⟨rest, hrest, rfl⟩
      | succ i => exact Or.inr ⟨i, m, rest, by rw [Nat.add_right_comm, Nat.add_assoc], hm, hrest⟩

theorem nil_mem_leafPaths_iff (n : Node) : [] ∈ n.leafPaths ↔ n.layer.isLeaf = true := by
  cases n with
  | leaf tag text => simp [leafPaths, layer, Layer.isLeaf]
  | branch tag kind children => simp [leafPaths, mem_leafPathsAmong, layer, Layer.isLeaf]

theorem cons_mem_leafPaths_iff (n : Node) (i : Nat) (path : List Nat) :
    i :: path ∈ n.leafPaths ↔ i :: path ∈ leafPathsAmong 0 n.children := by
  cases n with
  | leaf tag text => simp [leafPaths, leafPathsAmong, children]
  | branch tag kind below => rfl

theorem mem_leafPathsAmong_iff_followAmong {position : Nat} {ns : List Node} {path : List Nat} :
    path ∈ leafPathsAmong 0 ns ↔ ∃ m start, followAmong position ns path = some (m, start) ∧
      m.layer.isLeaf = true := by
  induction path generalizing ns position with
  | nil => simp [mem_leafPathsAmong, followAmong]
  | cons i path ih =>
    have hchild : ∀ (n : Node) (position : Nat), path ∈ n.leafPaths ↔
        ∃ m start, n.follow position path = some (m, start) ∧ m.layer.isLeaf = true := by
      intro n position
      cases path with
      | nil => simp [nil_mem_leafPaths_iff]
      | cons j path => rw [cons_mem_leafPaths_iff, ih, follow_cons]
    simp only [mem_leafPathsAmong, Nat.zero_add, followAmong_cons_eq_some_iff]
    constructor
    · rintro ⟨j, n, rest, he, hn, hrest⟩
      obtain ⟨rfl, rfl⟩ := List.cons.inj he
      obtain ⟨m, start, hfollow, hleaf⟩ := (hchild n _).mp hrest
      exact ⟨m, start, ⟨n, hn, hfollow⟩, hleaf⟩
    · rintro ⟨m, start, ⟨n, hn, hfollow⟩, hleaf⟩
      exact ⟨i, n, path, rfl, hn, (hchild n _).mpr ⟨m, start, hfollow, hleaf⟩⟩

/-- The paths are just those that lead to a leaf. -/
theorem mem_leafPaths_iff_locate (root : Node) (path : List Nat) :
    path ∈ root.leafPaths ↔ ∃ m start, root.locate path = some (m, start) ∧
      m.layer.isLeaf = true := by
  cases path with
  | nil => simp [nil_mem_leafPaths_iff, locate]
  | cons i path => rw [cons_mem_leafPaths_iff, mem_leafPathsAmong_iff_followAmong, locate]

mutual

/-- They come in the order of the document, each once. -/
theorem leafPaths_sorted (n : Node) : n.leafPaths.Pairwise (· < ·) := by
  cases n with
  | leaf tag text => exact List.pairwise_singleton _ _
  | branch tag kind children => exact leafPathsAmong_sorted 0 children

theorem leafPathsAmong_sorted (number : Nat) (ns : List Node) :
    (leafPathsAmong number ns).Pairwise (· < ·) := by
  cases ns with
  | nil => exact .nil
  | cons n ns =>
    rw [leafPathsAmong, List.pairwise_append, List.pairwise_map]
    refine ⟨(leafPaths_sorted n).imp fun h => List.cons_lt_cons_iff.mpr (Or.inr ⟨rfl, h⟩),
      leafPathsAmong_sorted (number + 1) ns, ?_⟩
    intro first hfirst later hlater
    obtain ⟨rest, -, rfl⟩ := List.mem_map.mp hfirst
    obtain ⟨i, -, rest', rfl, -, -⟩ := mem_leafPathsAmong.mp hlater
    exact List.cons_lt_cons_iff.mpr (Or.inl (by omega))

end

/-- How a leaf is listed. -/
def listed (found : Node × Nat) : Handle × Extent := (found.1.handle, found.1.extentFrom found.2)

mutual

/-- The list of the leaves follows the paths to them. -/
theorem leavesFrom_eq (position : Nat) (n : Node) :
    n.leavesFrom position =
      n.leafPaths.filterMap fun path => (n.follow position path).map listed := by
  cases n with
  | leaf tag text => rfl
  | branch tag kind children =>
    rw [leavesFrom, leafPaths]
    have h := leavesAmong_eq (position + 1) [] children
    simp only [List.nil_append, List.length_nil] at h
    refine h.trans (List.filterMap_congr fun path hpath => ?_)
    obtain ⟨i, c, rest, rfl, -, -⟩ := mem_leafPathsAmong.mp hpath
    rfl

theorem leavesAmong_eq (position : Nat) (front ns : List Node) :
    leavesAmong (position + spanAmong front) ns =
      (leafPathsAmong front.length ns).filterMap fun path =>
        (followAmong position (front ++ ns) path).map listed := by
  cases ns with
  | nil => rfl
  | cons n ns =>
    have hlater := leavesAmong_eq position (front ++ [n]) ns
    rw [spanAmong_append, List.length_append, List.append_assoc] at hlater
    rw [leavesAmong, leafPathsAmong, List.filterMap_append, List.filterMap_map,
      leavesFrom_eq (position + spanAmong front) n]
    congr 1
    · refine List.filterMap_congr fun path _ => ?_
      simp [followAmong]
    · rw [Nat.add_assoc]
      exact hlater

end

/-- The leaves of a tree are listed where the paths to them lead. -/
theorem leafExtents_eq (root : Node) :
    root.leafExtents = root.leafPaths.filterMap fun path => (root.locate path).map listed := by
  cases root with
  | leaf tag text => rfl
  | branch tag kind children =>
    have h := leavesAmong_eq 0 [] children
    refine h.trans (List.filterMap_congr fun path hpath => ?_)
    obtain ⟨i, c, rest, rfl, -, -⟩ := mem_leafPathsAmong.mp hpath
    rfl

/-! ## The extents of the leaves -/

theorem AllSized.tail {n : Node} {ns : List Node} (hs : AllSized (n :: ns)) : AllSized ns :=
  fun m hm => hs m (List.mem_append_right _ hm)

/-- Both boundaries of a branch count. -/
theorem span_branch {tag : Tag} {kind : String} {children : List Node}
    (h : (branch tag kind children).Sized) (hs : AllSized children) :
    (branch tag kind children).span = spanAmong children + 2 := by
  rw [h, Forest.spanAmong_eq fun c hc => (hs.child hc).1]
  simp only [tokens, List.cons_append, Token.listWidth_append, Token.listWidth_cons,
    Token.listWidth_nil, Token.width]
  omega

/-- Extents in order inside a stretch, none reaching into the next. -/
structure Ascending (start stop : Nat) (es : List (Handle × Extent)) : Prop where
  apart : es.Pairwise fun a b => a.2.stop ≤ b.2.start
  inside : ∀ e ∈ es, start ≤ e.2.start ∧ e.2.start ≤ e.2.stop ∧ e.2.stop ≤ stop

theorem Ascending.append {start middle stop : Nat} {a b : List (Handle × Extent)}
    (ha : Ascending start middle a) (hb : Ascending middle stop b) (hle : start ≤ middle)
    (hge : middle ≤ stop) : Ascending start stop (a ++ b) where
  apart := List.pairwise_append.mpr ⟨ha.apart, hb.apart, fun d hd e he =>
    Nat.le_trans (ha.inside d hd).2.2 (hb.inside e he).1⟩
  inside := by
    intro e he
    rcases List.mem_append.mp he with he | he
    · obtain ⟨hfirst, hwidth, hlast⟩ := ha.inside e he
      exact ⟨hfirst, hwidth, Nat.le_trans hlast hge⟩
    · obtain ⟨hfirst, hwidth, hlast⟩ := hb.inside e he
      exact ⟨Nat.le_trans hle hfirst, hwidth, hlast⟩

theorem Ascending.weaken {start stop start' stop' : Nat} {es : List (Handle × Extent)}
    (h : Ascending start stop es) (first : start' ≤ start) (last : stop ≤ stop') :
    Ascending start' stop' es where
  apart := h.apart
  inside e he := by
    obtain ⟨hfirst, hwidth, hlast⟩ := h.inside e he
    exact ⟨Nat.le_trans first hfirst, hwidth, Nat.le_trans hlast last⟩

mutual

theorem leavesFrom_ascending (position : Nat) (n : Node) (h : n.Sized) (hs : AllSized n.children) :
    Ascending position (position + n.span) (n.leavesFrom position) := by
  cases n with
  | leaf tag text =>
    refine ⟨List.pairwise_singleton _ _, fun e he => ?_⟩
    obtain rfl := List.mem_singleton.mp he
    exact ⟨Nat.le_refl _, Nat.le_add_right _ _, Nat.le_refl _⟩
  | branch tag kind children =>
    have hwidth := span_branch h hs
    exact (leavesAmong_ascending (position + 1) children hs).weaken (by omega) (by omega)

theorem leavesAmong_ascending (position : Nat) (ns : List Node) (hs : AllSized ns) :
    Ascending position (position + spanAmong ns) (leavesAmong position ns) := by
  cases ns with
  | nil => exact ⟨.nil, List.forall_mem_nil _⟩
  | cons n ns =>
    obtain ⟨hn, hchildren⟩ := hs.child List.mem_cons_self
    have hlater := leavesAmong_ascending (position + n.span) ns hs.tail
    rw [Nat.add_assoc] at hlater
    exact (leavesFrom_ascending position n hn hchildren).append hlater (Nat.le_add_right _ _)
      (Nat.add_le_add_left (Nat.le_add_right _ _) _)

end

theorem leafExtents_ascending {root : Node} (hs : AllSized [root]) :
    Ascending 0 root.innerSpan root.leafExtents := by
  obtain ⟨hroot, hchildren⟩ := hs.child List.mem_cons_self
  cases root with
  | leaf tag text =>
    have h := leavesFrom_ascending 0 (leaf tag text) hroot hchildren
    rwa [Nat.zero_add] at h
  | branch tag kind children =>
    have hwidth := span_branch hroot hchildren
    have hinner : (branch tag kind children).innerSpan = spanAmong children :=
      Nat.sub_eq_of_eq_add hwidth
    have h := leavesAmong_ascending 0 children hchildren
    rwa [Nat.zero_add, ← hinner] at h

/-! ## Slices of the content -/

/-- Below the root, and at a root that is a leaf, the content has the node where it is located. -/
theorem slice_content {root n : Node} {start : Nat} {path : List Nat} (hs : AllSized [root])
    (h : root.locate path = some (n, start)) (hpath : path ≠ [] ∨ n.layer.isLeaf = true) :
    n ∈ root.nodes ∧ root.content.slice (n.extentFrom start) = .ok (.ofTokens n.tokens) := by
  obtain ⟨hroot, hchildren⟩ := hs.child List.mem_cons_self
  cases root with
  | leaf tag text =>
    cases path with
    | nil =>
      obtain ⟨rfl, rfl⟩ := Prod.mk.inj (Option.some.inj h)
      have hself : (leaf tag text).Stands 0 [.text text] := ⟨[], [], rfl, rfl⟩
      exact ⟨mem_nodes_self _, hself.slice hroot⟩
    | cons i path => simp [locate, children, followAmong] at h
  | branch tag kind children =>
    cases path with
    | nil =>
      obtain ⟨rfl, rfl⟩ := Prod.mk.inj (Option.some.inj h)
      simp [layer, Layer.isLeaf] at hpath
    | cons i path =>
      rw [locate] at h
      obtain ⟨hn, offset, rfl, hstands⟩ := stands_of_followAmong hchildren h
      rw [Nat.zero_add, content, contentTokens_branch]
      exact ⟨List.mem_cons_of_mem _ hn, hstands.slice (hchildren n hn)⟩

end Node

open Node

theorem Forest.Sound.allSized {f : Forest} (hf : f.Sound) {h : Handle} {root : Node}
    (hr : f.node h = .ok root) : AllSized [root] := by
  intro n hn
  rw [nodesAmong, nodesAmong, List.append_nil] at hn
  exact hf.sized hr n hn

/-- **Positions and rendering agree.** The content is normal and balanced and as wide as counted. At
every node below the root it has just the tokens of that node. The leaves are listed in the
order of the paths to them, none reaching into the next, and a slice at each is its text. -/
theorem rendering_located {f : Forest} (hf : f.Reachable) {h : Handle} {root : Node}
    (hr : f.node h = .ok root) :
    (Normal root.content.tokens ∧ Balanced root.content.tokens ∧
      root.content.firstUnmatched = none ∧ root.content.size = root.innerSpan) ∧
    (∀ path n start, path ≠ [] → root.locate path = some (n, start) →
      f.node n.handle = .ok n ∧
        root.content.slice ⟨start, start + n.span⟩ = .ok (.ofTokens n.tokens)) ∧
    (∃ paths : List (List Nat), paths.Pairwise (· < ·) ∧
      (∀ path, path ∈ paths ↔
        ∃ n start, root.locate path = some (n, start) ∧ n.layer.isLeaf = true) ∧
      root.leafExtents = paths.filterMap fun path => (root.locate path).map fun found =>
        (found.1.handle, ⟨found.2, found.2 + found.1.span⟩)) ∧
    root.leafExtents.Pairwise (fun a b => a.2.stop ≤ b.2.start) ∧
    ∀ leaf e, (leaf, e) ∈ root.leafExtents → e.start ≤ e.stop ∧
      ∃ tag text, f.node leaf = .ok (.leaf tag text) ∧
        root.content.slice e = .ok (.ofTokens [.text text]) := by
  have hs : AllSized [root] := hf.sound.allSized hr
  refine ⟨⟨root.content.normal, (Fragment.matched_iff_balanced _).mp root.matched_content,
    root.matched_content, size_content (hf.sound.sized_node hr)⟩, ?_, ?_, ?_, ?_⟩
  · intro path n start hpath hlocate
    obtain ⟨hn, hslice⟩ := slice_content hs hlocate (Or.inl hpath)
    exact ⟨hf.sound.held hr n hn, hslice⟩
  · exact ⟨root.leafPaths, root.leafPaths_sorted, root.mem_leafPaths_iff_locate,
      root.leafExtents_eq⟩
  · exact (leafExtents_ascending hs).apart
  · intro leaf e he
    refine ⟨((leafExtents_ascending hs).inside _ he).2.1, ?_⟩
    rw [root.leafExtents_eq, List.mem_filterMap] at he
    obtain ⟨path, hpath, hlisted⟩ := he
    obtain ⟨n, start, hlocate, hleaf⟩ := (root.mem_leafPaths_iff_locate path).mp hpath
    obtain ⟨hn, hslice⟩ := slice_content hs hlocate (Or.inr hleaf)
    rw [hlocate] at hlisted
    obtain ⟨rfl, rfl⟩ := Prod.mk.inj (Option.some.inj hlisted)
    have hheld := hf.sound.held hr n hn
    cases n with
    | leaf tag text => exact ⟨tag, text, hheld, hslice⟩
    | branch tag kind children => simp [layer, Layer.isLeaf] at hleaf

/-- Two texts that become one token, and a second of two positions. -/
def seamForest : Forest :=
  Scripted.forest [.build (.branch "doc" [.leaf "a" none, .leaf "🦀" none,
    .branch "paragraph" [.leaf "b" none] none] (some "r"))]

theorem rendering_located_seam : ∃ root, seamForest.node ⟨0, 4⟩ = .ok root ∧
    root.content = .ofTokens [.text "a🦀", .opening "paragraph", .text "b", .closing "paragraph"] ∧
    root.content.size = 6 ∧
    root.content.slice ⟨1, 3⟩ = .ok (.ofTokens [.text "🦀"]) ∧
    root.content.slice ⟨3, 6⟩ =
      .ok (.ofTokens [.opening "paragraph", .text "b", .closing "paragraph"]) ∧
    root.leafExtents = [(⟨0, 0⟩, ⟨0, 1⟩), (⟨0, 1⟩, ⟨1, 3⟩), (⟨0, 2⟩, ⟨4, 5⟩)] := by
  have hr : seamForest.node ⟨0, 4⟩ = .ok _ := rfl
  obtain ⟨⟨-, -, -, hsize⟩, hslice, -⟩ := rendering_located (Scripted.reachable_forest _) hr
  refine ⟨_, hr, by decide, hsize.trans (by decide), ?_, ?_, by decide⟩
  · exact (hslice [1] _ _ (by decide) rfl).2
  · exact (hslice [2] _ _ (by decide) rfl).2

end TreePatch
