import TreePatch.Render
import TreePatch.Survey
import TreePatch.Proofs.Takes

/-! A survey is another way to write a tree: its segments render to just what the tree renders
to (`rendering_surveyRoot`). What is left of it once the changed segments are gone is its
remnant. -/

namespace TreePatch

namespace Node

mutual

/-- A node and all nodes below it, each as often as it stands there. -/
def nodes : Node → List Node
  | leaf tag text => [leaf tag text]
  | branch tag kind children => branch tag kind children :: nodesAmong children

def nodesAmong : List Node → List Node
  | [] => []
  | n :: ns => nodes n ++ nodesAmong ns

end

theorem mem_nodes_self (n : Node) : n ∈ n.nodes := by
  cases n <;> simp [nodes]

theorem mem_nodesAmong {m : Node} {ns : List Node} :
    m ∈ nodesAmong ns ↔ ∃ n ∈ ns, m ∈ n.nodes := by
  induction ns with
  | nil => simp [nodesAmong]
  | cons n ns ih => simp [nodesAmong, ih]

theorem mem_nodes_branch {m : Node} {tag : Tag} {kind : String} {children : List Node} :
    m ∈ (branch tag kind children).nodes ↔
      m = branch tag kind children ∨ ∃ c ∈ children, m ∈ c.nodes := by
  simp [nodes, mem_nodesAmong]

/-- The span that was noted is the width of the tokens. -/
def Sized (n : Node) : Prop := n.span = Token.listWidth n.tokens

mutual

/-- A whole subtree closes what it opens. -/
theorem openAfter_tokens (n : Node) (pending : List String) :
    openAfter pending n.tokens = some pending := by
  cases n with
  | leaf tag text => simp [tokens]
  | branch tag kind children =>
    simp [tokens, openAfter_append, openAfter_tokensAmong children, openAfter]

theorem openAfter_tokensAmong (ns : List Node) (pending : List String) :
    openAfter pending (tokensAmong ns) = some pending := by
  cases ns with
  | nil => simp [tokensAmong]
  | cons n ns =>
    simp [tokensAmong, openAfter_append, openAfter_tokens n, openAfter_tokensAmong ns]

end

theorem matched_tokens (n : Node) : (Fragment.ofTokens n.tokens).Matched :=
  (Fragment.matched_ofTokens_iff _).mpr (openAfter_tokens n [])

theorem matched_content (root : Node) : root.content.Matched := by
  refine (Fragment.matched_ofTokens_iff _).mpr ?_
  cases root with
  | leaf tag text => simp [contentTokens]
  | branch tag kind children => rw [contentTokens_branch, openAfter_tokensAmong]

end Node

namespace Segment

def tokens : Segment → List Token
  | opening kind => [.opening kind]
  | closing kind => [.closing kind]
  | kept n => n.tokens
  | changed n => n.tokens

/-- The subtree the segment stands for, unless it is a boundary. -/
def node? : Segment → Option Node
  | kept n => some n
  | changed n => some n
  | _ => none

def Sized (s : Segment) : Prop := s.width = Token.listWidth s.tokens

theorem sized_of_node {s : Segment} (h : ∀ n ∈ s.node?, n.Sized) : s.Sized := by
  cases s with
  | opening kind => rfl
  | closing kind => rfl
  | kept n => exact h n rfl
  | changed n => exact h n rfl

/-- What a row of segments renders to. -/
def rendering (segments : List Segment) : Fragment := .ofTokens (segments.flatMap tokens)

/-- What is left of a row of segments without the changed ones. -/
def remnant (segments : List Segment) : Fragment :=
  rendering (segments.filter fun s => !s.isChanged)

def totalWidth (segments : List Segment) : Nat := segments.foldr (fun s n => s.width + n) 0

@[simp] theorem totalWidth_nil : totalWidth [] = 0 := rfl

@[simp] theorem totalWidth_cons (s : Segment) (ss : List Segment) :
    totalWidth (s :: ss) = s.width + totalWidth ss := rfl

@[simp] theorem totalWidth_append (a b : List Segment) :
    totalWidth (a ++ b) = totalWidth a + totalWidth b := by
  induction a with
  | nil => simp
  | cons s a ih => simp [ih, Nat.add_assoc]

theorem totalWidth_eq_zero_iff (segments : List Segment) :
    totalWidth segments = 0 ↔ ∀ s ∈ segments, s.width = 0 := by
  induction segments with
  | nil => simp
  | cons s ss ih => simp [ih]

@[simp] theorem rendering_nil : rendering [] = .empty := rfl

theorem rendering_append (a b : List Segment) :
    rendering (a ++ b) = rendering a ++ rendering b := by
  simp [rendering, Fragment.ofTokens_append]

theorem rendering_cons (s : Segment) (ss : List Segment) :
    rendering (s :: ss) = rendering [s] ++ rendering ss :=
  rendering_append [s] ss

@[simp] theorem remnant_nil : remnant [] = .empty := rfl

theorem remnant_append (a b : List Segment) : remnant (a ++ b) = remnant a ++ remnant b := by
  simp [remnant, rendering_append]

theorem size_rendering {segments : List Segment} (h : ∀ s ∈ segments, s.Sized) :
    (rendering segments).size = totalWidth segments := by
  rw [rendering, Fragment.size_ofTokens]
  induction segments with
  | nil => rfl
  | cons s ss ih =>
    have hs : s.width = Token.listWidth s.tokens := h s List.mem_cons_self
    simp [ih fun s hs => h s (List.mem_cons_of_mem _ hs), hs]

theorem rendering_eq_empty {segments : List Segment} (h : ∀ s ∈ segments, s.Sized)
    (hz : totalWidth segments = 0) : rendering segments = .empty :=
  Fragment.eq_empty_of_size _ ((size_rendering h).trans hz)

/-- Changed segments of no width are not missed. -/
theorem remnant_eq_rendering {segments : List Segment} (h : ∀ s ∈ segments, s.Sized)
    (hc : ∀ s ∈ segments, s.isChanged = true → s.width = 0) :
    remnant segments = rendering segments := by
  induction segments with
  | nil => rfl
  | cons s ss ih =>
    rw [← List.singleton_append, remnant_append, rendering_append,
      ih (fun s hs => h s (List.mem_cons_of_mem _ hs))
        (fun s hs => hc s (List.mem_cons_of_mem _ hs))]
    congr 1
    cases hch : s.isChanged with
    | false => simp [remnant, hch]
    | true =>
      have hz : rendering [s] = .empty :=
        rendering_eq_empty (by simpa using h s List.mem_cons_self)
          (by simpa using hc s List.mem_cons_self hch)
      rw [hz]
      simp [remnant, hch]

theorem remnant_eq_empty {segments : List Segment} (h : ∀ s ∈ segments, s.Sized)
    (hc : ∀ s ∈ segments, s.isChanged = false → s.width = 0) :
    remnant segments = .empty := by
  refine rendering_eq_empty (fun s hs => h s (List.mem_filter.mp hs).1) ?_
  rw [totalWidth_eq_zero_iff]
  intro s hs
  obtain ⟨hm, hb⟩ := List.mem_filter.mp hs
  exact hc s hm (by simpa using hb)

/-- A row without boundaries is matched. -/
theorem matched_rendering {segments : List Segment} (h : ∀ s ∈ segments, s.node? ≠ none) :
    (rendering segments).Matched := by
  induction segments with
  | nil => exact Fragment.matched_empty
  | cons s ss ih =>
    rw [rendering_cons]
    refine Fragment.Matched.append ?_ (ih fun s hs => h s (List.mem_cons_of_mem _ hs))
    have hs := h s List.mem_cons_self
    cases s with
    | opening kind => simp [node?] at hs
    | closing kind => simp [node?] at hs
    | kept n => simpa [rendering, tokens] using n.matched_tokens
    | changed n => simpa [rendering, tokens] using n.matched_tokens

end Segment

/-- What a segment of a survey can be: the node itself, or else a boundary of the node or a
segment of its children. -/
theorem mem_survey_cases {s : Sieve} {n : Node} {seg : Segment} (h : seg ∈ survey s n) :
    (seg = .kept n ∧ s.keeps n = true) ∨ seg = .changed n ∨
      (s.changes n = false ∧ (seg.node? = none ∨ seg ∈ surveyAmong s n.children)) := by
  cases n with
  | leaf tag text =>
    unfold survey at h
    split at h
    · rename_i hk
      exact Or.inl ⟨List.mem_singleton.mp h, hk⟩
    · exact Or.inr (Or.inl (List.mem_singleton.mp h))
  | branch tag kind children =>
    unfold survey at h
    split at h
    · rename_i hk
      exact Or.inl ⟨List.mem_singleton.mp h, hk⟩
    · split at h
      · exact Or.inr (Or.inl (List.mem_singleton.mp h))
      · rename_i hchanges
        simp only at h
        split at h
        · refine Or.inr (Or.inr ⟨by simpa using hchanges, ?_⟩)
          simp only [List.cons_append, List.mem_cons, List.mem_append, List.not_mem_nil,
            or_false] at h
          rcases h with rfl | h | rfl
          · exact Or.inl rfl
          · exact Or.inr h
          · exact Or.inl rfl
        · exact Or.inr (Or.inl (List.mem_singleton.mp h))

mutual

theorem node_mem_survey (s : Sieve) (n m : Node) (seg : Segment) (h : seg ∈ survey s n)
    (hm : seg.node? = some m) : m ∈ n.nodes := by
  rcases mem_survey_cases h with ⟨rfl, -⟩ | rfl | ⟨-, hb | hbelow⟩
  · obtain rfl : n = m := by simpa [Segment.node?] using hm
    exact Node.mem_nodes_self n
  · obtain rfl : n = m := by simpa [Segment.node?] using hm
    exact Node.mem_nodes_self n
  · rw [hb] at hm
    cases hm
  · cases n with
    | leaf tag text => simp [Node.children, surveyAmong] at hbelow
    | branch tag kind children =>
      exact List.mem_cons_of_mem _ (node_mem_surveyAmong s children m seg hbelow hm)

theorem node_mem_surveyAmong (s : Sieve) (ns : List Node) (m : Node) (seg : Segment)
    (h : seg ∈ surveyAmong s ns) (hm : seg.node? = some m) : m ∈ Node.nodesAmong ns := by
  cases ns with
  | nil => simp [surveyAmong] at h
  | cons n ns =>
    simp only [surveyAmong, List.mem_append] at h
    rcases h with h | h
    · exact List.mem_append_left _ (node_mem_survey s n m seg h hm)
    · exact List.mem_append_right _ (node_mem_surveyAmong s ns m seg h hm)

end

theorem node_mem_surveyRoot (s : Sieve) (root m : Node) (seg : Segment)
    (h : seg ∈ surveyRoot s root) (hm : seg.node? = some m) : m ∈ root.nodes := by
  unfold surveyRoot at h
  split at h
  · rw [List.mem_singleton] at h
    subst h
    simp only [Segment.node?, Option.some.injEq] at hm
    exact hm ▸ Node.mem_nodes_self _
  · split at h
    · rw [List.mem_singleton] at h
      subst h
      simp only [Segment.node?, Option.some.injEq] at hm
      exact hm ▸ Node.mem_nodes_self _
    · rw [surveyAmongOnto_eq, List.append_nil] at h
      exact List.mem_cons_of_mem _ (node_mem_surveyAmong s _ m seg h hm)

mutual

theorem survey_tokens (s : Sieve) (n : Node) :
    (survey s n).flatMap Segment.tokens = n.tokens := by
  cases n with
  | leaf tag text =>
    unfold survey
    split <;> simp [Segment.tokens]
  | branch tag kind children =>
    unfold survey
    split
    · simp [Segment.tokens]
    · split
      · simp [Segment.tokens]
      · simp only
        split
        · simp [Segment.tokens, Node.tokens, surveyAmong_tokens s children]
        · simp [Segment.tokens]

theorem surveyAmong_tokens (s : Sieve) (ns : List Node) :
    (surveyAmong s ns).flatMap Segment.tokens = Node.tokensAmong ns := by
  cases ns with
  | nil => rfl
  | cons n ns =>
    simp [surveyAmong, Node.tokensAmong, survey_tokens s n, surveyAmong_tokens s ns]

end

/-- **A survey renders to what the tree renders to.** Only a branch kept as the root does not:
its segment has the boundaries that the root goes without. -/
theorem rendering_surveyRoot (s : Sieve) (root : Node)
    (h : root.layer.isLeaf = true ∨ s.keeps root = false) :
    Segment.rendering (surveyRoot s root) = root.content := by
  cases root with
  | leaf tag text =>
    unfold surveyRoot
    split <;> simp [Segment.rendering, Segment.tokens, Node.content, Node.contentTokens,
      Node.tokens]
  | branch tag kind children =>
    rw [surveyRoot_branch s tag kind children (by simpa [Node.layer, Layer.isLeaf] using h)]
    rw [Segment.rendering, surveyAmong_tokens, Node.content, Node.contentTokens_branch]

theorem sized_surveyRoot (s : Sieve) {root : Node} (h : ∀ n ∈ root.nodes, n.Sized) :
    ∀ seg ∈ surveyRoot s root, seg.Sized := by
  intro seg hs
  refine Segment.sized_of_node fun n hn => ?_
  exact h n (node_mem_surveyRoot s root n seg hs hn)

end TreePatch
