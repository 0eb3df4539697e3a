import TreePatch.Proofs.Rendering
import TreePatch.Proofs.Runs

/-! What holds of every forest that can be reached: a handle names the node that bears it, the
children of a held node are held under smaller indices, and every tag tells the truth of one
level. From there it goes down to whole trees (`Forest.Sound.held`, `Forest.Sound.sized`). -/

namespace TreePatch

/-- The tag agrees with the text or the children. -/
def Node.Grown : Node → Prop
  | .leaf tag text => tag.span = Text.units text ∧ tag.childBorn = tag.born ∧ tag.oldest = tag.born
  | .branch tag _ children => tag.span = 2 + spanAmong children ∧
      tag.childBorn = (children.map Node.born).min?.getD tag.born ∧
      tag.oldest = (children.map Node.oldest).foldl min tag.born ∧
      ∀ n ∈ children, n.born ≤ tag.born

namespace Forest

variable {f g : Forest} {h : Handle} {m n : Node}

/-! ## What each operation does to the nodes held -/

theorem node_eq_ok_iff_index (f : Forest) (h : Handle) (n : Node) :
    f.node h = .ok n ↔ h.arena = f.arena ∧ f.entries[h.index]?.map Entry.node = some n := by
  simp only [node_eq_ok_iff, find?, Option.map_eq_some_iff]
  split <;> simp_all

theorem node_add (f : Forest) (m : Node) (h : Handle) (n : Node) :
    (f.add m).node h = .ok n ↔ f.node h = .ok n ∨ h = f.nextHandle ∧ n = m := by
  simp only [node_eq_ok_iff_index, add, nextHandle, handleAt, size, Array.getElem?_push]
  obtain ⟨arena, index⟩ := h
  by_cases hi : index = f.entries.size
  · simp [hi, eq_comm]
  · simp [hi]

theorem node_claimAll (f : Forest) (is : List Nat) (h : Handle) (n : Node) :
    (f.claimAll is).node h = .ok n ↔ f.node h = .ok n := by
  induction is generalizing f with
  | nil => rfl
  | cons i is ih =>
    refine (ih (f.claim i)).trans ?_
    simp only [node_eq_ok_iff_index, arena_claim, node_claim]

theorem nextHandle_claimAll (f : Forest) (is : List Nat) :
    (f.claimAll is).nextHandle = f.nextHandle := by
  simp [nextHandle, handleAt]

theorem node_join (f : Forest) (kind : String) (below : List Node) (h : Handle) (n : Node) :
    (f.join kind below).2.node h = .ok n ↔
      f.node h = .ok n ∨ h = f.nextHandle ∧ n = .branch (f.branchTag below) kind below := by
  simp only [join, node_add, node_claimAll, nextHandle_claimAll]

theorem undo_node {entries result : Array Entry} {log : List (Nat × Generation)}
    (h : undo entries log = .ok result) (i : Nat) :
    result[i]?.map Entry.node = entries[i]?.map Entry.node := by
  induction log generalizing entries with
  | nil =>
    simp only [undo, Except.ok.injEq] at h
    rw [h]
  | cons claim log ih =>
    obtain ⟨index, previous⟩ := claim
    simp only [undo] at h
    split at h
    · rw [ih h, Array.getElem?_modify]
      split
      · simp [Function.comp_def]
      · rfl
    · cases h

/-- A save that is not stale has claims taken back and nodes dropped. -/
theorem restore_of_fresh {s : Save} (hs : f.isStale s = false) :
    f.restore s = (undo f.entries (f.log.take (f.log.length - s.claims))).map fun entries =>
      { f with
        entries := entries.take s.nodes
        log := f.log.drop (f.log.length - s.claims) } := by
  simp only [restore, hs, Bool.false_eq_true, ↓reduceIte]
  cases undo f.entries (f.log.take (f.log.length - s.claims)) <;> rfl

/-- A restore says which forest it leads to, or that the save is stale. -/
theorem restore_eq_ok {s : Save} (hr : f.restore s = .ok g) :
    f.isStale s = false ∧ ∃ entries,
      undo f.entries (f.log.take (f.log.length - s.claims)) = .ok entries ∧
      g = { f with
        entries := entries.take s.nodes
        log := f.log.drop (f.log.length - s.claims) } := by
  cases hs : f.isStale s with
  | true =>
    rw [restore, if_pos hs] at hr
    cases hr
  | false =>
    rw [restore_of_fresh hs] at hr
    cases hu : undo f.entries (f.log.take (f.log.length - s.claims)) with
    | error e => simp [hu, Except.map] at hr
    | ok entries =>
      rw [hu] at hr
      exact ⟨rfl, entries, rfl, (Except.ok.inj hr).symm⟩

theorem getElem?_take (entries : Array Entry) (count i : Nat) :
    (entries.take count)[i]? = if i < count then entries[i]? else none := by
  rw [← Array.getElem?_toList, Array.take, Array.toList_extract, List.extract_eq_take_drop,
    List.drop_zero, Nat.sub_zero, List.getElem?_take, Array.getElem?_toList]

theorem node_restore {s : Save} (hr : f.restore s = .ok g) (h : Handle) (n : Node) :
    g.node h = .ok n ↔ f.node h = .ok n ∧ h.index < s.nodes := by
  obtain ⟨-, entries, hu, rfl⟩ := restore_eq_ok hr
  simp only [node_eq_ok_iff_index, ← undo_node hu h.index, getElem?_take]
  by_cases hi : h.index < s.nodes <;> simp [hi]

theorem index_lt_size (hn : f.node h = .ok n) : h.index < f.size := by
  obtain ⟨-, he⟩ := (node_eq_ok_iff_index f h n).mp hn
  obtain ⟨e, hi, -⟩ := Option.map_eq_some_iff.mp he
  exact (Array.getElem?_eq_some_iff.mp hi).1

theorem mem_of_nodes {hs : List Handle} {ns : List Node} (hns : f.nodes hs = .ok ns) :
    ∀ n ∈ ns, ∃ k ∈ hs, f.node k = .ok n := by
  induction hs generalizing ns with
  | nil =>
    simp only [nodes, Except.ok.injEq] at hns
    subst hns
    simp
  | cons k hs ih =>
    simp only [nodes, bind, Except.bind] at hns
    split at hns
    · cases hns
    · rename_i m hm
      split at hns
      · cases hns
      · rename_i ms hms
        simp only [pure, Except.pure, Except.ok.injEq] at hns
        subst hns
        rintro n (_ | ⟨_, hn⟩)
        · exact ⟨k, List.mem_cons_self, hm⟩
        · obtain ⟨j, hj, hjn⟩ := ih hms n hn
          exact ⟨j, List.mem_cons_of_mem _ hj, hjn⟩

/-- The second forest is the first with one more node of its generation. -/
structure Grows (f g : Forest) (m : Node) : Prop where
  view : ∀ h n, g.node h = .ok n ↔ f.node h = .ok n ∨ h = f.nextHandle ∧ n = m
  arena : g.arena = f.arena
  generation : g.generation = f.generation
  settings : g.settings = f.settings
  named : m.handle = f.nextHandle
  born : m.born = f.generation

theorem settings_claimAll (f : Forest) (is : List Nat) :
    (f.claimAll is).settings = f.settings := by
  induction is generalizing f with
  | nil => rfl
  | cons i is ih =>
    refine (ih (f.claim i)).trans ?_
    unfold claim
    split <;> rfl

theorem grows_leaf (f : Forest) (text : String) :
    f.Grows (f.leaf text).2 (.leaf (f.leafTag text) text) :=
  ⟨node_add f _, rfl, rfl, rfl, rfl, rfl⟩

theorem grows_join (f : Forest) (kind : String) (below : List Node) :
    f.Grows (f.join kind below).2 (.branch (f.branchTag below) kind below) :=
  ⟨node_join f kind below, by simp [join], by simp [join, add],
    by simp [join, add, settings_claimAll], rfl, rfl⟩

/-- What is built is a leaf, or a branch over nodes of the forest. -/
theorem build_cases {layer : Layer} (hb : f.build layer = .ok (h, g)) :
    ∃ m, f.Grows g m ∧ h = f.nextHandle ∧
      ((∃ text, m = .leaf (f.leafTag text) text) ∨ ∃ kind below,
        m = .branch (f.branchTag below) kind below ∧ ∀ c ∈ below, ∃ k, f.node k = .ok c) := by
  cases layer with
  | leaf text =>
    simp only [build, Except.ok.injEq] at hb
    obtain ⟨rfl, rfl⟩ := Prod.mk.inj hb
    exact ⟨_, grows_leaf f text, rfl, Or.inl ⟨text, rfl⟩⟩
  | branch kind children =>
    simp only [build, branch] at hb
    split at hb
    · rename_i below hbelow
      simp only [Except.ok.injEq] at hb
      obtain ⟨rfl, rfl⟩ := Prod.mk.inj hb
      refine ⟨_, grows_join f kind below, rfl, Or.inr ⟨kind, below, rfl, fun c hc => ?_⟩⟩
      obtain ⟨k, -, hk⟩ := mem_of_nodes hbelow c hc
      exact ⟨k, hk⟩
    · cases hb

/-! ## The invariant -/

/-- Handles, children and tags are as they were when each node was built. -/
structure Sound (f : Forest) : Prop where
  named : ∀ {h n}, f.node h = .ok n → n.handle = h
  below : ∀ {h n}, f.node h = .ok n →
    ∀ c ∈ n.children, f.node c.handle = .ok c ∧ c.handle.index < h.index
  grown : ∀ {h n}, f.node h = .ok n → n.Grown
  born_le : ∀ {h n}, f.node h = .ok n → n.born ≤ f.generation

theorem sound_empty (arena : Nat) (settings : Settings) : Sound { arena, settings } := by
  have none : ∀ {h n}, Forest.node { arena, settings } h ≠ .ok n := by
    intro h n
    simp [node_eq_ok_iff, find?]
  exact ⟨fun h => absurd h none, fun h => absurd h none, fun h => absurd h none,
    fun h => absurd h none⟩

/-- A sound forest stays sound with one more node over nodes it holds. -/
theorem Sound.grow (hf : f.Sound) (hg : f.Grows g m)
    (children : ∀ c ∈ m.children, f.node c.handle = .ok c) (grown : m.Grown) : g.Sound where
  named := by
    intro h n hn
    rcases (hg.view h n).mp hn with hn | ⟨rfl, rfl⟩
    · exact hf.named hn
    · exact hg.named
  below := by
    intro h n hn c hc
    rcases (hg.view h n).mp hn with hn | ⟨rfl, rfl⟩
    · have := hf.below hn c hc
      exact ⟨(hg.view _ _).mpr (Or.inl this.1), this.2⟩
    · have := children c hc
      exact ⟨(hg.view _ _).mpr (Or.inl this), index_lt_size this⟩
  grown := by
    intro h n hn
    rcases (hg.view h n).mp hn with hn | ⟨rfl, rfl⟩
    · exact hf.grown hn
    · exact grown
  born_le := by
    intro h n hn
    rw [hg.generation]
    rcases (hg.view h n).mp hn with hn | ⟨rfl, rfl⟩
    · exact hf.born_le hn
    · exact Nat.le_of_eq hg.born

/-- A sound forest stays sound without the nodes from an index on, in no earlier generation. -/
theorem Sound.prune (hf : f.Sound) (limit : Nat)
    (view : ∀ h n, g.node h = .ok n ↔ f.node h = .ok n ∧ h.index < limit)
    (gen : f.generation ≤ g.generation) : g.Sound where
  named hn := hf.named ((view _ _).mp hn).1
  below := by
    intro h n hn c hc
    obtain ⟨hn, hi⟩ := (view h n).mp hn
    obtain ⟨hk, hlt⟩ := hf.below hn c hc
    exact ⟨(view _ _).mpr ⟨hk, by omega⟩, hlt⟩
  grown hn := hf.grown ((view _ _).mp hn).1
  born_le hn := Nat.le_trans (hf.born_le ((view _ _).mp hn).1) gen

theorem Sound.build (hf : f.Sound) {layer : Layer} (hb : f.build layer = .ok (h, g)) :
    g.Sound := by
  obtain ⟨m, hg, -, ⟨text, rfl⟩ | ⟨kind, below, rfl, hbelow⟩⟩ := build_cases hb
  · exact hf.grow hg (by simp [Node.children]) ⟨rfl, rfl, rfl⟩
  · have hheld : ∀ c ∈ below, f.node c.handle = .ok c := by
      intro c hc
      obtain ⟨k, hk⟩ := hbelow c hc
      rwa [hf.named hk]
    exact hf.grow hg hheld ⟨rfl, rfl, rfl, fun c hc => hf.born_le (hheld c hc)⟩

theorem Sound.advance (hf : f.Sound) : f.advance.Sound :=
  ⟨hf.named, hf.below, hf.grown, fun hn => Nat.le_succ_of_le (hf.born_le hn)⟩

theorem Sound.restore (hf : f.Sound) {s : Save} (hr : f.restore s = .ok g) : g.Sound := by
  refine hf.prune s.nodes (node_restore hr) ?_
  obtain ⟨-, entries, -, rfl⟩ := restore_eq_ok hr
  exact Nat.le_refl _

theorem Sound.step {strays : Bool} {t u : Tended} (h : Tended.Step strays t u)
    (ht : t.forest.Sound) : u.forest.Sound := by
  cases h with
  | build hb => exact ht.build hb
  | advance => exact ht.advance
  | clear _ => exact sound_empty _ _
  | save => exact ht
  | restore _ hr => exact ht.restore hr

/-- **Every forest that can be reached is sound.** -/
theorem Reachable.sound (hf : f.Reachable) : f.Sound := by
  obtain ⟨arena, settings, spare, t, -, hrun, rfl⟩ := hf
  exact hrun.keeps (P := fun t => t.forest.Sound) Sound.step (sound_empty arena settings)

/-! ## Whole trees -/

/-- Every node of a tree is held under its own handle. -/
theorem Sound.held (hf : f.Sound) {root : Node} (hr : f.node h = .ok root) :
    ∀ n ∈ root.nodes, f.node n.handle = .ok n := by
  -- the handles grow from a child to its parent
  induction hi : h.index using Nat.strongRecOn generalizing h root with
  | ind i ih =>
  intro n hn
  cases root with
  | leaf tag text =>
    simp only [Node.nodes, List.mem_singleton] at hn
    subst hn
    rwa [hf.named hr]
  | branch tag kind children =>
    rcases Node.mem_nodes_branch.mp hn with rfl | ⟨c, hc, hn⟩
    · rwa [hf.named hr]
    · obtain ⟨hk, hlt⟩ := hf.below hr c hc
      exact ih c.handle.index (by omega) hk rfl n hn

theorem spanAmong_eq {ns : List Node} (h : ∀ n ∈ ns, n.Sized) :
    Node.spanAmong ns = Token.listWidth (Node.tokensAmong ns) := by
  induction ns with
  | nil => rfl
  | cons n ns ih =>
    have hn : n.span = _ := h n List.mem_cons_self
    have hns := ih fun m hm => h m (List.mem_cons_of_mem _ hm)
    rw [Node.tokensAmong, Token.listWidth_append, ← hn, ← hns]
    rfl

theorem Sound.sized_node (hf : f.Sound) (hn : f.node h = .ok n) : n.Sized := by
  induction hi : h.index using Nat.strongRecOn generalizing h n with
  | ind i ih =>
  have hg := hf.grown hn
  cases n with
  | leaf tag text => simpa [Node.Sized, Node.span, Node.tag, Node.tokens, Token.width] using hg.1
  | branch tag kind children =>
    have hchildren : ∀ c ∈ children, c.Sized := by
      intro c hc
      obtain ⟨hk, hlt⟩ := hf.below hn c hc
      exact ih c.handle.index (by omega) hk rfl
    have hsum := spanAmong_eq hchildren
    have hspan := hg.1
    simp only [Node.Sized, Node.span, Node.tag, Node.tokens, Token.listWidth_append,
      Token.listWidth_cons, Token.listWidth_nil, Token.width, List.cons_append]
    omega

/-- Every node of a held tree has the span it notes. -/
theorem Sound.sized (hf : f.Sound) {root : Node} (hr : f.node h = .ok root) :
    ∀ n ∈ root.nodes, n.Sized :=
  fun n hn => hf.sized_node (hf.held hr n hn)

end Forest
end TreePatch
