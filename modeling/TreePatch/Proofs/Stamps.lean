import Mathlib.Algebra.BigOperators.Group.List.Basic
import Mathlib.Algebra.GroupWithZero.Nat
import Mathlib.Order.Bounds.Basic
import TreePatch.Proofs.Rewind
import TreePatch.Proofs.RoundTrip

/-! What the stamps of a forest say of it. Births come in the order of the indices, the two least
generations are those of the children and of the whole tree, and the claim of a node is the
greatest generation among it and the branches right above it (`Forest.Truthful`). Claims are
overwritten in place, so their part goes by one claim and one new node at a time. What words
keep of the widths comes last (`Forest.InWords`). -/

namespace TreePatch

namespace Forest

variable {f g : Forest} {h k : Handle} {m n : Node} {e : Entry}

/-! ## Looking up after a claim and after a new node -/

theorem find?_add (f : Forest) (n : Node) (h : Handle) :
    (f.add n).find? h = if h = f.nextHandle then some ⟨n, n.born⟩ else f.find? h := by
  obtain ⟨arena, index⟩ := h
  simp only [find?, add, nextHandle, handleAt, size, Array.getElem?_push, Handle.mk.injEq]
  by_cases ha : arena = f.arena
  · simp [ha]
  · simp [ha]

theorem find?_claim (f : Forest) (i : Nat) (h : Handle) :
    (f.claim i).find? h =
      (f.find? h).map fun e => if h.index = i then { e with claimed := f.generation } else e := by
  unfold find?
  rw [arena_claim]
  split
  · unfold claim
    split
    · rename_i hi
      by_cases he : h.index = i
      · rw [he, hi]
        rfl
      · simp [he]
    · simp only [Array.getElem?_modify]
      by_cases he : i = h.index
      · simp [he]
      · simp [he, Ne.symm he]
  · rfl

theorem find?_claimAll (f : Forest) (is : List Nat) (h : Handle) :
    (f.claimAll is).find? h =
      (f.find? h).map fun e => if h.index ∈ is then { e with claimed := f.generation } else e := by
  induction is generalizing f with
  | nil => simp [claimAll]
  | cons i is ih =>
    refine (ih (f.claim i)).trans ?_
    rw [find?_claim, Option.map_map, generation_claim]
    congr 1
    funext e
    by_cases hi : h.index = i
    · simp [hi]
    · simp [hi]

theorem find?_eq_some_iff (f : Forest) (h : Handle) :
    (∃ e, f.find? h = some e) ↔ h.arena = f.arena ∧ h.index < f.size := by
  unfold find? size
  split
  · rename_i ha
    simp only [ha, true_and]
    exact ⟨fun ⟨_, he⟩ => (Array.getElem?_eq_some_iff.mp he).1, fun hlt => ⟨_, dif_pos hlt⟩⟩
  · rename_i ha
    simp [ha]

theorem exists_node_iff (f : Forest) (h : Handle) :
    (∃ n, f.node h = .ok n) ↔ h.arena = f.arena ∧ h.index < f.size := by
  rw [← find?_eq_some_iff]
  simp [node_eq_ok_iff]

theorem stamp_eq_ok_iff (f : Forest) (h : Handle) (s : Stamp) :
    f.stamp h = .ok s ↔ ∃ e, f.find? h = some e ∧
      s = ⟨e.node.born, e.node.tag.childBorn, e.claimed, e.node.oldest⟩ := by
  unfold stamp entry
  cases f.find? h <;> simp [Except.map, eq_comm]

/-- Nodes are looked up in order, and the error is that of the first which is not there. -/
theorem nodes_eq_error_iff (f : Forest) (hs : List Handle) (e : Error) :
    f.nodes hs = .error e ↔ ∃ front k back, hs = front ++ k :: back ∧
      (∀ j ∈ front, ∃ n, f.node j = .ok n) ∧ f.find? k = none ∧ e = .unknownNode k := by
  induction hs with
  | nil => simp [nodes]
  | cons j hs ih =>
    simp only [List.cons_eq_append_iff]
    cases hj : f.node j with
    | error e' =>
      obtain ⟨hnone, rfl⟩ := (node_eq_error_iff f j e').mp hj
      simp only [nodes, hj, bind, Except.bind, Except.error.injEq]
      constructor
      · rintro rfl
        exact ⟨[], j, hs, Or.inl ⟨rfl, rfl⟩, by simp, hnone, rfl⟩
      · rintro ⟨front, k, back, ⟨rfl, he⟩ | ⟨rest, rfl, -⟩, hfront, -, rfl⟩
        · rw [(List.cons.inj he).1]
        · obtain ⟨n, hn⟩ := hfront j List.mem_cons_self
          rw [hj] at hn
          cases hn
    | ok n =>
      have hrest : f.nodes (j :: hs) = .error e ↔ f.nodes hs = .error e := by
        simp only [nodes, hj, bind, Except.bind]
        cases f.nodes hs <;> simp [pure, Except.pure]
      rw [hrest, ih]
      constructor
      · rintro ⟨front, k, back, rfl, hfront, hk⟩
        refine ⟨j :: front, k, back, Or.inr ⟨front, rfl, rfl⟩, ?_, hk⟩
        exact List.forall_mem_cons.mpr ⟨⟨n, hj⟩, hfront⟩
      · rintro ⟨front, k, back, ⟨rfl, he⟩ | ⟨rest, rfl, rfl⟩, hfront, hk, rfl⟩
        · obtain ⟨e, he', -⟩ := (node_eq_ok_iff f j n).mp hj
          rw [(List.cons.inj he).1, he'] at hk
          cases hk
        · exact ⟨rest, k, back, rfl, (List.forall_mem_cons.mp hfront).2, hk, rfl⟩

theorem find?_eq_none_iff (f : Forest) (h : Handle) :
    f.find? h = none ↔ ∀ n, f.node h ≠ .ok n := by
  cases hf : f.find? h with
  | none => simp [node_eq_ok_iff, hf]
  | some e =>
    simp only [reduceCtorEq, false_iff]
    exact fun hne => hne e.node ((node_eq_ok_iff f h _).mpr ⟨e, hf, rfl⟩)

/-- A branch is refused for the first child that is not there. -/
theorem branch_eq_error_iff (f : Forest) (kind : String) (hs : List Handle) (e : Error) :
    f.branch kind hs = .error e ↔ ∃ front k back, hs = front ++ k :: back ∧
      (∀ j ∈ front, ∃ n, f.node j = .ok n) ∧ (∀ n, f.node k ≠ .ok n) ∧ e = .unknownNode k := by
  have hbranch : f.branch kind hs = .error e ↔ f.nodes hs = .error e := by
    unfold branch
    cases f.nodes hs <;> simp
  simp only [hbranch, nodes_eq_error_iff, find?_eq_none_iff]

theorem exists_node_of_nodes {hs : List Handle} {ns : List Node} (hns : f.nodes hs = .ok ns) :
    ∀ k ∈ hs, ∃ n, f.node k = .ok n := by
  induction hs generalizing ns with
  | nil => simp
  | cons j hs ih =>
    simp only [nodes, bind, Except.bind] at hns
    cases hj : f.node j with
    | error e => simp [hj] at hns
    | ok n =>
      cases hrest : f.nodes hs with
      | error e => simp [hj, hrest] at hns
      | ok rest => exact List.forall_mem_cons.mpr ⟨⟨n, hj⟩, ih hrest⟩

theorem exists_branch_error_iff (f : Forest) (kind : String) (hs : List Handle) :
    (∃ e, f.branch kind hs = .error e) ↔ ∃ k ∈ hs, ∀ n, f.node k ≠ .ok n := by
  constructor
  · rintro ⟨e, he⟩
    obtain ⟨front, k, back, rfl, -, hk, -⟩ := (branch_eq_error_iff f kind hs e).mp he
    exact ⟨k, by simp, hk⟩
  · rintro ⟨k, hk, hnone⟩
    unfold branch
    cases hns : f.nodes hs with
    | error e => exact ⟨e, rfl⟩
    | ok ns =>
      obtain ⟨n, hn⟩ := exists_node_of_nodes hns k hk
      exact absurd hn (hnone n)

/-! ## Births in order -/

/-- Later nodes are of later generations, or of the same. -/
def Ordered (f : Forest) : Prop :=
  ∀ {h k : Handle} {m n : Node}, f.node h = .ok m → f.node k = .ok n → h.index ≤ k.index →
    m.born ≤ n.born

theorem Ordered.grow (ho : f.Ordered) (hf : f.Sound) (hg : f.Grows g m) : g.Ordered := by
  intro h k p q hp hq hle
  rcases (hg.view h p).mp hp with hp | ⟨rfl, rfl⟩ <;>
    rcases (hg.view k q).mp hq with hq | ⟨rfl, rfl⟩
  · exact ho hp hq hle
  · exact hg.born ▸ hf.born_le hp
  · exact absurd (index_lt_size hq) (Nat.not_lt_of_le hle)
  · exact Nat.le_refl _

/-! ## Claims as a maximum -/

/-- The generations that count for the claim of a node: its own and those of the branches right
above it. -/
def claimants (f : Forest) (h : Handle) (n : Node) : Set Generation :=
  {generation | generation = n.born ∨
    ∃ k b, f.node k = .ok b ∧ h ∈ b.layer.children ∧ generation = b.born}

/-- Each claim is the greatest of the generations that count for it. -/
def Claimed (f : Forest) : Prop :=
  ∀ {h : Handle} {e : Entry}, f.find? h = some e → IsGreatest (f.claimants h e.node) e.claimed

theorem Claimed.claimedAt_le (hc : f.Claimed) (hn : f.node h = .ok n) {bound : Generation}
    (self : n.born ≤ bound)
    (above : ∀ k b, f.node k = .ok b → h ∈ b.layer.children → b.born ≤ bound) :
    f.claimedAt h ≤ bound := by
  obtain ⟨e, he, rfl⟩ := (node_eq_ok_iff f h n).mp hn
  rw [claimedAt, he]
  rcases (hc he).1 with hself | ⟨k, b, hb, hh, hclaim⟩
  · exact Nat.le_trans (Nat.le_of_eq hself) self
  · exact Nat.le_trans (Nat.le_of_eq hclaim) (above k b hb hh)

theorem Claimed.born_le_claimedAt (hc : f.Claimed) (hn : f.node h = .ok n) :
    n.born ≤ f.claimedAt h := by
  obtain ⟨e, he, rfl⟩ := (node_eq_ok_iff f h n).mp hn
  rw [claimedAt, he]
  exact (hc he).2 (Or.inl rfl)

theorem Claimed.le_claimedAt (hc : f.Claimed) (hn : f.node h = .ok n) {b : Node}
    (hb : f.node k = .ok b) (hh : h ∈ b.layer.children) : b.born ≤ f.claimedAt h := by
  obtain ⟨e, he, rfl⟩ := (node_eq_ok_iff f h n).mp hn
  rw [claimedAt, he]
  exact (hc he).2 (Or.inr ⟨k, b, hb, hh, rfl⟩)

theorem mem_children_iff {h : Handle} {n : Node} :
    h ∈ n.layer.children ↔ ∃ c ∈ n.children, c.handle = h := by
  cases n with
  | leaf tag text => simp [Node.layer, Layer.children, Node.children]
  | branch tag kind children => simp [Node.layer, Layer.children, Node.children]

theorem Sound.child_lt (hf : f.Sound) {b : Node} (hb : f.node k = .ok b)
    (hh : h ∈ b.layer.children) : h.arena = f.arena ∧ h.index < k.index := by
  obtain ⟨c, hc, rfl⟩ := mem_children_iff.mp hh
  obtain ⟨hheld, hlt⟩ := hf.below hb c hc
  exact ⟨((node_eq_ok_iff_index f _ c).mp hheld).1, hlt⟩

/-- The children of a new node are claimed by it, and no claim but theirs changes. -/
theorem Claimed.grow (hc : f.Claimed) (hf : f.Sound) (born : m.born = f.generation)
    (children : ∀ c ∈ m.children, f.node c.handle = .ok c) :
    ((f.claimAll (m.children.map (·.handle.index))).add m).Claimed := by
  have view (k : Handle) (b : Node) :
      ((f.claimAll (m.children.map (·.handle.index))).add m).node k = .ok b ↔
        f.node k = .ok b ∨ k = f.nextHandle ∧ b = m := by
    rw [node_add, node_claimAll, nextHandle_claimAll]
  have held {h : Handle} (hh : h ∈ m.layer.children) : h.arena = f.arena ∧ h.index < f.size := by
    obtain ⟨c, hc, rfl⟩ := mem_children_iff.mp hh
    exact (exists_node_iff f _).mp ⟨c, children c hc⟩
  intro h e he
  rw [find?_add, nextHandle_claimAll] at he
  split at he
  · -- the new node is right below none
    rename_i hnext
    obtain rfl := Option.some.inj he
    refine ⟨Or.inl rfl, ?_⟩
    rintro generation (rfl | ⟨k, b, hb, hh, rfl⟩)
    · exact Nat.le_refl _
    · exfalso
      rcases (view k b).mp hb with hb | ⟨-, rfl⟩
      · have := (hf.child_lt hb hh).2
        have := index_lt_size hb
        rw [hnext] at *
        simp only [nextHandle, handleAt] at *
        omega
      · have := (held hh).2
        rw [hnext] at this
        exact Nat.lt_irrefl _ this
  · rw [find?_claimAll] at he
    obtain ⟨e, hfind, rfl⟩ := Option.map_eq_some_iff.mp he
    obtain ⟨hmem, hupper⟩ := hc hfind
    have harena : h.arena = f.arena := ((find?_eq_some_iff f h).mp ⟨e, hfind⟩).1
    by_cases hi : h.index ∈ m.children.map (·.handle.index)
    · have hh : h ∈ m.layer.children := by
        obtain ⟨c, hc, hindex⟩ := List.mem_map.mp hi
        refine mem_children_iff.mpr ⟨c, hc, ?_⟩
        have hca := (held (mem_children_iff.mpr ⟨c, hc, rfl⟩)).1
        cases hhandle : c.handle
        cases h
        simp_all
      rw [if_pos hi]
      refine ⟨Or.inr ⟨f.nextHandle, m, (view _ _).mpr (Or.inr ⟨rfl, rfl⟩), hh, born.symm⟩, ?_⟩
      rintro generation (rfl | ⟨k, b, hb, -, rfl⟩)
      · exact hf.born_le ((node_eq_ok_iff f h _).mpr ⟨e, hfind, rfl⟩)
      · rcases (view k b).mp hb with hb | ⟨-, rfl⟩
        · exact hf.born_le hb
        · exact Nat.le_of_eq born
    · rw [if_neg hi]
      constructor
      · rcases hmem with hself | ⟨k, b, hb, hh⟩
        · exact Or.inl hself
        · exact Or.inr ⟨k, b, (view k b).mpr (Or.inl hb), hh⟩
      · rintro generation (rfl | ⟨k, b, hb, hh, rfl⟩)
        · exact hupper (Or.inl rfl)
        · rcases (view k b).mp hb with hb | ⟨-, rfl⟩
          · exact hupper (Or.inr ⟨k, b, hb, hh, rfl⟩)
          · -- a child of the new node would be among those claimed
            obtain ⟨c, hc, rfl⟩ := mem_children_iff.mp hh
            exact absurd (List.mem_map_of_mem hc) hi

theorem Claimed.build (hc : f.Claimed) (hf : f.Sound) {layer : Layer}
    (hb : f.build layer = .ok (h, g)) : g.Claimed := by
  cases layer with
  | leaf text =>
    simp only [Forest.build, leaf, Except.ok.injEq, Prod.mk.injEq] at hb
    rw [← hb.2]
    exact hc.grow (m := .leaf (f.leafTag text) text) hf rfl (by simp [Node.children])
  | branch kind children =>
    simp only [Forest.build, branch] at hb
    split at hb
    · rename_i below hbelow
      simp only [join, Except.ok.injEq, Prod.mk.injEq] at hb
      rw [← hb.2]
      refine hc.grow (m := .branch (f.branchTag below) kind below) hf rfl ?_
      intro c hc
      obtain ⟨k, -, hk⟩ := mem_of_nodes hbelow c hc
      rwa [hf.named hk]
    · cases hb

/-- A raised forest is sound, with births in order and every claim a maximum. -/
theorem Raised.stamps (hf : f.Raised) : f.Sound ∧ f.Ordered ∧ f.Claimed := by
  induction hf with
  | empty arena settings =>
    refine ⟨sound_empty arena settings, ?_, ?_⟩
    · intro h k m n hm
      simp [node_eq_ok_iff, find?] at hm
    · intro h e he
      simp [find?] at he
  | build _ hb ih =>
    obtain ⟨hsound, hordered, hclaimed⟩ := ih
    obtain ⟨m, hg, -, -⟩ := build_cases hb
    exact ⟨hsound.build hb, hordered.grow hsound hg, hclaimed.build hsound hb⟩
  | advance _ ih =>
    obtain ⟨hsound, hordered, hclaimed⟩ := ih
    exact ⟨hsound.advance, hordered, hclaimed⟩

/-! ## The least generations -/

theorem isLeast_foldl_min (xs : List Nat) (a : Nat) :
    IsLeast {x | x = a ∨ x ∈ xs} (xs.foldl min a) := by
  induction xs generalizing a with
  | nil => simp [IsLeast, lowerBounds]
  | cons y ys ih =>
    obtain ⟨hmem, hlower⟩ := ih (min a y)
    constructor
    · rcases hmem with he | hm
      · rw [List.foldl_cons, he]
        rcases Nat.le_total a y with hle | hle
        · exact Or.inl (Nat.min_eq_left hle)
        · exact Or.inr (by rw [Nat.min_eq_right hle]; exact List.mem_cons_self)
      · exact Or.inr (List.mem_cons_of_mem _ hm)
    · have hmin : ys.foldl min (min a y) ≤ min a y := hlower (Or.inl rfl)
      rintro x (rfl | hx)
      · exact Nat.le_trans hmin (Nat.min_le_left _ _)
      · rcases List.mem_cons.mp hx with rfl | hx
        · exact Nat.le_trans hmin (Nat.min_le_right _ _)
        · exact hlower (Or.inr hx)

/-- A tree notes the least generation in it. -/
theorem Sound.isLeast_oldest (hf : f.Sound) (hn : f.node h = .ok n) :
    IsLeast {generation | ∃ m ∈ n.nodes, m.born = generation} n.oldest := by
  induction hi : h.index using Nat.strongRecOn generalizing h n with
  | ind i ih =>
  have hg := hf.grown hn
  cases n with
  | leaf tag text =>
    have holdest : tag.oldest = tag.born := hg.2.2
    simp [IsLeast, lowerBounds, Node.nodes, Node.born, Node.oldest, Node.tag, holdest]
  | branch tag kind children =>
    have holdest : tag.oldest = (children.map Node.oldest).foldl min tag.born := hg.2.2.1
    obtain ⟨hmem, hlower⟩ := isLeast_foldl_min (children.map Node.oldest) tag.born
    rw [← holdest] at hmem hlower
    have hchild (c : Node) (hc : c ∈ children) :
        IsLeast {generation | ∃ m ∈ c.nodes, m.born = generation} c.oldest := by
      obtain ⟨hk, hlt⟩ := hf.below hn c hc
      exact ih c.handle.index (by omega) hk rfl
    constructor
    · rcases hmem with he | hm
      · exact ⟨_, Node.mem_nodes_self _, he.symm⟩
      · obtain ⟨c, hc, he⟩ := List.mem_map.mp hm
        obtain ⟨m, hm, hborn⟩ := (hchild c hc).1
        exact ⟨m, Node.mem_nodes_branch.mpr (Or.inr ⟨c, hc, hm⟩), hborn.trans he⟩
    · rintro generation ⟨m, hm, rfl⟩
      rcases Node.mem_nodes_branch.mp hm with rfl | ⟨c, hc, hm⟩
      · exact hlower (Or.inl rfl)
      · have hle : c.oldest ≤ m.born := (hchild c hc).2 ⟨m, hm, rfl⟩
        exact Nat.le_trans (hlower (Or.inr (List.mem_map_of_mem hc))) hle

/-- The second stamp is the least generation of the children, if there are any. -/
theorem Sound.isLeast_childBorn (hf : f.Sound) (hn : f.node h = .ok n) (hc : n.children ≠ []) :
    IsLeast {generation | ∃ c ∈ n.children, c.born = generation} n.tag.childBorn := by
  have hg := hf.grown hn
  cases n with
  | leaf tag text => exact absurd rfl hc
  | branch tag kind children =>
    have hmin : tag.childBorn = (children.map Node.born).min?.getD tag.born := hg.2.1
    cases hm : (children.map Node.born).min? with
    | none =>
      rw [List.min?_eq_none_iff, List.map_eq_nil_iff] at hm
      exact absurd hm hc
    | some least =>
      obtain ⟨hmem, hlower⟩ := List.min?_eq_some_iff.mp hm
      rw [hm, Option.getD_some] at hmin
      constructor
      · obtain ⟨c, hc, he⟩ := List.mem_map.mp hmem
        exact ⟨c, hc, he.trans hmin.symm⟩
      · rintro generation ⟨c, hc, rfl⟩
        exact Nat.le_trans (Nat.le_of_eq hmin) (hlower _ (List.mem_map_of_mem hc))

theorem Sound.childBorn_eq_born (hf : f.Sound) (hn : f.node h = .ok n) (hc : n.children = []) :
    n.tag.childBorn = n.born := by
  have hg := hf.grown hn
  cases n with
  | leaf tag text => exact hg.2.1
  | branch tag kind children =>
    have hmin : tag.childBorn = (children.map Node.born).min?.getD tag.born := hg.2.1
    rw [show children = [] from hc] at hmin
    exact hmin

theorem Sound.oldest_eq_born_iff (hf : f.Sound) (hn : f.node h = .ok n) :
    n.oldest = n.born ↔ ∀ m ∈ n.nodes, m.born = n.born := by
  obtain ⟨⟨least, hleast, he⟩, hlower⟩ := hf.isLeast_oldest hn
  constructor
  · intro hsame m hm
    have hle : n.oldest ≤ m.born := hlower ⟨m, hm, rfl⟩
    exact Nat.le_antisymm (hf.born_le_root hn m hm) (hsame ▸ hle)
  · intro hall
    rw [← he]
    exact hall least hleast

/-! ## What a forest says of its nodes -/

/-- A stamp is that of the node at the same place. -/
theorem stamp_of_node {s : Stamp} (hn : f.node h = .ok n) (hs : f.stamp h = .ok s) :
    s.born = n.born ∧ s.childBorn = n.tag.childBorn ∧ s.oldest = n.oldest := by
  obtain ⟨e, he, rfl⟩ := (node_eq_ok_iff f h n).mp hn
  obtain ⟨e', he', rfl⟩ := (stamp_eq_ok_iff f h s).mp hs
  obtain rfl := Option.some.inj (he.symm.trans he')
  exact ⟨rfl, rfl, rfl⟩

theorem exists_node_of_stamp {s : Stamp} (hs : f.stamp h = .ok s) : ∃ n, f.node h = .ok n := by
  obtain ⟨e, he, -⟩ := (stamp_eq_ok_iff f h s).mp hs
  exact ⟨e.node, (node_eq_ok_iff f h _).mpr ⟨e, he, rfl⟩⟩

/-- Every node has its stamp, and both tell the truth of the node, of all below it and of the
branches above it. -/
structure Truthful (f : Forest) : Prop where
  nodes : ∀ h, (∃ n, f.node h = .ok n) ↔ h.arena = f.arena ∧ h.index < f.size
  stamps : ∀ h, (∃ s, f.stamp h = .ok s) ↔ h.arena = f.arena ∧ h.index < f.size
  children : ∀ {h n}, f.node h = .ok n → ∀ c ∈ n.children,
    f.node c.handle = .ok c ∧ c.handle.arena = f.arena ∧ c.handle.index < h.index
  ordered : ∀ {h k s t}, f.stamp h = .ok s → f.stamp k = .ok t → h.index ≤ k.index →
    s.born ≤ t.born
  born_le : ∀ {h s}, f.stamp h = .ok s → s.born ≤ f.generation
  span_leaf : ∀ {h n text}, f.node h = .ok n → n.layer = .leaf text → n.span = Text.units text
  span_branch : ∀ {h n kind below}, f.node h = .ok n → n.layer = .branch kind below →
    n.span = 2 + (n.children.map Node.span).sum
  childBorn : ∀ {h n s}, f.node h = .ok n → f.stamp h = .ok s →
    (n.children = [] → s.childBorn = s.born) ∧
    (n.children ≠ [] → IsLeast {generation | ∃ c ∈ n.children, c.born = generation} s.childBorn)
  oldest : ∀ {h n s}, f.node h = .ok n → f.stamp h = .ok s →
    IsLeast {generation | ∃ m ∈ n.nodes, m.born = generation} s.oldest ∧
    (s.oldest = s.born ↔ ∀ m ∈ n.nodes, m.born = s.born)
  claimed : ∀ {h s}, f.stamp h = .ok s →
    IsGreatest {generation | generation = s.born ∨
      ∃ k b, f.node k = .ok b ∧ h ∈ b.layer.children ∧ generation = b.born} s.claimed

theorem spanAmong_eq_sum (ns : List Node) : Node.spanAmong ns = (ns.map Node.span).sum := by
  induction ns with
  | nil => rfl
  | cons n ns ih => rw [List.map_cons, List.sum_cons, ← ih]; rfl

theorem Raised.truthful (hf : f.Raised) : f.Truthful := by
  obtain ⟨hsound, hordered, hclaimed⟩ := hf.stamps
  constructor
  case nodes =>
    exact exists_node_iff f
  case stamps =>
    intro h
    rw [← find?_eq_some_iff]
    simp [stamp_eq_ok_iff]
  case children =>
    intro h n hn c hc
    obtain ⟨hheld, hlt⟩ := hsound.below hn c hc
    exact ⟨hheld, ((exists_node_iff f _).mp ⟨c, hheld⟩).1, hlt⟩
  case ordered =>
    intro h k s t hs ht hle
    obtain ⟨m, hm⟩ := exists_node_of_stamp hs
    obtain ⟨n, hn⟩ := exists_node_of_stamp ht
    rw [(stamp_of_node hm hs).1, (stamp_of_node hn ht).1]
    exact hordered hm hn hle
  case born_le =>
    intro h s hs
    obtain ⟨n, hn⟩ := exists_node_of_stamp hs
    rw [(stamp_of_node hn hs).1]
    exact hsound.born_le hn
  case span_leaf =>
    intro h n text hn hlayer
    have hg := hsound.grown hn
    cases n with
    | leaf tag text' =>
      obtain rfl := Layer.leaf.inj hlayer
      exact hg.1
    | branch tag kind children => cases hlayer
  case span_branch =>
    intro h n kind below hn hlayer
    have hg := hsound.grown hn
    cases n with
    | leaf tag text => cases hlayer
    | branch tag kind children =>
      rw [← spanAmong_eq_sum]
      exact hg.1
  case childBorn =>
    intro h n s hn hs
    obtain ⟨hborn, hchild, -⟩ := stamp_of_node hn hs
    rw [hborn, hchild]
    exact ⟨hsound.childBorn_eq_born hn, hsound.isLeast_childBorn hn⟩
  case oldest =>
    intro h n s hn hs
    obtain ⟨hborn, -, holdest⟩ := stamp_of_node hn hs
    rw [hborn, holdest]
    exact ⟨hsound.isLeast_oldest hn, hsound.oldest_eq_born_iff hn⟩
  case claimed =>
    intro h s hs
    obtain ⟨e, he, rfl⟩ := (stamp_eq_ok_iff f h s).mp hs
    exact hclaimed he

/-! ## Widths in words -/

/-- What words tell of widths. That of a leaf is its length; that of a branch is added up in words,
which comes to the sum just if the sum fits. -/
structure InWords (f : Forest) : Prop where
  leaf : ∀ {h n text}, f.node h = .ok n → n.layer = .leaf text → Text.units text < wordLimit →
    n.word = Text.units text
  branch : ∀ {h n kind below}, f.node h = .ok n → n.layer = .branch kind below →
    n.word = Node.wordSum 2 n.children
  exact : ∀ {h n kind below}, f.node h = .ok n → n.layer = .branch kind below →
    (n.word = 2 + (n.children.map Node.word).sum ↔
      2 + (n.children.map Node.word).sum < wordLimit)

/-- Going round once at the end is the same as going round at each step. -/
theorem wordSum_eq {sum : Nat} (hsum : sum < wordLimit) (ns : List Node) :
    Node.wordSum sum ns = (sum + (ns.map Node.word).sum) % wordLimit := by
  induction ns generalizing sum with
  | nil => exact (Nat.mod_eq_of_lt hsum).symm
  | cons n ns ih =>
    rw [Node.wordSum, ih (Nat.mod_lt _ (by decide)), Nat.mod_add_mod, List.map_cons,
      List.sum_cons, Nat.add_assoc]

theorem sum_word_mod (ns : List Node) :
    (ns.map Node.word).sum % wordLimit = (ns.map Node.span).sum % wordLimit := by
  rw [List.sum_nat_mod (ns.map Node.span), List.map_map]
  rfl

theorem Truthful.inWords (hf : f.Truthful) : f.InWords := by
  have hsum {h : Handle} {n : Node} {kind : String} {below : List Handle}
      (hn : f.node h = .ok n) (hlayer : n.layer = .branch kind below) :
      n.word = (2 + (n.children.map Node.word).sum) % wordLimit := by
    rw [Node.word, hf.span_branch hn hlayer, Nat.add_mod, ← sum_word_mod, ← Nat.add_mod]
  constructor
  case leaf =>
    intro h n text hn hlayer hfits
    rw [Node.word, hf.span_leaf hn hlayer, Nat.mod_eq_of_lt hfits]
  case branch =>
    intro h n kind below hn hlayer
    rw [wordSum_eq (by decide), hsum hn hlayer]
  case exact =>
    intro h n kind below hn hlayer
    rw [hsum hn hlayer]
    constructor
    · intro he
      rw [← he]
      exact Nat.mod_lt _ (by decide)
    · exact Nat.mod_eq_of_lt

end Forest

/-- A leaf is claimed twice by one branch, and by another a generation later. -/
def claimedForest : Forest :=
  Scripted.forest [.build (.branch "doc" [.leaf "a" (some "x"), .node (.label "x")] none),
    .advance, .build (.branch "doc" [.node (.label "x")] none)]

/-- A leaf without text, and branches over it that each take the one before twice. -/
def doubledLeaf : Nat → Forest
  | 0 => (({ arena := 0 } : Forest).leaf "").2
  | n + 1 => (doubledLeaf n).attempt (.branch "k" [⟨0, n⟩, ⟨0, n⟩])

theorem doubledLeaf_succ {n : Nat} {m : Node} (hm : (doubledLeaf n).node ⟨0, n⟩ = .ok m) :
    (doubledLeaf n).build (.branch "k" [⟨0, n⟩, ⟨0, n⟩]) =
      .ok ((doubledLeaf n).join "k" [m, m]) ∧
    doubledLeaf (n + 1) = ((doubledLeaf n).join "k" [m, m]).2 := by
  have hbuild : (doubledLeaf n).build (.branch "k" [⟨0, n⟩, ⟨0, n⟩]) =
      .ok ((doubledLeaf n).join "k" [m, m]) := by
    simp [Forest.build, Forest.branch, Forest.nodes, hm, bind, Except.bind, pure, Except.pure]
  exact ⟨hbuild, by rw [doubledLeaf, Forest.attempt, hbuild]⟩

/-- Each branch is a little more than twice as wide as the one before. -/
theorem doubledLeaf_top (n : Nat) : (doubledLeaf n).Reachable ∧
    (doubledLeaf n).nextHandle = ⟨0, n + 1⟩ ∧
    ∃ m, (doubledLeaf n).node ⟨0, n⟩ = .ok m ∧ m.span + 2 = 2 ^ (n + 1) := by
  induction n with
  | zero => exact ⟨Scripted.reachable_forest [.build (.leaf "" none)], rfl, _, rfl, rfl⟩
  | succ n ih =>
    obtain ⟨hreach, hnext, m, hm, hspan⟩ := ih
    obtain ⟨harena, hsize⟩ := Handle.mk.inj hnext
    obtain ⟨hbuild, hgrown⟩ := doubledLeaf_succ hm
    rw [hgrown]
    refine ⟨hreach.build hbuild, ?_, ?_⟩
    · simp [Forest.nextHandle, Forest.handleAt, Forest.join, harena, hsize]
    · refine ⟨_, ((doubledLeaf n).node_join "k" [m, m] _ _).mpr (Or.inr ⟨hnext.symm, rfl⟩), ?_⟩
      change 2 + (m.span + (m.span + 0)) + 2 = 2 ^ (n + 2)
      rw [Nat.pow_succ]
      omega

end TreePatch
