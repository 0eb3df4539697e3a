import TreePatch.Proofs.Exchange
import TreePatch.Proofs.LineSession
import TreePatch.Proofs.Reuse

/-! Forests in which lines are read again, in the generation after the last. Blocks that stay are
claimed by the new root, blocks that go and their texts by nothing new, and what is built is new
all through. So the two roots exchange the blocks in one place (`Forest.Rereads.exchanges`). No
two lines have one block (`Blocks.once_of_parse`). -/

namespace TreePatch

namespace Forest

variable {sort : Layer → Prop} {f g : Forest} {h k : Handle} {n : Node}

theorem nodes_eq_ok_iff {hs : List Handle} {ns : List Node} :
    f.nodes hs = .ok ns ↔ hs.map f.node = ns.map Except.ok := by
  induction hs generalizing ns with
  | nil => cases ns <;> simp [nodes]
  | cons k hs ih =>
    cases hk : f.node k with
    | error e => cases ns <;> simp [nodes, hk, bind, Except.bind]
    | ok n =>
      cases hrest : f.nodes hs with
      | error e =>
        have hnone (ms : List Node) : hs.map f.node ≠ ms.map Except.ok := fun hms => by
          rw [ih.mpr hms] at hrest
          cases hrest
        cases ns <;> simp [nodes, hk, hrest, hnone, bind, Except.bind]
      | ok rest =>
        have hsame := ih.mp hrest
        have hinj := List.map_injective_iff.mpr fun a b : Node => Except.ok.inj (ε := Error)
        cases ns with
        | nil => simp [nodes, hk, hrest, bind, Except.bind, pure, Except.pure]
        | cons m ms =>
          simp [nodes, hk, hrest, hsame, hinj.eq_iff, bind, Except.bind, pure, Except.pure]

theorem nodes_append_eq_ok_iff {hs ks : List Handle} {ns : List Node} :
    f.nodes (hs ++ ks) = .ok ns ↔
      ∃ front back, ns = front ++ back ∧ f.nodes hs = .ok front ∧ f.nodes ks = .ok back := by
  simp only [nodes_eq_ok_iff, List.map_append]
  constructor
  · intro h
    obtain ⟨front, back, rfl, hfront, hback⟩ := List.map_eq_append_iff.mp h.symm
    exact ⟨front, back, rfl, hfront.symm, hback.symm⟩
  · rintro ⟨front, back, rfl, hfront, hback⟩
    rw [hfront, hback, List.map_append]

theorem Sound.nodes_below (hf : f.Sound) (hn : f.node h = .ok n) :
    f.nodes n.layer.children = .ok n.children := by
  have hchildren : n.layer.children = n.children.map Node.handle := by cases n <;> rfl
  rw [nodes_eq_ok_iff, hchildren, List.map_map]
  exact List.map_congr_left fun c hc => (hf.below hn c hc).1

end Forest

/-! ## Forests in which lines are read again -/

namespace Node

/-- A branch with leaves below it, or nothing. -/
structure Flat (n : Node) : Prop where
  branch : n.layer.isLeaf = false
  leaves : ∀ c ∈ n.children, c.layer.isLeaf = true

variable {n m : Node}

theorem flat_of_sketch {line : List Char} (h : n.sketch = .ofLine line) : n.Flat := by
  unfold Sketch.ofLine at h
  generalize Blocks.read line = parts at h
  obtain ⟨kind, text⟩ := parts
  cases n with
  | leaf tag text => cases h
  | branch tag kind children =>
    obtain ⟨-, hchildren⟩ := Sketch.branch.inj h
    refine ⟨rfl, fun c hc => ?_⟩
    have hmem : c.sketch ∈ sketchAmong children := by
      rw [sketchAmong_eq_map]
      exact List.mem_map_of_mem hc
    rw [hchildren] at hmem
    cases c with
    | leaf tag text => rfl
    | branch tag kind below => split at hmem <;> simp [sketch] at hmem

theorem Flat.mem_nodes (h : n.Flat) (hm : m ∈ n.nodes) : m = n ∨ m ∈ n.children := by
  cases n with
  | leaf tag text => cases h.branch
  | branch tag kind children =>
    rcases mem_nodes_branch.mp hm with rfl | ⟨c, hc, hm⟩
    · exact Or.inl rfl
    · have hleaf := h.leaves c hc
      cases c with
      | leaf tag text =>
        obtain rfl := List.mem_singleton.mp hm
        exact Or.inr hc
      | branch tag kind below => cases hleaf

end Node

theorem Layer.Rests.children {size : Nat} {given : List Handle} {layer : Layer}
    (h : layer.Rests size given) : ∀ k ∈ layer.children, k ∈ given ∨ size ≤ k.index := by
  cases layer with
  | leaf text => exact fun k hk => absurd hk List.not_mem_nil
  | branch kind children => exact h

namespace Forest

variable {sort : Layer → Prop} {f g : Forest} {h k p c : Handle} {n m old new : Node}
  {given front gone fresh back : List Handle}

/-- A node is one from before the layers, or one of them. -/
theorem Layered.node_cases (hg : f.Layered sort g) (hf : f.Raised) (hn : g.node h = .ok n) :
    f.node h = .ok n ∨ f.size ≤ h.index ∧ sort n.layer ∧ n.born = f.generation := by
  refine (hg.keeps (I := fun k => k.Raised ∧ k.generation = f.generation ∧ f.size ≤ k.size ∧
    ∀ h n, k.node h = .ok n →
      f.node h = .ok n ∨ f.size ≤ h.index ∧ sort n.layer ∧ n.born = f.generation)
    (fun hk hl hb => ?_) ⟨hf, rfl, Nat.le_refl _, fun _ _ => Or.inl⟩).2.2.2 h n hn
  obtain ⟨hraised, hgen, hsize, hnodes⟩ := hk
  obtain ⟨m, hm, -, rfl, -⟩ := hraised.stamps.1.grows_of_build hb
  refine ⟨hraised.build hb, hm.generation.trans hgen, ?_, fun j b hj => ?_⟩
  · rw [(size_of_build hb).2]
    exact Nat.le_succ_of_le hsize
  · rcases (hm.view j b).mp hj with hj | ⟨rfl, rfl⟩
    · exact hnodes j b hj
    · exact Or.inr ⟨hsize, hl, hm.born.trans hgen⟩

/-- The second forest is the first one, which ends with the generation of the old root, and nodes of
the next generation. The new root takes over the blocks of the old one but for those in one place,
where it has new ones. Nothing else from before is taken in again. -/
structure Rereads (f g : Forest) (p c : Handle) (old new : Node)
    (front gone fresh back : List Handle) : Prop where
  held : ∀ {h n}, f.node h = .ok n → g.node h = .ok n
  others : ∀ {h n}, g.node h = .ok n → f.node h = .ok n ∨
    f.size ≤ h.index ∧ n.layer.Rests f.size (front ++ back) ∧ n.born = new.born
  previous : f.node p = .ok old
  present : f.generation = old.born
  current : g.node c = .ok new
  next : new.born = old.born + 1
  before : old.layer.children = front ++ gone ++ back
  after : new.layer.children = front ++ fresh ++ back
  once : (front ++ gone ++ back).Nodup
  flat : ∀ k ∈ front ++ gone ++ fresh ++ back, ∀ n, g.node k = .ok n → n.Flat
  anew : ∀ k ∈ fresh, f.size ≤ k.index
  unclaimed : g.claimedAt p = old.born
  gone_ne_nil : gone ≠ []
  fresh_ne_nil : fresh ≠ []

namespace Rereads

/-- What is taken over counts as claimed by the new root. -/
theorem claimed_live (h : f.Rereads g p c old new front gone fresh back) (hc : g.Claimed)
    (hk : k ∈ front ++ back) (hn : g.node k = .ok n) : old.born < g.claimedAt k := by
  have hbelow : k ∈ new.layer.children := by
    rw [h.after]
    simp only [List.mem_append] at hk ⊢
    tauto
  have hle := hc.le_claimedAt hn h.current hbelow
  rw [h.next] at hle
  exact hle

/-- A new branch takes in no leaf from before, and of the blocks only those taken over. -/
theorem not_below (h : f.Rereads g p c old new front gone fresh back) {b : Node}
    (hb : g.node k = .ok b) (hnew : f.size ≤ k.index) {x : Handle} (hx : g.node x = .ok m)
    (older : x.index < f.size) (spared : m.layer.isLeaf = true ∨ x ∈ gone) :
    x ∉ b.layer.children := by
  intro hmem
  rcases h.others hb with hold | ⟨-, hrests, -⟩
  · exact Nat.not_lt_of_le hnew (index_lt_size hold)
  · rcases hrests.children x hmem with hgiven | hle
    · rcases spared with hleaf | hgone
      · have hflat := h.flat x (by simp only [List.mem_append] at hgiven ⊢; tauto) m hx
        rw [hflat.branch] at hleaf
        cases hleaf
      · have honce := h.once
        simp only [List.nodup_append, List.mem_append] at honce hgiven
        rcases hgiven with hfront | hback
        · exact honce.1.2.2 x hfront x hgone rfl
        · exact honce.2.2 x (Or.inr hgone) x hback rfl
    · exact Nat.not_lt_of_le hle older

/-- Nothing of a block that goes counts as claimed since the old root. -/
theorem claimed_dead (h : f.Rereads g p c old new front gone fresh back) (hf : f.Sound)
    (hc : g.Claimed) (hk : k ∈ gone) (hn : f.node k = .ok n) (hm : m ∈ n.nodes) :
    g.claimedAt m.handle ≤ old.born := by
  have hheld : f.node m.handle = .ok m := hf.held hn m hm
  have hflat : n.Flat := h.flat k (by simp [hk]) n (h.held hn)
  have hspared : m.layer.isLeaf = true ∨ m.handle ∈ gone := by
    rcases hflat.mem_nodes hm with rfl | hchild
    · rw [hf.named hn]
      exact Or.inr hk
    · exact Or.inl (hflat.leaves m hchild)
  refine hc.claimedAt_le (h.held hheld) ?_ fun j b hb hbelow => ?_
  · rw [← h.present]
    exact hf.born_le hheld
  · rcases h.others hb with hold | ⟨hnew, -⟩
    · rw [← h.present]
      exact hf.born_le hold
    · exact absurd hbelow (h.not_below hb hnew (h.held hheld) (index_lt_size hheld) hspared)

/-- A block in their place is new, with what is below it. -/
theorem born_fresh (h : f.Rereads g p c old new front gone fresh back) (hg : g.Sound)
    (hk : k ∈ fresh) (hn : g.node k = .ok n) (hm : m ∈ n.nodes) : m.born = new.born := by
  have hflat : n.Flat := h.flat k (by simp [hk]) n hn
  have hheld : g.node m.handle = .ok m := hg.held hn m hm
  have hfresh {x : Handle} {b : Node} (hb : g.node x = .ok b) (hx : f.size ≤ x.index) :
      b.born = new.born := by
    rcases h.others hb with hold | ⟨-, -, hborn⟩
    · exact absurd (index_lt_size hold) (Nat.not_lt_of_le hx)
    · exact hborn
  rcases hflat.mem_nodes hm with rfl | hchild
  · exact hfresh hn (h.anew k hk)
  · refine hfresh hheld (Nat.le_of_not_lt fun hlt => ?_)
    refine h.not_below hn (h.anew k hk) hheld hlt (Or.inl (hflat.leaves m hchild)) ?_
    exact mem_children_iff.mpr ⟨m, hchild, rfl⟩

theorem nodes_held (h : f.Rereads g p c old new front gone fresh back) {hs : List Handle}
    {ns : List Node} (hns : f.nodes hs = .ok ns) : g.nodes hs = .ok ns := by
  rw [nodes_eq_ok_iff] at hns ⊢
  rw [← hns]
  refine List.map_congr_left fun k hk => ?_
  obtain ⟨n, hn⟩ := exists_node_of_nodes (nodes_eq_ok_iff.mpr hns) k hk
  rw [hn, h.held hn]

/-- The two roots exchange the blocks in one place. -/
theorem exchanges (h : f.Rereads g p c old new front gone fresh back) (hf : f.Sound)
    (hg : g.Sound) (hc : g.Claimed) (hw : g.Wide) :
    ∃ ahead dropped added behind, f.nodes front = .ok ahead ∧ f.nodes gone = .ok dropped ∧
      g.nodes fresh = .ok added ∧ f.nodes back = .ok behind ∧
      g.Exchanges p c old new ahead dropped added behind := by
  have hold := hf.nodes_below h.previous
  have hnew := hg.nodes_below h.current
  rw [h.before] at hold
  rw [h.after] at hnew
  obtain ⟨_, behind, hbefore, hleft, hbehind⟩ := nodes_append_eq_ok_iff.mp hold
  obtain ⟨ahead, dropped, rfl, hahead, hdropped⟩ := nodes_append_eq_ok_iff.mp hleft
  obtain ⟨_, behind', hafter, hleft', hbehind'⟩ := nodes_append_eq_ok_iff.mp hnew
  obtain ⟨ahead', added, rfl, hahead', hadded⟩ := nodes_append_eq_ok_iff.mp hleft'
  obtain rfl := Except.ok.inj ((h.nodes_held hahead).symm.trans hahead')
  obtain rfl := Except.ok.inj ((h.nodes_held hbehind).symm.trans hbehind')
  refine ⟨ahead, dropped, added, behind, hahead, hdropped, hadded, hbehind, h.held h.previous,
    h.current, h.next, hbefore, hafter, h.unclaimed, ?_, ?_, ?_, ?_, ?_, ?_⟩
  · intro n hn
    have hlive : f.nodes (front ++ back) = .ok (ahead ++ behind) :=
      nodes_append_eq_ok_iff.mpr ⟨ahead, behind, rfl, hahead, hbehind⟩
    obtain ⟨k, hk, hnode⟩ := mem_of_nodes hlive n hn
    rw [hf.named hnode]
    exact h.claimed_live hc hk (h.held hnode)
  · intro m hm
    obtain ⟨n, hn, hm⟩ := Node.mem_nodesAmong.mp hm
    obtain ⟨k, hk, hnode⟩ := mem_of_nodes hdropped n hn
    exact h.claimed_dead hf hc hk hnode hm
  · intro m hm
    obtain ⟨n, hn, hm⟩ := Node.mem_nodesAmong.mp hm
    obtain ⟨k, hk, hnode⟩ := mem_of_nodes hadded n hn
    exact h.born_fresh hg hk hnode hm
  · intro n hn
    have hchild : n ∈ old.children ∨ n ∈ new.children := by
      rw [hbefore, hafter]
      simp only [List.mem_append] at hn ⊢
      tauto
    rcases hchild with hchild | hchild
    · exact hw _ n (h.held (hf.below h.previous n hchild).1)
    · exact hw _ n (hg.below h.current n hchild).1
  · rintro rfl
    have hlength := congrArg List.length (nodes_eq_ok_iff.mp hdropped)
    exact h.gone_ne_nil (List.eq_nil_of_length_eq_zero (by simpa using hlength))
  · rintro rfl
    have hlength := congrArg List.length (nodes_eq_ok_iff.mp hadded)
    exact h.fresh_ne_nil (List.eq_nil_of_length_eq_zero (by simpa using hlength))

end Rereads
end Forest

/-! ## Blocks named once -/

namespace Blocks

open Forest

variable {f g : Forest} {e : Extent} {start : Nat} {ls : List (List Char)}
  {blocks later rest : List Block} {p p' : Blocks} {plot plot' : Plot} {root : Handle}

theorem sublist_of_reuse {found : Option Block} (h : reuse e blocks = (found, rest)) :
    (found.toList ++ rest).Sublist blocks := by
  have hsub : (blocks.dropWhile (·.extent.start < e.start)).Sublist blocks :=
    (List.dropWhile_suffix _).sublist
  unfold reuse at h
  split at h
  · obtain ⟨rfl, rfl⟩ := Prod.mk.inj h
    exact List.nil_sublist _
  · rename_i b more hdrop
    rw [hdrop] at hsub
    split at h <;>
    · obtain ⟨rfl, rfl⟩ := Prod.mk.inj h
      exact hsub

/-- A block before others that are old ones or new. -/
theorem once_cons {b : Block} {n : Node} (hn : f.node b.handle = .ok n)
    (other : b.handle ∉ rest.map Block.handle)
    (hlater : ∀ c ∈ later, c.handle ∈ rest.map Block.handle ∨ f.size ≤ c.handle.index)
    (once : (later.map Block.handle).Nodup) : ((b :: later).map Block.handle).Nodup := by
  rw [List.map_cons, List.nodup_cons]
  refine ⟨fun hmem => ?_, once⟩
  obtain ⟨c, hc, hsame⟩ := List.mem_map.mp hmem
  rcases hlater c hc with hold | hnew
  · exact other (hsame ▸ hold)
  · rw [hsame] at hnew
    exact Nat.not_lt_of_le hnew (index_lt_size hn)

/-- Lines are read into blocks of different names. -/
theorem once_of_readLines (once : (blocks.map Block.handle).Nodup)
    (held : ∀ b ∈ blocks, ∃ n, f.node b.handle = .ok n)
    (h : readLines f start blocks ls = .ok (later, g)) : (later.map Block.handle).Nodup := by
  induction ls generalizing f start blocks later with
  | nil =>
    obtain ⟨rfl, -⟩ := Prod.mk.inj (Except.ok.inj h)
    exact List.nodup_nil
  | cons line ls ih =>
    obtain ⟨found, rest, hreuse⟩ : ∃ found rest,
        reuse ⟨start, start + Text.bytesOf line⟩ blocks = (found, rest) := ⟨_, _, rfl⟩
    have hsub := sublist_of_reuse hreuse
    have honce := once.sublist (hsub.map Block.handle)
    have hheld : ∀ c ∈ rest, ∃ n, f.node c.handle = .ok n := fun c hc =>
      held c (hsub.subset (List.mem_append_right _ hc))
    cases found with
    | some b =>
      rw [Option.toList_some, List.singleton_append, List.map_cons, List.nodup_cons] at honce
      obtain ⟨n, hn⟩ := held b (hsub.subset (by simp))
      obtain ⟨more, k, hmore, -, -, hblocks⟩ :=
        readLines_eq_ok f (start + Text.bytesOf line + 1) rest ls hheld
      simp only [readLines, hreuse, hmore, bind, Except.bind, pure, Except.pure, Except.ok.injEq,
        Prod.mk.injEq] at h
      obtain ⟨rfl, rfl⟩ := h
      exact once_cons hn honce.1 (fun c hc => (hblocks c hc).2) (ih honce.2 hheld hmore)
    | none =>
      rw [Option.toList_none, List.nil_append] at honce
      obtain ⟨top, k, hbuild, hfirst, ⟨n, hn⟩, hindex⟩ := build_eq_ok f line
      have hnew : top ∉ rest.map Block.handle := fun hmem => by
        obtain ⟨c, hc, rfl⟩ := List.mem_map.mp hmem
        obtain ⟨m, hm⟩ := hheld c hc
        exact Nat.not_lt_of_le hindex (index_lt_size hm)
      have hheld' : ∀ c ∈ rest, ∃ n, k.node c.handle = .ok n := fun c hc => by
        obtain ⟨m, hm⟩ := hheld c hc
        exact ⟨m, hfirst.node hm⟩
      obtain ⟨more, k', hmore, -, -, hblocks⟩ :=
        readLines_eq_ok k (start + Text.bytesOf line + 1) rest ls hheld'
      simp only [readLines, hreuse, hbuild, hmore, bind, Except.bind, pure, Except.pure,
        Except.ok.injEq, Prod.mk.injEq] at h
      obtain ⟨rfl, rfl⟩ := h
      exact once_cons hn hnew (fun c hc => (hblocks c hc).2) (ih honce hheld' hmore)

theorem once_of_parse (h : Parser.parse p plot = (.ok root, p', plot'))
    (once : (p.blocks.map Block.handle).Nodup)
    (held : ∀ b ∈ p.blocks, ∃ n, plot.forest.node b.handle = .ok n) :
    (p'.blocks.map Block.handle).Nodup := by
  obtain ⟨k, hread, -⟩ := readAll_eq_ok (readAll_of_parse h)
  exact once_of_readLines once held hread

theorem layered_of_parse (h : Parser.parse p plot = (.ok root, p', plot'))
    (hf : plot.forest.Raised) (held : ∀ b ∈ p.blocks, ∃ n, plot.forest.node b.handle = .ok n) :
    plot.forest.Layered (Layer.Rests plot.forest.size (p.blocks.map Block.handle))
      plot'.forest := by
  obtain ⟨k, blocks, g, n, hparse, hlayers, -⟩ := parse_eq_ok p plot hf held
  obtain ⟨-, hrest⟩ := Prod.mk.inj (hparse.symm.trans h)
  obtain ⟨-, rfl⟩ := Prod.mk.inj hrest
  exact hlayers

end Blocks
end TreePatch
