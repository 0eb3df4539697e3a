import TreePatch.Blocks
import TreePatch.Proofs.Stamps

/-! What reading lines does to a forest. It never fails and does nothing but build: texts that are
not empty, and branches over nodes that are new or that the blocks at hand name (`parse_eq_ok`).
So no node it builds is without width, and no root is taken in again. -/

namespace TreePatch

namespace Text

theorem bytesOf_cons (c : Char) (cs : List Char) : bytesOf (c :: cs) = c.utf8Size + bytesOf cs :=
  rfl

theorem cutBytes_append (before after : List Char) :
    cutBytes (bytesOf before) (before ++ after) = (before, after) := by
  induction before with
  | nil =>
    cases after with
    | nil => rfl
    | cons c cs => simp [bytesOf, cutBytes, Nat.not_le_of_lt c.utf8Size_pos]
  | cons c cs ih => simp [bytesOf_cons, cutBytes, ih]

/-- Between characters of a text a part of it goes and another comes in. -/
inductive Edited : List Char → Extent → List Char → List Char → Prop
  | mk (before removed after inserted : List Char) :
      Edited (before ++ removed ++ after) ⟨bytesOf before, bytesOf (before ++ removed)⟩ inserted
        (before ++ inserted ++ after)

theorem Edited.splice {cs inserted cs' : List Char} {e : Extent} (h : Edited cs e inserted cs') :
    spliceBytes cs e.start e.stop inserted = cs' := by
  cases h with
  | mk before removed after =>
    have hstart : cutBytes (bytesOf before) (before ++ removed ++ after) =
        (before, removed ++ after) := by
      rw [List.append_assoc, cutBytes_append]
    rw [spliceBytes, hstart, cutBytes_append]

end Text

/-! ## Forests with layers built on them -/

/-- Of some width, and a branch over nodes only that come from an index on or are given. -/
def Layer.Rests (size : Nat) (given : List Handle) : Layer → Prop
  | leaf text => text ≠ ""
  | branch _ children => ∀ k ∈ children, k ∈ given ∨ size ≤ k.index

theorem Layer.Rests.weaken {size size' : Nat} {given given' : List Handle} {layer : Layer}
    (h : layer.Rests size given) (hsize : size' ≤ size) (hgiven : given ⊆ given') :
    layer.Rests size' given' := by
  cases layer with
  | leaf text => exact h
  | branch kind children =>
    intro k hk
    rcases h k hk with hg | hi
    · exact Or.inl (hgiven hg)
    · exact Or.inr (Nat.le_trans hsize hi)

namespace Forest

/-- The forest with layers of one sort built on it, one after the other. -/
inductive Layered (sort : Layer → Prop) (f : Forest) : Forest → Prop
  | refl : Layered sort f f
  | build {g g' : Forest} {layer : Layer} {h : Handle} :
      Layered sort f g → sort layer → g.build layer = .ok (h, g') → Layered sort f g'

variable {sort : Layer → Prop} {f g g' : Forest} {h : Handle} {layer : Layer} {n : Node}

/-- What building one such layer keeps, building any number of them keeps. -/
theorem Layered.keeps {I : Forest → Prop}
    (step : ∀ {k k' : Forest} {layer : Layer} {h : Handle}, I k → sort layer →
      k.build layer = .ok (h, k') → I k')
    (hg : f.Layered sort g) (hf : I f) : I g := by
  induction hg with
  | refl => exact hf
  | build _ hl hb ih => exact step ih hl hb

theorem Layered.trans (hg : f.Layered sort g) (hg' : g.Layered sort g') : f.Layered sort g' :=
  hg'.keeps .build hg

theorem Layered.weaken {sort' : Layer → Prop} (hg : f.Layered sort g)
    (hs : ∀ layer, sort layer → sort' layer) : f.Layered sort' g :=
  hg.keeps (fun hk hl hb => .build hk (hs _ hl) hb) .refl

theorem Layered.raised (hg : f.Layered sort g) (hf : f.Raised) : g.Raised :=
  hg.keeps (fun hk _ hb => hk.build hb) hf

theorem Layered.frame (hg : f.Layered sort g) :
    g.arena = f.arena ∧ g.generation = f.generation ∧ g.settings = f.settings := by
  refine hg.keeps (I := fun k => k.arena = f.arena ∧ k.generation = f.generation ∧
    k.settings = f.settings) (fun hk _ hb => ?_) ⟨rfl, rfl, rfl⟩
  obtain ⟨m, hm, -, -⟩ := build_cases hb
  exact ⟨hm.arena.trans hk.1, hm.generation.trans hk.2.1, hm.settings.trans hk.2.2⟩

theorem Layered.node (hg : f.Layered sort g) (hn : f.node h = .ok n) : g.node h = .ok n := by
  refine hg.keeps (I := fun k => k.node h = .ok n) (fun hk _ hb => ?_) hn
  obtain ⟨m, hm, -, -⟩ := build_cases hb
  exact (hm.view _ _).mpr (Or.inl hk)

theorem size_of_build (hb : f.build layer = .ok (h, g)) :
    h = f.nextHandle ∧ g.size = f.size + 1 := by
  cases layer with
  | leaf text =>
    simp only [build, leaf, Except.ok.injEq, Prod.mk.injEq] at hb
    obtain ⟨rfl, rfl⟩ := hb
    exact ⟨rfl, size_add _ _⟩
  | branch kind children =>
    simp only [build, branch] at hb
    split at hb
    · simp only [join, Except.ok.injEq, Prod.mk.injEq] at hb
      obtain ⟨rfl, rfl⟩ := hb
      exact ⟨rfl, by rw [size_add, size_claimAll]⟩
    · cases hb

theorem Layered.size_le (hg : f.Layered sort g) : f.size ≤ g.size := by
  refine hg.keeps (I := fun k => f.size ≤ k.size) (fun hk _ hb => ?_) (Nat.le_refl _)
  rw [(size_of_build hb).2]
  exact Nat.le_succ_of_le hk

theorem Sound.handles_of_nodes (hf : f.Sound) {hs : List Handle} {ns : List Node}
    (hns : f.nodes hs = .ok ns) : ns.map Node.handle = hs := by
  induction hs generalizing ns with
  | nil =>
    simp only [nodes, Except.ok.injEq] at hns
    rw [← hns, List.map_nil]
  | cons k hs ih =>
    simp only [nodes, bind, Except.bind] at hns
    cases hk : f.node k with
    | error e => simp [hk] at hns
    | ok n =>
      cases hrest : f.nodes hs with
      | error e => simp [hk, hrest] at hns
      | ok rest =>
        simp only [hk, hrest, pure, Except.pure, Except.ok.injEq] at hns
        rw [← hns, List.map_cons, hf.named hk, ih hrest]

/-- The new node is made of the layer. -/
theorem Sound.grows_of_build (hf : f.Sound) (hb : f.build layer = .ok (h, g)) :
    ∃ m, f.Grows g m ∧ h = f.nextHandle ∧ m.layer = layer ∧ m.Grown := by
  cases layer with
  | leaf text =>
    simp only [Forest.build, Except.ok.injEq] at hb
    obtain ⟨rfl, rfl⟩ := Prod.mk.inj hb
    exact ⟨_, grows_leaf f text, rfl, rfl, rfl, rfl, rfl⟩
  | branch kind children =>
    simp only [Forest.build, branch] at hb
    split at hb
    · rename_i below hbelow
      simp only [Except.ok.injEq] at hb
      obtain ⟨rfl, rfl⟩ := Prod.mk.inj hb
      refine ⟨_, grows_join f kind below, rfl, ?_, rfl, rfl, rfl, fun c hc => ?_⟩
      · rw [Node.layer, hf.handles_of_nodes hbelow]
      · obtain ⟨k, -, hk⟩ := mem_of_nodes hbelow c hc
        exact hf.born_le hk
    · cases hb

theorem node_of_build (hb : f.build layer = .ok (h, g)) : ∃ n, g.node h = .ok n := by
  obtain ⟨m, hm, rfl, -⟩ := build_cases hb
  exact ⟨m, (hm.view _ _).mpr (Or.inr ⟨rfl, rfl⟩)⟩

theorem branch_ok (kind : String) (hs : List Handle) (held : ∀ k ∈ hs, ∃ n, f.node k = .ok n) :
    ∃ h g, f.branch kind hs = .ok (h, g) := by
  cases hb : f.branch kind hs with
  | ok out => exact ⟨out.1, out.2, rfl⟩
  | error e =>
    obtain ⟨k, hk, hnone⟩ := (f.exists_branch_error_iff kind hs).mp ⟨e, hb⟩
    obtain ⟨n, hn⟩ := held k hk
    exact absurd hn (hnone n)

end Forest

/-! ## Lines read one by one -/

namespace Blocks

open Forest

/-- An edit names no block that was not there. -/
theorem handles_edit (p : Blocks) (e : Extent) (text : String) :
    (Parser.edit p e text).blocks.map Block.handle ⊆ p.blocks.map Block.handle := by
  intro h hh
  obtain ⟨b, hb, rfl⟩ := List.mem_map.mp hh
  obtain ⟨a, ha, hkept⟩ := List.mem_filterMap.mp hb
  have hhandle : b.handle = a.handle := by
    unfold keepApart at hkept
    split at hkept
    · rw [Option.some.inj hkept]
    · split at hkept
      · rw [← Option.some.inj hkept]
      · cases hkept
  exact hhandle ▸ List.mem_map_of_mem ha

/-- A line is built anew, with its text below it if it shows any. -/
theorem build_eq_ok (f : Forest) (line : List Char) :
    ∃ h g, build f line = .ok (h, g) ∧ f.Layered (Layer.Rests f.size []) g ∧
      (∃ n, g.node h = .ok n) ∧ f.size ≤ h.index := by
  unfold build
  obtain ⟨kind, text⟩ := read line
  by_cases htext : text.isEmpty = true
  · obtain ⟨h, g, hb⟩ := branch_ok (f := f) kind [] (by simp)
    have hbuild : f.build (.branch kind []) = .ok (h, g) := hb
    refine ⟨h, g, by simp [htext, hb], .build .refl (by simp [Layer.Rests]) hbuild,
      node_of_build hbuild, ?_⟩
    rw [(size_of_build hbuild).1]
    exact Nat.le_refl _
  · have hleaf : f.build (.leaf (String.ofList text)) =
        .ok (f.nextHandle, (f.leaf (String.ofList text)).2) := rfl
    obtain ⟨h, g, hb⟩ := branch_ok (f := (f.leaf (String.ofList text)).2) kind
      [f.nextHandle] (by simpa using node_of_build hleaf)
    have hbuild : (f.leaf (String.ofList text)).2.build (.branch kind [f.nextHandle]) =
        .ok (h, g) := hb
    have hsize : (f.leaf (String.ofList text)).2.size = f.size + 1 := (size_of_build hleaf).2
    refine ⟨h, g, ?_, .build (.build .refl ?_ hleaf) ?_ hbuild, node_of_build hbuild, ?_⟩
    · simpa [htext, leaf] using hb
    · simpa [Layer.Rests] using htext
    · simp [Layer.Rests, nextHandle, handleAt]
    · rw [(size_of_build hbuild).1]
      simp only [nextHandle, handleAt, hsize]
      exact Nat.le_succ _

theorem mem_of_reuse {e : Extent} {blocks rest : List Block} {found : Option Block}
    (h : reuse e blocks = (found, rest)) : (∀ b ∈ found, b ∈ blocks) ∧ rest ⊆ blocks := by
  have hsub : blocks.dropWhile (·.extent.start < e.start) ⊆ blocks :=
    (List.dropWhile_suffix _).subset
  unfold reuse at h
  split at h
  · obtain ⟨rfl, rfl⟩ := Prod.mk.inj h
    simp
  · rename_i b more hdrop
    rw [hdrop] at hsub
    split at h
    · obtain ⟨rfl, rfl⟩ := Prod.mk.inj h
      refine ⟨fun c hc => ?_, fun _ hm => hsub (List.mem_cons_of_mem _ hm)⟩
      obtain rfl := Option.some.inj hc
      exact hsub List.mem_cons_self
    · obtain ⟨rfl, rfl⟩ := Prod.mk.inj h
      exact ⟨by simp, hsub⟩

/-- Reading lines cannot fail. The blocks are old ones or new. -/
theorem readLines_eq_ok (f : Forest) (start : Nat) (blocks : List Block)
    (lines : List (List Char)) (held : ∀ b ∈ blocks, ∃ n, f.node b.handle = .ok n) :
    ∃ later g, readLines f start blocks lines = .ok (later, g) ∧ later.length = lines.length ∧
      f.Layered (Layer.Rests f.size (blocks.map Block.handle)) g ∧
      ∀ b ∈ later, (∃ n, g.node b.handle = .ok n) ∧
        (b.handle ∈ blocks.map Block.handle ∨ f.size ≤ b.handle.index) := by
  induction lines generalizing f start blocks with
  | nil => exact ⟨[], f, rfl, rfl, .refl, by simp⟩
  | cons line lines ih =>
    obtain ⟨found, rest, hreuse⟩ : ∃ found rest,
        reuse ⟨start, start + Text.bytesOf line⟩ blocks = (found, rest) := ⟨_, _, rfl⟩
    obtain ⟨hfound, hrest⟩ := mem_of_reuse hreuse
    have hmap : rest.map Block.handle ⊆ blocks.map Block.handle := List.map_subset _ hrest
    cases found with
    | some b =>
      have hb : b ∈ blocks := hfound b rfl
      obtain ⟨later, g, hlater, hlength, hlayers, hblocks⟩ :=
        ih f (start + Text.bytesOf line + 1) rest fun c hc => held c (hrest hc)
      refine ⟨b :: later, g, ?_, by simp [hlength], ?_, ?_⟩
      · simp [readLines, hreuse, hlater, bind, Except.bind, pure, Except.pure]
      · exact hlayers.weaken fun _ hl => hl.weaken (Nat.le_refl _) hmap
      · refine List.forall_mem_cons.mpr ⟨⟨?_, Or.inl (List.mem_map_of_mem hb)⟩, fun c hc => ?_⟩
        · obtain ⟨n, hn⟩ := held b hb
          exact ⟨n, hlayers.node hn⟩
        · exact ⟨(hblocks c hc).1, (hblocks c hc).2.imp (fun hm => hmap hm) id⟩
    | none =>
      obtain ⟨h, k, hbuild, hfirst, ⟨n, hn⟩, hindex⟩ := build_eq_ok f line
      have hsize := hfirst.size_le
      obtain ⟨later, g, hlater, hlength, hlayers, hblocks⟩ :=
        ih k (start + Text.bytesOf line + 1) rest fun c hc => by
          obtain ⟨n, hn⟩ := held c (hrest hc)
          exact ⟨n, hfirst.node hn⟩
      refine ⟨⟨⟨start, start + Text.bytesOf line⟩, h⟩ :: later, g, ?_, by simp [hlength], ?_, ?_⟩
      · simp [readLines, hreuse, hbuild, hlater, bind, Except.bind, pure, Except.pure]
      · refine Layered.trans (hfirst.weaken fun _ hl => ?_) (hlayers.weaken fun _ hl => ?_)
        · exact hl.weaken (Nat.le_refl _) (List.nil_subset _)
        · exact hl.weaken hsize hmap
      · refine List.forall_mem_cons.mpr ⟨⟨⟨n, hlayers.node hn⟩, Or.inr hindex⟩, fun c hc => ?_⟩
        refine ⟨(hblocks c hc).1, ?_⟩
        rcases (hblocks c hc).2 with hm | hi
        · exact Or.inl (hmap hm)
        · exact Or.inr (Nat.le_trans hsize hi)

/-- **A parse cannot fail.** It gives a new root over the blocks of all lines, of which there is at
least one, and has built nothing else but these blocks. -/
theorem parse_eq_ok (p : Blocks) (plot : Plot) (hf : plot.forest.Raised)
    (held : ∀ b ∈ p.blocks, ∃ n, plot.forest.node b.handle = .ok n) :
    ∃ root blocks g n, Parser.parse p plot = (.ok root, { p with blocks }, plot.put g) ∧
      plot.forest.Layered (Layer.Rests plot.forest.size (p.blocks.map Block.handle)) g ∧
      g.node root = .ok n ∧ n.layer = .branch "doc" (blocks.map Block.handle) ∧ blocks ≠ [] ∧
      n.born = plot.forest.generation ∧ root.index + 1 = g.size := by
  obtain ⟨blocks, k, hread, hlength, hlayers, hblocks⟩ :=
    readLines_eq_ok plot.forest 0 p.blocks (Text.lines p.source.toList) held
  obtain ⟨root, g, hbranch⟩ := branch_ok (f := k) "doc" (blocks.map Block.handle) (by
    rintro h hh
    obtain ⟨b, hb, rfl⟩ := List.mem_map.mp hh
    exact (hblocks b hb).1)
  have hbuild : k.build (.branch "doc" (blocks.map Block.handle)) = .ok (root, g) := hbranch
  obtain ⟨n, hgrows, hroot, hlayer, -⟩ := (hlayers.raised hf).stamps.1.grows_of_build hbuild
  refine ⟨root, blocks, g, n, ?_, .build hlayers ?_ hbuild, ?_, hlayer, ?_, ?_, ?_⟩
  · have hall : p.readAll plot.forest = .ok (root, blocks, g) := by
      simp [readAll, hread, hbranch, bind, Except.bind, pure, Except.pure]
    show parse p plot = _
    rw [parse, hall]
  · intro h hh
    obtain ⟨b, hb, rfl⟩ := List.mem_map.mp hh
    exact (hblocks b hb).2
  · exact (hgrows.view _ _).mpr (Or.inr ⟨hroot, rfl⟩)
  · rintro rfl
    exact Text.lines_ne_nil _ (List.eq_nil_of_length_eq_zero hlength.symm)
  · exact hgrows.born.trans hlayers.frame.2.1
  · rw [(size_of_build hbuild).2, hroot]
    rfl

end Blocks
end TreePatch
