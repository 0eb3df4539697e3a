import TreePatch.Proofs.Incremental
import TreePatch.Proofs.Rereading

/-! The patches of a session over lines. An edit removes the blocks of the lines it meets and adds
those of the lines that come in their place, each as one stretch, and every other block keeps
its part of the rendering. If no line is left, the new rendering replaces the whole old one
(`lines_touched`). -/

namespace TreePatch

namespace Blocks

open Forest

variable {f g : Forest} {e : Extent} {start : Nat} {ls : List (List Char)} {blocks : List Block}

theorem Sifted.filter_before {front touched back : List Block}
    (h : Sifted e blocks front touched back) (he : e.start ≤ e.stop)
    (hb : ∀ b ∈ blocks, b.extent.start ≤ b.extent.stop) :
    blocks.filter (fun b => b.extent.stop < e.start) = front := by
  have hfront : front.filter (fun b => b.extent.stop < e.start) = front :=
    List.filter_eq_self.mpr fun b hb => by simpa using h.before b hb
  have hrest : (touched ++ back).filter (fun b => b.extent.stop < e.start) = [] := by
    refine List.filter_eq_nil_iff.mpr fun b hmem => ?_
    rw [decide_eq_true_eq, Nat.not_lt]
    rcases List.mem_append.mp hmem with htouched | hback
    · exact (h.meets b htouched).2
    · have hbehind := h.behind b hback
      have hextent := hb b (h.split ▸ List.mem_append_right _ hback)
      omega
  rw [h.split, List.append_assoc, List.filter_append, hfront, hrest, List.append_nil]

theorem Sifted.filter_behind {front touched back : List Block}
    (h : Sifted e blocks front touched back) (he : e.start ≤ e.stop)
    (hb : ∀ b ∈ blocks, b.extent.start ≤ b.extent.stop) :
    blocks.filter (fun b => e.stop < b.extent.start) = back := by
  have hback : back.filter (fun b => e.stop < b.extent.start) = back :=
    List.filter_eq_self.mpr fun b hb => by simpa using h.behind b hb
  have hrest : (front ++ touched).filter (fun b => e.stop < b.extent.start) = [] := by
    refine List.filter_eq_nil_iff.mpr fun b hmem => ?_
    rw [decide_eq_true_eq, Nat.not_lt]
    rcases List.mem_append.mp hmem with hfront | htouched
    · have hbefore := h.before b hfront
      have hextent := hb b (h.split ▸ List.mem_append_left _ hmem)
      omega
    · exact (h.meets b htouched).1
  rw [h.split, List.filter_append, hrest, hback, List.nil_append]

/-- The parts of the blocks are determined by the edit. -/
theorem Sifted.unique {front touched back front' touched' back' : List Block}
    (h : Sifted e blocks front touched back) (h' : Sifted e blocks front' touched' back')
    (he : e.start ≤ e.stop) (hb : ∀ b ∈ blocks, b.extent.start ≤ b.extent.stop) :
    front = front' ∧ touched = touched' ∧ back = back' := by
  obtain rfl := (h.filter_before he hb).symm.trans (h'.filter_before he hb)
  obtain rfl := (h.filter_behind he hb).symm.trans (h'.filter_behind he hb)
  have hsplit := h.split.symm.trans h'.split
  rw [List.append_left_inj, List.append_right_inj] at hsplit
  exact ⟨rfl, hsplit, rfl⟩

theorem Stand.length (h : Stand f start ls blocks) : blocks.length = ls.length := by
  rw [← List.length_map (f := Block.extent), h.extents, Text.length_extentsFrom]

theorem Stand.held (h : Stand f start ls blocks) {k : Handle} (hk : k ∈ blocks.map Block.handle) :
    ∃ n, f.node k = .ok n ∧ n.Flat := by
  obtain ⟨b, hb, rfl⟩ := List.mem_map.mp hk
  have hmem := List.mem_map_of_mem (f := fun b : Block => f.sketch b.handle) hb
  rw [h.sketches] at hmem
  obtain ⟨line, -, hline⟩ := List.mem_map.mp hmem
  obtain ⟨n, hn, hsketch⟩ := sketch_eq_ok_iff.mp hline.symm
  exact ⟨n, hn, Node.flat_of_sketch hsketch⟩

end Blocks

theorem Text.Parted.ne_nil {cs inserted cs' : List Char} {e : Extent}
    {front middle middle' back : List (List Char)}
    (h : Parted cs e inserted cs' front middle middle' back) (he : e.start ≤ e.stop) :
    middle ≠ [] ∧ middle' ≠ [] := by
  have hbefore := h.before
  have hbehind := h.behind
  have hshift := h.shift
  simp only [bytesAmong_append, Extent.length] at hbehind hshift
  constructor <;>
  · rintro rfl
    rw [bytesAmong_nil] at *
    omega

/-- An edit meets a line, and makes one of it. -/
theorem Blocks.Stand.exchanged_ne_nil {f g : Forest} {cs inserted ds : List Char} {e : Extent}
    {blocks front touched back anew behind : List Block}
    (h : Stand f 0 (Text.lines cs) blocks) (hc : Text.Edited cs e inserted ds)
    (hs : Sifted e blocks front touched back)
    (h' : Stand g 0 (Text.lines ds) (front ++ anew ++ behind))
    (hbehind : behind.length = back.length) : touched ≠ [] ∧ anew ≠ [] := by
  obtain ⟨before, middle, middle', after, hparted⟩ := hc.parted
  obtain ⟨front', touched', back', hs', hfront, hback⟩ := h.sifted hparted
  obtain ⟨rfl, rfl, rfl⟩ := hs.unique hs' hc.le fun b hb => (h.bounds hb).2.1
  obtain ⟨hmiddle, hmiddle'⟩ := hparted.ne_nil hc.le
  have hall := h.length
  have hall' := h'.length
  rw [hs.split, hparted.old] at hall
  rw [hparted.new] at hall'
  simp only [List.length_append, hfront.length, hback.length, hbehind] at hall hall'
  constructor
  · refine mt (fun hnone => List.eq_nil_of_length_eq_zero ?_) hmiddle
    rw [hnone, List.length_nil] at hall
    omega
  · refine mt (fun hnone => List.eq_nil_of_length_eq_zero ?_) hmiddle'
    rw [hnone, List.length_nil] at hall'
    omega

/-! ## Sessions over lines -/

namespace Session

/-- The rendering of blocks, one behind the other. -/
def rendering (s : Session Blocks) (blocks : List Block) : Except Error Fragment :=
  (s.plot.forest.nodes (blocks.map Block.handle)).map Node.rendering

/-- The patch of an edit puts the blocks that are built in place of those that are met. -/
structure Replaces (s t : Session Blocks) (c : Change) (patch : Patch)
    (front touched back anew : List Block) : Prop where
  renewal : s.Renewal t c front touched back anew
  touched_ne_nil : touched ≠ []
  anew_ne_nil : anew ≠ []
  patched : ∃ root next ahead gone fresh behind,
    s.plot.forest.node s.root = .ok root ∧ t.plot.forest.node t.root = .ok next ∧
    s.rendering front = .ok ahead ∧ s.rendering touched = .ok gone ∧
    s.rendering back = .ok behind ∧ t.rendering anew = .ok fresh ∧
    root.content = ahead ++ gone ++ behind ∧ next.content = ahead ++ fresh ++ behind ∧
    patch = if front ++ back = [] then [.delete 0 root.content.size (some next.content)]
      else [.delete ahead.size (ahead.size + gone.size) none, .insert ahead.size fresh]

/-- The session reads the text, its forest is of the generation of the root, and no two lines have
one block. -/
structure Current (settings : Settings) (s : Session Blocks) (root : Node) (cs : List Char) :
    Prop where
  reads : s.Reads settings root cs
  present : s.plot.forest.generation = root.born
  once : (s.parser.blocks.map Block.handle).Nodup

variable {settings : Settings} {s t : Session Blocks} {root next : Node} {cs ds : List Char}
  {c : Change} {patch : Patch} {front touched back anew : List Block}

theorem start_current (settings : Settings) (arena spare : Nat) (source : String) :
    ∃ s root, Session.start (⟨source, []⟩ : Blocks) ⟨{ arena, settings }, spare⟩ = .ok s ∧
      s.Current settings root source.toList := by
  obtain ⟨s, root, hstart, hs⟩ := start_reads settings arena spare source
  have hparse := parse_of_start hstart
  have hlayers := Blocks.layered_of_parse hparse (.empty arena settings) (List.forall_mem_nil _)
  refine ⟨s, root, hstart, hs, ?_, ?_⟩
  · have hgen : s.plot.forest.generation = 0 := hlayers.frame.2.1
    have hle := hs.lined.onTrack.raised.stamps.1.born_le hs.lined.onTrack.node
    rw [hgen] at hle ⊢
    exact (Nat.eq_zero_of_le_zero hle).symm
  · exact Blocks.once_of_parse hparse List.nodup_nil (List.forall_mem_nil _)

theorem Renewal.handles_kept (h : s.Renewal t c front touched back anew)
    (hc : Text.Edited cs c.extent c.text.toList ds) (hs : s.Reads settings root cs) :
    (Parser.edit s.parser c.extent c.text).blocks.map Block.handle =
      front.map Block.handle ++ back.map Block.handle := by
  rw [h.sifted.blocks_edit hc.le (fun _ hb => (hs.stand.bounds hb).2.1), List.map_append,
    List.map_map]
  rfl

theorem Renewal.handles (h : s.Renewal t c front touched back anew) :
    t.parser.blocks.map Block.handle =
      front.map Block.handle ++ anew.map Block.handle ++ back.map Block.handle := by
  rw [h.blocks, List.map_append, List.map_append, List.map_map]
  rfl

/-- The parse of an edit builds layers over new nodes and over the blocks that are kept, and names
no two lines alike. -/
theorem Current.layered (h : s.Current settings root cs)
    (hc : Text.Edited cs c.extent c.text.toList ds)
    (hedit : s.edit c.extent c.text = (.ok patch, t))
    (hrenewal : s.Renewal t c front touched back anew) :
    (s.nextPlot root).forest.Layered (Layer.Rests s.plot.forest.size
        (front.map Block.handle ++ back.map Block.handle)) t.plot.forest ∧
      (t.parser.blocks.map Block.handle).Nodup := by
  have hparse : Parser.parse (Parser.edit s.parser c.extent c.text) (s.nextPlot root) = _ :=
    h.reads.lined.onTrack.parse_of_edit hedit
  have hkept := hrenewal.handles_kept hc h.reads
  have hsize : (s.nextPlot root).forest.size = s.plot.forest.size :=
    congrArg Array.size (s.nextPlot_entries root).1
  have honce : ((Parser.edit s.parser c.extent c.text).blocks.map Block.handle).Nodup := by
    rw [hkept, ← List.map_append]
    have hall := h.once
    rw [hrenewal.sifted.split] at hall
    exact hall.sublist (((List.sublist_append_left _ _).append_right _).map _)
  have hheld : ∀ b ∈ (Parser.edit s.parser c.extent c.text).blocks,
      ∃ n, (s.nextPlot root).forest.node b.handle = .ok n := fun b hb => by
    rw [s.node_nextPlot]
    exact (h.reads.lined.held c.extent c.text _ (List.mem_map_of_mem hb)).1
  have hlayers := Blocks.layered_of_parse hparse h.reads.lined.onTrack.nextPlot.1 hheld
  rw [hkept, hsize] at hlayers
  exact ⟨hlayers, Blocks.once_of_parse hparse honce hheld⟩

/-- A node is one from before the edit or one that its parse has built. -/
theorem OnTrack.node_cases (h : s.OnTrack root) {given : List Handle} {g : Forest}
    (hg : (s.nextPlot root).forest.Layered (Layer.Rests s.plot.forest.size given) g) {k : Handle}
    {n : Node} (hn : g.node k = .ok n) :
    s.plot.forest.node k = .ok n ∨ s.plot.forest.size ≤ k.index ∧
      n.layer.Rests s.plot.forest.size given ∧ n.born = root.born + 1 := by
  obtain ⟨hraised, hgen⟩ := h.nextPlot
  have hsize : (s.nextPlot root).forest.size = s.plot.forest.size :=
    congrArg Array.size (s.nextPlot_entries root).1
  have hcases := hg.node_cases hraised hn
  rwa [s.node_nextPlot, hsize, hgen] at hcases

/-- The blocks from before an edit and after it are flat. -/
theorem Renewal.flat (h : s.Renewal t c front touched back anew) (hs : s.Reads settings root cs)
    (ht : t.Reads settings next ds)
    (held : ∀ {k n}, s.plot.forest.node k = .ok n → t.plot.forest.node k = .ok n) {k : Handle}
    (hk : k ∈ front.map Block.handle ++ touched.map Block.handle ++ anew.map Block.handle ++
      back.map Block.handle) : ∃ n, t.plot.forest.node k = .ok n ∧ n.Flat := by
  have hblocks : k ∈ t.parser.blocks.map Block.handle ∨ k ∈ s.parser.blocks.map Block.handle := by
    rw [h.handles, h.sifted.split, List.map_append, List.map_append]
    simp only [List.mem_append] at hk ⊢
    tauto
  rcases hblocks with hnow | hbefore
  · exact ht.stand.held hnow
  · obtain ⟨n, hn, hflat⟩ := hs.stand.held hbefore
    exact ⟨n, held hn, hflat⟩

/-- What one edit leaves of the blocks and of the forest. -/
theorem Current.rereads (h : s.Current settings root cs)
    (hc : Text.Edited cs c.extent c.text.toList ds)
    (hedit : s.edit c.extent c.text = (.ok patch, t)) (ht : t.Reads settings next ds)
    (hrenewal : s.Renewal t c front touched back anew) :
    t.Current settings next ds ∧
      s.plot.forest.Rereads t.plot.forest s.root t.root root next (front.map Block.handle)
        (touched.map Block.handle) (anew.map Block.handle) (back.map Block.handle) ∧
      Patch.between t.plot.forest s.root t.root = .ok patch := by
  obtain ⟨patch', t', next', hedit', ht', -, hborn, -, hclaim, hbetween⟩ :=
    h.reads.lined.edit c.extent c.text
  obtain ⟨hpatch, rfl⟩ := Prod.mk.inj (hedit'.symm.trans hedit)
  obtain rfl := Except.ok.inj hpatch
  obtain rfl := Except.ok.inj (ht'.onTrack.node.symm.trans ht.lined.onTrack.node)
  have htrack := h.reads.lined.onTrack
  obtain ⟨hlayers, honce⟩ := h.layered hc hedit hrenewal
  have hheld {k : Handle} {n : Node} (hn : s.plot.forest.node k = .ok n) :
      t'.plot.forest.node k = .ok n := hlayers.node ((s.node_nextPlot root k).trans hn)
  obtain ⟨htouched, hanew⟩ := h.reads.stand.exchanged_ne_nil hc hrenewal.sifted
    (hrenewal.blocks ▸ ht.stand) (List.length_map _)
  refine ⟨⟨ht, (hlayers.frame.2.1.trans htrack.nextPlot.2).trans hborn.symm, honce⟩, ?_, hbetween⟩
  refine ⟨hheld, fun hn => hborn ▸ htrack.node_cases hlayers hn, htrack.node, h.present,
    ht.lined.onTrack.node, hborn, ?_, ?_, ?_, fun k hk n hn => ?_, fun k hk => ?_, hclaim,
    by simpa using htouched, by simpa using hanew⟩
  · rw [h.reads.lined.layer, hrenewal.sifted.split, List.map_append, List.map_append]
    rfl
  · rw [ht.lined.layer, hrenewal.handles]
    rfl
  · rw [← List.map_append, ← List.map_append, ← hrenewal.sifted.split]
    exact h.once
  · obtain ⟨m, hm, hflat⟩ := hrenewal.flat h.reads ht hheld hk
    exact Except.ok.inj (hm.symm.trans hn) ▸ hflat
  · obtain ⟨-, top, -, htop, -, hnew⟩ := hrenewal.born
    obtain rfl := Except.ok.inj (htop.symm.trans ht.lined.onTrack.node)
    obtain ⟨b, hb, rfl⟩ := List.mem_map.mp hk
    obtain ⟨n, hn, hnborn⟩ := hnew b hb
    rcases htrack.node_cases hlayers hn with hold | ⟨hle, -⟩
    · -- a block built anew is of a later generation than all nodes before
      have hle := htrack.raised.stamps.1.born_le hold
      rw [h.present, hnborn, hborn] at hle
      exact absurd hle (Nat.not_succ_le_self _)
    · exact hle

/-- **One edit, one exchange.** The session stays as it should be between edits. -/
theorem Current.edit (h : s.Current settings root cs)
    (hc : Text.Edited cs c.extent c.text.toList ds) :
    ∃ patch t next, s.edit c.extent c.text = (.ok patch, t) ∧ t.Current settings next ds ∧
      ∃ front touched back anew, s.Replaces t c patch front touched back anew := by
  obtain ⟨patch, t, next, hedit, ht, front, touched, back, anew, hrenewal⟩ := h.reads.edit hc
  obtain ⟨hnow, hrereads, hbetween⟩ := h.rereads hc hedit ht hrenewal
  obtain ⟨hsound, -, hclaimed⟩ := ht.lined.onTrack.raised.stamps
  obtain ⟨ahead, gone, fresh, behind, hahead, hgone, hfresh, hbehind, hexchanges⟩ :=
    hrereads.exchanges h.reads.lined.onTrack.raised.stamps.1 hsound hclaimed ht.lined.wide
  refine ⟨patch, t, next, hedit, hnow, front, touched, back, anew, hrenewal,
    by simpa using hrereads.gone_ne_nil, by simpa using hrereads.fresh_ne_nil,
    root, next, Node.rendering ahead, Node.rendering gone, Node.rendering fresh,
    Node.rendering behind,
    hrereads.previous, hrereads.current, ?_, ?_, ?_, ?_, hexchanges.content_old,
    hexchanges.content_new, ?_⟩
  · rw [rendering, hahead, Except.map]
  · rw [rendering, hgone, Except.map]
  · rw [rendering, hbehind, Except.map]
  · rw [rendering, hfresh, Except.map]
  · have hkept : ahead ++ behind = [] ↔ front ++ back = [] := by
      have hall := Forest.nodes_eq_ok_iff.mp
        (Forest.nodes_append_eq_ok_iff.mpr ⟨ahead, behind, rfl, hahead, hbehind⟩)
      have hlength := congrArg List.length hall
      simp only [List.length_map, List.length_append] at hlength
      rw [← List.length_eq_zero_iff, ← List.length_eq_zero_iff, List.length_append,
        List.length_append, hlength]
    have hpatch := hbetween.symm.trans (hexchanges.between hsound)
    simp only [hkept] at hpatch
    exact Except.ok.inj hpatch

theorem Current.editAll (h : s.Current settings root cs) {edits : List Change}
    (hc : Changes cs edits ds) :
    ∃ t next, s.editAll edits = .ok t ∧ t.Current settings next ds := by
  obtain ⟨t, hall, next, ht⟩ := editAll_keeps (I := fun s cs => ∃ root, s.Current settings root cs)
    (fun ⟨_, hs⟩ hedited => by
      obtain ⟨patch, t, next, hedit, ht, -⟩ := hs.edit hedited
      exact ⟨patch, t, hedit, next, ht⟩) ⟨root, h⟩ hc
  exact ⟨t, next, hall, ht⟩

end Session

/-- **An edit patches the touched lines only.** Whatever the source, the settings and the edits so
far, the blocks are those of the lines, and one more edit meets at least one of them. Those it
meets stand together. If any other is left, the patch deletes just the part of the old rendering
that they take up, with nothing in its place, and then inserts there the rendering of the blocks
built anew. If none is left, the patch puts the new rendering in place of the old one. It makes no
difference whether the text put in is the one that was there. -/
theorem lines_touched (settings : Settings) (arena spare : Nat) (source : String) :
    ∃ s, Session.start (⟨source, []⟩ : Blocks) ⟨{ arena, settings }, spare⟩ = .ok s ∧
      ∀ (edits : List Change) (last : List Char), Changes source.toList edits last →
        ∃ t, s.editAll edits = .ok t ∧ t.UpToDate last ∧
          ∀ (c : Change) (next : List Char), Text.Edited last c.extent c.text.toList next →
            ∃ patch u, t.edit c.extent c.text = (.ok patch, u) ∧ u.UpToDate next ∧
              ∃ front touched back anew, t.Replaces u c patch front touched back anew := by
  obtain ⟨s, root, hstart, hs⟩ := Session.start_current settings arena spare source
  refine ⟨s, hstart, fun edits last hchanges => ?_⟩
  obtain ⟨t, top, hall, ht⟩ := hs.editAll hchanges
  refine ⟨t, hall, ht.reads.upToDate, fun c next hc => ?_⟩
  obtain ⟨patch, u, newest, hedit, hu, hreplaces⟩ := ht.edit hc
  exact ⟨patch, u, hedit, hu.reads.upToDate, hreplaces⟩

/-- A line comes in below a heading, and then gives way to itself. -/
theorem lines_touched_itself : ∃ (s t u : Session Blocks) (patch : Patch),
    Session.start (⟨"= é\n\nb", []⟩ : Blocks) ⟨{ arena := 0, settings := {} }, 1⟩ = .ok s ∧
      s.editAll [⟨⟨5, 5⟩, "x\n"⟩] = .ok t ∧
      t.UpToDate ['=', ' ', 'é', '\n', 'x', '\n', '\n', 'b'] ∧
      t.edit ⟨5, 6⟩ "x" = (.ok patch, u) ∧
      u.UpToDate ['=', ' ', 'é', '\n', 'x', '\n', '\n', 'b'] ∧
      ∃ front touched back anew, t.Replaces u ⟨⟨5, 6⟩, "x"⟩ patch front touched back anew := by
  have hfirst : Text.Edited "= é\n\nb".toList ⟨5, 5⟩ "x\n".toList
      ['=', ' ', 'é', '\n', 'x', '\n', '\n', 'b'] :=
    .mk ['=', ' ', 'é', '\n'] [] ['\n', 'b'] ['x', '\n']
  have hsecond : Text.Edited ['=', ' ', 'é', '\n', 'x', '\n', '\n', 'b'] ⟨5, 6⟩ "x".toList
      ['=', ' ', 'é', '\n', 'x', '\n', '\n', 'b'] :=
    .mk ['=', ' ', 'é', '\n'] ['x'] ['\n', '\n', 'b'] ['x']
  have hchanges : Changes "= é\n\nb".toList [⟨⟨5, 5⟩, "x\n"⟩]
      ['=', ' ', 'é', '\n', 'x', '\n', '\n', 'b'] := .cons hfirst .nil
  obtain ⟨s, hs, hedits⟩ := lines_touched {} 0 1 "= é\n\nb"
  obtain ⟨t, hall, ht, hnext⟩ := hedits _ _ hchanges
  obtain ⟨patch, u, hedit, hu, hreplaces⟩ := hnext ⟨⟨5, 6⟩, "x"⟩ _ hsecond
  exact ⟨s, t, u, patch, hs, hall, ht, hedit, hu, hreplaces⟩

end TreePatch
