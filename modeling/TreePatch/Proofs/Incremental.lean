import TreePatch.Proofs.CheckedEdits
import TreePatch.Proofs.LineSession
import TreePatch.Proofs.Reuse

/-! Sessions over lines, edit by edit. After any edits the tree is the one that a parse of the whole
source gives, each block stands where its line stands, and the blocks of the lines that the last
edit did not meet are the ones from before it (`lines_incremental`). -/

namespace TreePatch

namespace Session

section
variable {π : Type} [Parser π]

theorem parse_of_start {parser : π} {plot : Plot} {s : Session π}
    (h : Session.start parser plot = .ok s) :
    Parser.parse parser plot = (.ok s.root, s.parser, s.plot) := by
  obtain ⟨result, parsed, after, hparse⟩ : ∃ result parsed after,
      Parser.parse parser plot = (result, parsed, after) := ⟨_, _, _, rfl⟩
  simp only [Session.start, hparse, bind, Except.bind] at h
  split at h
  · cases h
  · split at h
    · cases h
    · obtain rfl := Except.ok.inj h
      exact hparse

theorem OnTrack.parse_of_edit {s t : Session π} {root : Node} (h : s.OnTrack root) {e : Extent}
    {text : String} {patch : Patch} (hedit : s.edit e text = (.ok patch, t)) :
    s.parsed root e text = (.ok t.root, t.parser, t.plot) := by
  rcases Session.edit_cases s h.node e text with
    ⟨k, next, hparsed, hrecord, hnext⟩ | ⟨_, _, hfail, -⟩
  · obtain rfl : next = t := (Prod.mk.inj (hnext.symm.trans hedit)).2
    obtain ⟨-, -, -, -, -, hnew⟩ := record_eq_ok h.latest hrecord
    rw [hnew, ← hparsed]
  · cases (Prod.mk.inj (hfail.symm.trans hedit)).1

/-- The session after edits. The first error ends it. -/
def editAll (s : Session π) : List Change → Except Error (Session π)
  | [] => .ok s
  | c :: rest => do
    let (patch, t) := s.edit c.extent c.text
    let _ ← patch
    t.editAll rest

end

/-- A session with the blocks of the lines of a text. -/
structure Reads (settings : Settings) (s : Session Blocks) (root : Node) (cs : List Char) :
    Prop where
  lined : s.Lined settings root
  source : s.parser.source.toList = cs
  stand : Blocks.Stand s.plot.forest 0 (Text.lines cs) s.parser.blocks

/-- After one edit the blocks of the lines it did not meet are there as before, those behind it
moved. The others are new, and of the generation of the new root. -/
structure Renewal (s t : Session Blocks) (c : Change) (front touched back anew : List Block) :
    Prop where
  sifted : Blocks.Sifted c.extent s.parser.blocks front touched back
  blocks : t.parser.blocks =
    front ++ anew ++ back.map (Block.moved c.extent (Text.bytesOf c.text.toList))
  born : ∃ root next, s.plot.forest.node s.root = .ok root ∧ t.plot.forest.node t.root = .ok next ∧
    next.born = root.born + 1 ∧
    ∀ b ∈ anew, ∃ n, t.plot.forest.node b.handle = .ok n ∧ n.born = next.born

/-- The session stands where a parse from scratch would. -/
structure UpToDate (s : Session Blocks) (cs : List Char) : Prop where
  source : s.parser.source.toList = cs
  lines : ∀ e, (∃ b ∈ s.parser.blocks, b.extent = e) ↔ ∃ line, Text.LineAt cs e line
  ordered : s.parser.blocks.Pairwise fun a b => a.extent.stop < b.extent.start
  root : ∃ n, s.plot.forest.node s.root = .ok n ∧
    n.layer = .branch "doc" (s.parser.blocks.map Block.handle)
  scratch : ∀ settings arena spare, ∃ t tree,
    Session.start (⟨s.parser.source, []⟩ : Blocks) ⟨{ arena, settings }, spare⟩ = .ok t ∧
      t.plot.forest.sketch t.root = .ok tree ∧ s.plot.forest.sketch s.root = .ok tree

variable {settings : Settings} {s : Session Blocks} {root : Node} {cs ds : List Char}

/-- The tree is that of the text. -/
theorem Reads.sketch (h : s.Reads settings root cs) :
    s.plot.forest.sketch s.root = .ok (.ofText cs) := by
  have hsound := h.lined.onTrack.raised.stamps.1
  have hnode := h.lined.onTrack.node
  have hlayer := h.lined.layer
  refine Forest.sketch_eq_ok_iff.mpr ⟨root, hnode, ?_⟩
  cases root with
  | leaf tag text => cases hlayer
  | branch tag kind children =>
    obtain ⟨rfl, hhandles⟩ := Layer.branch.inj hlayer
    have hbelow : (children.map Node.sketch).map (Except.ok : Sketch → Except Error Sketch) =
        ((Text.lines cs).map Sketch.ofLine).map Except.ok := by
      calc (children.map Node.sketch).map Except.ok
          = (children.map Node.handle).map s.plot.forest.sketch := by
            rw [List.map_map, List.map_map]
            refine List.map_congr_left fun c hc => (Forest.sketch_eq_ok_iff.mpr ?_).symm
            exact ⟨c, (hsound.below hnode c hc).1, rfl⟩
        _ = s.parser.blocks.map fun b => s.plot.forest.sketch b.handle := by
            rw [hhandles, List.map_map]
            rfl
        _ = ((Text.lines cs).map Sketch.ofLine).map Except.ok := by
            rw [h.stand.sketches, List.map_map]
            rfl
    have hsame := List.map_injective_iff.mpr (fun _ _ => Except.ok.inj) hbelow
    rw [Node.sketch, Node.sketchAmong_eq_map, hsame, Sketch.ofText]

/-- The first parse builds every line. -/
theorem start_reads (settings : Settings) (arena spare : Nat) (source : String) :
    ∃ s root, Session.start (⟨source, []⟩ : Blocks) ⟨{ arena, settings }, spare⟩ = .ok s ∧
      s.Reads settings root source.toList := by
  obtain ⟨s, root, hstart, hlined, hsource⟩ := start_lined settings arena spare source
  have hnone (f : Forest) (start : Nat) : Blocks.Stand f start [] [] := ⟨rfl, rfl⟩
  obtain ⟨anew, -, hstand, -⟩ := Blocks.parse_between (parse_of_start hstart)
    (show [] = [] ++ [] from rfl) (List.append_nil (Text.lines source.toList)).symm
    (hnone _ 0) (hnone _ _)
  exact ⟨s, root, hstart, hlined, congrArg String.toList hsource, hstand⟩

/-- One edit: what it does not meet stays, and the session reads the new text. -/
theorem Reads.edit (h : s.Reads settings root cs) {c : Change}
    (hc : Text.Edited cs c.extent c.text.toList ds) :
    ∃ patch t next, s.edit c.extent c.text = (.ok patch, t) ∧ t.Reads settings next ds ∧
      ∃ front touched back anew, Renewal s t c front touched back anew := by
  obtain ⟨patch, t, next, hedit, ht, hsource, hborn, -⟩ := h.lined.edit c.extent c.text
  have hparse := h.lined.onTrack.parse_of_edit hedit
  obtain ⟨before, middle, middle', behind, hparted⟩ := hc.parted
  obtain ⟨front, touched, back, hsifted, hfront, hback⟩ := h.stand.sifted hparted
  have hkept := hsifted.blocks_edit hc.le (fun _ hb => (h.stand.bounds hb).2.1) c.text
  have hmoved := hback.moved (Extent.length_le hparted.behind) hparted.shift
  have hnow : (Parser.edit s.parser c.extent c.text).source.toList = ds :=
    String.toList_ofList.trans (h.source ▸ hc.splice)
  have hnext {k : Handle} {tree : Sketch} (hk : s.plot.forest.sketch k = .ok tree) :
      (s.nextPlot root).forest.sketch k = .ok tree := by
    rwa [Forest.sketch, s.node_nextPlot root]
  obtain ⟨anew, hall, hstand, hnew⟩ := Blocks.parse_between hparse hkept
    ((congrArg Text.lines hnow).trans hparted.new) (hfront.mono hnext) (hmoved.mono hnext)
  rw [hnow] at hstand
  obtain ⟨-, hgen⟩ := h.lined.onTrack.nextPlot
  refine ⟨patch, t, next, hedit, ⟨ht, hsource ▸ hnow, hstand⟩, front, touched, back, anew,
    ⟨hsifted, hall, root, next, h.lined.onTrack.node, ht.onTrack.node, hborn, fun b hb => ?_⟩⟩
  obtain ⟨n, hn, hnborn⟩ := hnew b hb
  exact ⟨n, hn, hnborn.trans (hgen.trans hborn.symm)⟩

/-- What one edit keeps, any number of them keeps. -/
theorem editAll_keeps {I : Session Blocks → List Char → Prop}
    (step : ∀ {s cs ds} {c : Change}, I s cs → Text.Edited cs c.extent c.text.toList ds →
      ∃ patch t, s.edit c.extent c.text = (.ok patch, t) ∧ I t ds)
    (h : I s cs) {edits : List Change} (hc : Changes cs edits ds) :
    ∃ t, s.editAll edits = .ok t ∧ I t ds := by
  induction hc generalizing s with
  | nil => exact ⟨s, rfl, h⟩
  | cons hedited _ ih =>
    obtain ⟨patch, t, hedit, ht⟩ := step h hedited
    obtain ⟨u, hall, hu⟩ := ih ht
    refine ⟨u, ?_, hu⟩
    simp only [Session.editAll, hedit, bind, Except.bind]
    exact hall

theorem Reads.editAll (h : s.Reads settings root cs) {edits : List Change}
    (hc : Changes cs edits ds) :
    ∃ t next, s.editAll edits = .ok t ∧ t.Reads settings next ds := by
  obtain ⟨t, hall, next, ht⟩ := editAll_keeps (I := fun s cs => ∃ root, s.Reads settings root cs)
    (fun ⟨_, hs⟩ hedited => by
      obtain ⟨patch, t, next, hedit, ht, -⟩ := hs.edit hedited
      exact ⟨patch, t, hedit, next, ht⟩) ⟨root, h⟩ hc
  exact ⟨t, next, hall, ht⟩

theorem Reads.upToDate (h : s.Reads settings root cs) : s.UpToDate cs where
  source := h.source
  lines e := by
    rw [← Text.mem_lineExtents_iff, Text.lineExtents, ← h.stand.extents, List.mem_map]
  ordered := by
    have := Text.pairwise_extentsFrom 0 (Text.lines cs)
    rwa [← h.stand.extents, List.pairwise_map] at this
  root := ⟨root, h.lined.onTrack.node, h.lined.layer⟩
  scratch settings arena spare := by
    obtain ⟨t, top, hstart, ht⟩ := start_reads settings arena spare s.parser.source
    rw [h.source] at ht
    exact ⟨t, .ofText cs, hstart, ht.sketch, h.sketch⟩

/-- An edit fails no check. -/
theorem Reads.edit?_eq (h : s.Reads settings root cs) {c : Change}
    (hc : Text.Edited cs c.extent c.text.toList ds) :
    s.parser.edit? c.extent c.text = some (Parser.edit s.parser c.extent c.text) :=
  Blocks.edit?_eq (h.source.symm ▸ hc) fun _ hb => (h.stand.bounds hb).2.1

end Session

/-- **Parsing after each edit is parsing from scratch.** Whatever the source, the settings and the
edits, none of them fails, in any check or in its parse. After each the tree is the one that a new
session builds from the source, the blocks stand where its lines stand, and those of the lines
that the edit did not meet are as before. -/
theorem lines_incremental (settings : Settings) (arena spare : Nat) (source : String) :
    ∃ s, Session.start (⟨source, []⟩ : Blocks) ⟨{ arena, settings }, spare⟩ = .ok s ∧
      s.UpToDate source.toList ∧
      ∀ (edits : List Change) (last : List Char), Changes source.toList edits last →
        ∃ t, s.editAll edits = .ok t ∧ t.UpToDate last ∧
          ∀ (c : Change) (next : List Char), Text.Edited last c.extent c.text.toList next →
            t.parser.edit? c.extent c.text = some (Parser.edit t.parser c.extent c.text) ∧
              ∃ patch u, t.edit c.extent c.text = (.ok patch, u) ∧ u.UpToDate next ∧
                ∃ front touched back anew, t.Renewal u c front touched back anew := by
  obtain ⟨s, root, hstart, hs⟩ := Session.start_reads settings arena spare source
  refine ⟨s, hstart, hs.upToDate, fun edits last hchanges => ?_⟩
  obtain ⟨t, top, hall, ht⟩ := hs.editAll hchanges
  refine ⟨t, hall, ht.upToDate, fun c next hc => ⟨ht.edit?_eq hc, ?_⟩⟩
  obtain ⟨patch, u, newest, hedit, hu, hrenewal⟩ := ht.edit hc
  exact ⟨patch, u, hedit, hu.upToDate, hrenewal⟩

/-- A line comes in beside an empty one, and then the end of the heading goes. -/
theorem lines_incremental_joined : ∃ (s t u : Session Blocks) (patch : Patch),
    Session.start (⟨"= é\n\nb", []⟩ : Blocks) ⟨{ arena := 0, settings := {} }, 1⟩ = .ok s ∧
      s.editAll [⟨⟨5, 5⟩, "x\n"⟩] = .ok t ∧
      t.UpToDate ['=', ' ', 'é', '\n', 'x', '\n', '\n', 'b'] ∧
      t.parser.edit? ⟨4, 5⟩ "" = some (Parser.edit t.parser ⟨4, 5⟩ "") ∧
      t.edit ⟨4, 5⟩ "" = (.ok patch, u) ∧ u.UpToDate ['=', ' ', 'é', 'x', '\n', '\n', 'b'] ∧
      ∃ front touched back anew, t.Renewal u ⟨⟨4, 5⟩, ""⟩ front touched back anew := by
  have hfirst : Text.Edited "= é\n\nb".toList ⟨5, 5⟩ "x\n".toList
      ['=', ' ', 'é', '\n', 'x', '\n', '\n', 'b'] :=
    .mk ['=', ' ', 'é', '\n'] [] ['\n', 'b'] ['x', '\n']
  have hsecond : Text.Edited ['=', ' ', 'é', '\n', 'x', '\n', '\n', 'b'] ⟨4, 5⟩ "".toList
      ['=', ' ', 'é', 'x', '\n', '\n', 'b'] :=
    .mk ['=', ' ', 'é'] ['\n'] ['x', '\n', '\n', 'b'] []
  have hchanges : Changes "= é\n\nb".toList [⟨⟨5, 5⟩, "x\n"⟩]
      ['=', ' ', 'é', '\n', 'x', '\n', '\n', 'b'] := .cons hfirst .nil
  obtain ⟨s, hs, -, hedits⟩ := lines_incremental {} 0 1 "= é\n\nb"
  obtain ⟨t, hall, ht, hnext⟩ := hedits _ _ hchanges
  obtain ⟨hchecked, patch, u, hedit, hu, hrenewal⟩ := hnext ⟨⟨4, 5⟩, ""⟩ _ hsecond
  exact ⟨s, t, u, patch, hs, hall, ht, hchecked, hedit, hu, hrenewal⟩

end TreePatch
