import TreePatch.Proofs.Reading
import TreePatch.Proofs.Recovery

/-! Sessions over lines and the surfaces that follow them. No parse fails, no node is without
width, and no root is ever below another, so nothing stands in the way of a patch: every surface
shows the latest root at any time, whether it has followed from the start or joins now
(`lines_in_sync`). -/

namespace TreePatch

namespace Forest

/-- Every node takes up some width. -/
def Wide (f : Forest) : Prop := ∀ h n, f.node h = .ok n → n.span ≠ 0

/-- No branch has the node right below it. -/
def Topmost (f : Forest) (h : Handle) : Prop := ∀ k b, f.node k = .ok b → h ∉ b.layer.children

variable {f g : Forest} {h : Handle} {n root : Node} {size : Nat} {given : List Handle}

theorem Wide.build (hw : f.Wide) (hf : f.Raised) {layer : Layer} (hl : layer.Rests size given)
    (hb : f.build layer = .ok (h, g)) : g.Wide := by
  obtain ⟨m, hm, -, rfl, hgrown⟩ := hf.stamps.1.grows_of_build hb
  intro k n hn
  rcases (hm.view k n).mp hn with hn | ⟨-, rfl⟩
  · exact hw k n hn
  · cases n with
    | leaf tag text =>
      rw [show Node.span (.leaf tag text) = _ from hgrown.1]
      exact mt (Text.units_eq_zero_iff text).mp hl
    | branch tag kind children =>
      rw [show Node.span (.branch tag kind children) = _ from hgrown.1]
      omega

theorem Topmost.build (ht : f.Topmost h) (hf : f.Raised) {layer : Layer} {k : Handle}
    (hl : layer.Rests size given) (hb : f.build layer = .ok (k, g)) (older : h.index < size)
    (hgiven : h ∉ given) : g.Topmost h := by
  obtain ⟨m, hm, -, rfl, -⟩ := hf.stamps.1.grows_of_build hb
  intro j b hj
  rcases (hm.view j b).mp hj with hj | ⟨-, rfl⟩
  · exact ht j b hj
  · cases b with
    | leaf tag text => exact List.not_mem_nil
    | branch tag kind children =>
      intro hh
      rcases hl h hh with hh | hle
      · exact hgiven hh
      · exact absurd older (Nat.not_lt_of_le hle)

theorem Wide.layered (hw : f.Wide) (hf : f.Raised) (hg : f.Layered (Layer.Rests size given) g) :
    g.Wide :=
  (hg.keeps (I := fun k => k.Raised ∧ k.Wide)
    (fun hk hl hb => ⟨hk.1.build hb, hk.2.build hk.1 hl hb⟩) ⟨hf, hw⟩).2

theorem Topmost.layered (ht : f.Topmost h) (hf : f.Raised)
    (hg : f.Layered (Layer.Rests size given) g) (older : h.index < size) (hgiven : h ∉ given) :
    g.Topmost h :=
  (hg.keeps (I := fun k => k.Raised ∧ k.Topmost h)
    (fun hk hl hb => ⟨hk.1.build hb, hk.2.build hk.1 hl hb older hgiven⟩) ⟨hf, ht⟩).2

/-- Nothing is above the last node. -/
theorem Sound.topmost (hf : f.Sound) (last : h.index + 1 = f.size) : f.Topmost h := by
  intro k b hb hh
  have := (hf.child_lt hb hh).2
  have := index_lt_size hb
  omega

theorem Claimed.claimedAt (hc : f.Claimed) (hn : f.node h = .ok n) (ht : f.Topmost h) :
    f.claimedAt h = n.born := by
  obtain ⟨e, he, rfl⟩ := (node_eq_ok_iff f h n).mp hn
  simp only [Forest.claimedAt, he]
  rcases (hc he).1 with hborn | ⟨k, b, hb, hh, -⟩
  · exact hborn
  · exact absurd hh (ht k b hb)

theorem Wide.not_reusesBlank (hw : f.Wide) (hf : f.Sound) (hr : f.node h = .ok root) :
    ¬ root.ReusesBlank := by
  rintro ⟨b, hb, -, n, hn, -, hz⟩
  exact hw _ n (hf.below (hf.held hr b hb) n hn).1 hz

/-- A branch over some nodes has content. -/
theorem Wide.fit_content (hw : f.Wide) (hf : f.Sound) (hr : f.node h = .ok root) {kind : String}
    {hs : List Handle} (layer : root.layer = .branch kind hs) (hne : hs ≠ []) :
    root.content.Fit := by
  refine ⟨?_, root.matched_content⟩
  rw [Node.size_content (hf.sized_node hr)]
  cases root with
  | leaf tag text => cases layer
  | branch tag kind' children =>
    cases children with
    | nil => exact absurd (Layer.branch.inj layer).2.symm hne
    | cons c cs =>
      have hspan : tag.span = 2 + Node.spanAmong (c :: cs) := (hf.grown hr).1
      have hc : c.span ≠ 0 := hw _ c (hf.below hr c List.mem_cons_self).1
      have hsum : Node.spanAmong (c :: cs) = c.span + Node.spanAmong cs := rfl
      simp only [Node.innerSpan]
      omega

end Forest

/-! ## Surfaces that follow a session -/

/-- Takes all of a patch or, with the error that stopped it, none. -/
def Document.take (d : Document) (patch : Patch) : Except Error Document :=
  match d.applyPatch patch with
  | (next, none) => .ok next
  | (_, some e) => .error e

theorem Document.take_eq_ok {d next : Document} {patch : Patch}
    (h : d.applyPatch patch = (next, none)) : d.take patch = .ok next := by
  rw [take, h]

/-- One edit of a source. -/
structure Change where
  extent : Extent
  text : String

/-- Changes between characters, each of what the one before has left. -/
inductive Changes : List Char → List Change → List Char → Prop
  | nil {cs : List Char} : Changes cs [] cs
  | cons {cs ds es : List Char} {c : Change} {rest : List Change} :
      Text.Edited cs c.extent c.text.toList ds → Changes ds rest es → Changes cs (c :: rest) es

namespace Session

variable {π : Type} [Parser π]

/-- The surface of one who joins the session now. -/
def joined (s : Session π) (settings : Settings) : Except Error Document := do
  (Document.placeholder settings).take (← s.joinPatch)

/-- The session and a surface of it after one more edit. -/
def follow (s : Session π) (d : Document) (c : Change) : Except Error (Session π × Document) := do
  let (patch, t) := s.edit c.extent c.text
  return (t, ← d.take (← patch))

/-- The session and a surface of it after edits. The first error ends it. -/
def followAll (s : Session π) (d : Document) : List Change → Except Error (Session π × Document)
  | [] => .ok (s, d)
  | c :: rest => do
    let (t, e) ← s.follow d c
    t.followAll e rest

/-- The surface holds the rendering of the latest root. -/
def Shows (s : Session π) (d : Document) : Prop :=
  ∃ root, s.plot.forest.node s.root = .ok root ∧ Document.ofRoot root = .ok d

omit [Parser π] in
theorem record_of_next {s : Session π} (parser : π) (after : Plot) {l h : Handle} {old new : Node}
    (hl : s.timeline.latest = some l) (hold : after.forest.node l = .ok old)
    (hnew : after.forest.node h = .ok new) (next : new.born = old.born + 1) :
    s.record parser after h = .ok ⟨parser, after, ⟨[l, h]⟩, h⟩ := by
  obtain ⟨front, hfront⟩ := List.getLast?_eq_some_iff.mp hl
  simp [record, Timeline.push, hl, hold, hnew, next, Timeline.keepLatest, hfront, bind,
    Except.bind, pure, Except.pure]

/-- What holds of a session over lines between edits. The blocks are those right below the root,
which nothing has taken in. -/
structure Lined (settings : Settings) (s : Session Blocks) (root : Node) : Prop where
  onTrack : s.OnTrack root
  settings_eq : s.plot.forest.settings = settings
  layer : root.layer = .branch "doc" (s.parser.blocks.map Block.handle)
  blocks : s.parser.blocks ≠ []
  wide : s.plot.forest.Wide
  topmost : s.plot.forest.Topmost s.root

variable {settings : Settings} {s : Session Blocks} {root : Node} {d : Document}

theorem Lined.shows (h : s.Lined settings root) : ∃ d, s.Shows d ∧ d.content = root.content := by
  have hf := h.onTrack.raised.stamps.1
  have hfit := h.wide.fit_content hf h.onTrack.node h.layer
    (mt List.map_eq_nil_iff.mp h.blocks)
  exact ⟨_, ⟨root, h.onTrack.node, Document.ofFragment_of_fit hfit⟩, rfl⟩

/-- Who joins now sees what the others see. -/
theorem Lined.joined (h : s.Lined settings root) (hd : s.Shows d) :
    s.joined settings = .ok d := by
  obtain ⟨_, hroot, hd⟩ := hd
  obtain rfl := Except.ok.inj (h.onTrack.node.symm.trans hroot)
  have hcontent := Document.content_of_ofFragment hd
  obtain ⟨patch, hpatch, htakes⟩ := takes_populate h.onTrack.node
  obtain ⟨e, he, hshown⟩ := htakes (.placeholder settings) (by rw [h.settings_eq]; rfl)
  have hsame : e = d := by
    have hempty : root.content.isEmpty = false :=
      hcontent ▸ (Document.isEmpty_eq_false_iff _).mpr d.fit.1
    refine Document.ext ?_
    rw [hshown, Node.padding_of_content hempty, Fragment.append_empty, hcontent]
  simp only [Session.joined, joinPatch, hpatch, bind, Except.bind]
  rw [Document.take_eq_ok he, hsame]

/-- The first parse gives a session over the lines of the source. -/
theorem start_lined (settings : Settings) (arena spare : Nat) (source : String) :
    ∃ s root, Session.start (⟨source, []⟩ : Blocks) ⟨{ arena, settings }, spare⟩ = .ok s ∧
      s.Lined settings root ∧ s.parser.source = source := by
  have hempty : Forest.Raised { arena, settings } := .empty arena settings
  obtain ⟨h, blocks, g, root, hparse, hlayers, hroot, hlayer, hne, hborn, hlast⟩ :=
    Blocks.parse_eq_ok ⟨source, []⟩ ⟨{ arena, settings }, spare⟩ hempty (by simp)
  have hraised : g.Raised := hlayers.raised hempty
  refine ⟨⟨⟨source, blocks⟩, ⟨g, spare⟩, ⟨[h]⟩, h⟩, root, ?_, ?_, rfl⟩
  · have hput : (Plot.put ⟨{ arena, settings }, spare⟩ g).forest = g := rfl
    simp only [Session.start, hparse, bind, Except.bind, Timeline.push, hput, hroot,
      Timeline.latest, List.getLast?_nil, pure, Except.pure]
    rfl
  · refine ⟨⟨hraised, hroot, Or.inl ?_, Or.inl rfl⟩, hlayers.frame.2.2, hlayer, hne, ?_, ?_⟩
    · exact hlayers.frame.2.1.trans hborn.symm
    · refine Forest.Wide.layered (fun k n hn => ?_) hempty hlayers
      simp [Forest.node_eq_ok_iff, Forest.find?] at hn
    · exact hraised.stamps.1.topmost hlast

/-- The blocks that an edit leaves stand right below the root, so they are held and none of them is
the root. -/
theorem Lined.held (h : s.Lined settings root) (e : Extent) (text : String) :
    ∀ k ∈ (Parser.edit s.parser e text).blocks.map Block.handle,
      (∃ n, s.plot.forest.node k = .ok n) ∧ k ≠ s.root := by
  intro k hk
  have hsound := h.onTrack.raised.stamps.1
  have hbelow : k ∈ root.layer.children := by
    rw [h.layer]
    exact Blocks.handles_edit s.parser e text hk
  obtain ⟨c, hc, rfl⟩ := Forest.mem_children_iff.mp hbelow
  refine ⟨⟨c, (hsound.below h.onTrack.node c hc).1⟩, fun he => ?_⟩
  exact Nat.lt_irrefl _ (he ▸ (hsound.child_lt h.onTrack.node hbelow).2)

/-- **An edit gives the patch from one root to the next**, and the old root is left unclaimed. -/
theorem Lined.edit (h : s.Lined settings root) (e : Extent) (text : String) :
    ∃ patch t new, s.edit e text = (.ok patch, t) ∧ t.Lined settings new ∧
      t.parser.source = (Parser.edit s.parser e text).source ∧
      new.born = root.born + 1 ∧ t.plot.forest.node s.root = .ok root ∧
      t.plot.forest.claimedAt s.root = root.born ∧
      Patch.between t.plot.forest s.root t.root = .ok patch := by
  obtain ⟨hraised, hgen⟩ := h.onTrack.nextPlot
  obtain ⟨-, -, hsettings⟩ := s.nextPlot_entries root
  have hnode := s.node_nextPlot root
  have hroot : (s.nextPlot root).forest.node s.root = .ok root :=
    (hnode s.root).trans h.onTrack.node
  have hheld := h.held e text
  obtain ⟨k, blocks, g, new, hparse, hlayers, hnew, hlayer, hne, hborn, hlast⟩ :=
    Blocks.parse_eq_ok (Parser.edit s.parser e text) (s.nextPlot root) hraised fun b hb => by
      rw [hnode]
      exact (hheld _ (List.mem_map_of_mem hb)).1
  have hnext : new.born = root.born + 1 := hborn.trans hgen
  have hgraised : g.Raised := hlayers.raised hraised
  have hold : g.node s.root = .ok root := hlayers.node hroot
  have htopmost : g.Topmost s.root := by
    refine Forest.Topmost.layered (fun j b hb => ?_) hraised hlayers ?_ fun hk => ?_
    · exact h.topmost j b ((hnode j).symm.trans hb)
    · exact Forest.index_lt_size hroot
    · exact (hheld _ hk).2 rfl
  have hwide : g.Wide :=
    Forest.Wide.layered (fun j n hn => h.wide j n ((hnode j).symm.trans hn)) hraised hlayers
  obtain ⟨patch, hpatch⟩ := hgraised.stamps.1.between_ok hold hnew hnext
  refine ⟨patch, ⟨{ Parser.edit s.parser e text with blocks }, (s.nextPlot root).put g,
    ⟨[s.root, k]⟩, k⟩, new, ?_, ?_, rfl, hnext, hold, ?_, hpatch⟩
  · have hparsed : s.parsed root e text =
        (.ok k, { Parser.edit s.parser e text with blocks }, (s.nextPlot root).put g) := hparse
    rw [edit_eq h.onTrack.node, hparsed]
    simp only [Except.bind]
    rw [record_of_next _ ((s.nextPlot root).put g) h.onTrack.latest hold hnew hnext]
    exact Prod.ext hpatch rfl
  · refine ⟨⟨hgraised, hnew, Or.inl ?_, Or.inr ⟨s.root, root, rfl, hold, hnext⟩⟩, ?_, hlayer, hne,
      hwide, hgraised.stamps.1.topmost hlast⟩
    · exact hlayers.frame.2.1.trans hborn.symm
    · exact hlayers.frame.2.2.trans (hsettings.trans h.settings_eq)
  · exact Forest.Claimed.claimedAt hgraised.stamps.2.2 hold htopmost

/-- A surface in sync stays so. -/
theorem Lined.follow (h : s.Lined settings root) (hd : s.Shows d) (c : Change) :
    ∃ t new next, s.follow d c = .ok (t, next) ∧ t.Lined settings new ∧ t.Shows next ∧
      t.parser.source = (Parser.edit s.parser c.extent c.text).source := by
  obtain ⟨_, hroot, hd⟩ := hd
  obtain rfl := Except.ok.inj (h.onTrack.node.symm.trans hroot)
  obtain ⟨patch, t, new, hedit, ht, hsource, hnext, hold, hclaim, hpatch⟩ :=
    h.edit c.extent c.text
  obtain ⟨next, ⟨_, hnew, hnextdoc⟩, hcontent⟩ := ht.shows
  obtain rfl := Except.ok.inj (ht.onTrack.node.symm.trans hnew)
  have hsound := ht.onTrack.raised.stamps.1
  obtain ⟨patch', last, hpatch', hlast, -, hiff⟩ := applyPatch_between hsound hold hnew hnext
    (hsound.not_rootKept hold hclaim) hd hnextdoc
  obtain rfl := Except.ok.inj (hpatch.symm.trans hpatch')
  have hsame : last = next := hiff.mpr (hsound.not_strands hold hnew
    (ht.wide.not_reusesBlank hsound hnew) (hcontent ▸ next.fit.1))
  refine ⟨t, new, next, ?_, ht, ⟨new, hnew, hnextdoc⟩, hsource⟩
  simp only [Session.follow, hedit, bind, Except.bind, pure, Except.pure]
  rw [Document.take_eq_ok (hsame ▸ hlast)]

theorem Lined.followAll (h : s.Lined settings root) (hd : s.Shows d) {cs : List Char}
    {edits : List Change} (hc : Changes s.parser.source.toList edits cs) :
    ∃ t new last, s.followAll d edits = .ok (t, last) ∧ t.Lined settings new ∧ t.Shows last ∧
      t.parser.source.toList = cs := by
  generalize hs : s.parser.source.toList = source at hc
  induction hc generalizing s root d with
  | nil => exact ⟨s, root, d, rfl, h, hd, hs⟩
  | @cons _ edited _ c rest hedited _ ih =>
    obtain ⟨t, new, next, hfollow, ht, hnext, hsource⟩ := h.follow hd c
    have hnow : t.parser.source.toList = edited := by
      rw [hsource]
      exact String.toList_ofList.trans (hs ▸ hedited.splice)
    obtain ⟨u, newest, last, hall, hu, hlast, hend⟩ := ih ht hnext hnow
    refine ⟨u, newest, last, ?_, hu, hlast, hend⟩
    simp only [Session.followAll, hfollow, bind, Except.bind]
    exact hall

end Session

/-- **Sessions over lines stay in sync.** Whatever the source, the settings and the edits, no parse
and no edit fails. A surface that joins at the start takes the patch of every edit, and shows the
latest root after each; so does at once any surface that joins later. -/
theorem lines_in_sync (settings : Settings) (arena spare : Nat) (source : String) :
    ∃ s first, Session.start (⟨source, []⟩ : Blocks) ⟨{ arena, settings }, spare⟩ = .ok s ∧
      s.joined settings = .ok first ∧ s.Shows first ∧
      ∀ (edits : List Change) (last : List Char), Changes source.toList edits last →
        ∃ t d, s.followAll first edits = .ok (t, d) ∧ t.parser.source.toList = last ∧
          t.Shows d ∧ t.joined settings = .ok d := by
  obtain ⟨s, root, hstart, hs, hsource⟩ := Session.start_lined settings arena spare source
  obtain ⟨first, hfirst, -⟩ := hs.shows
  refine ⟨s, first, hstart, hs.joined hfirst, hfirst, fun edits last h => ?_⟩
  obtain ⟨t, new, d, hall, ht, hd, hlast⟩ := hs.followAll hfirst (hsource.symm ▸ h)
  exact ⟨t, d, hall, hlast, hd, ht.joined hd⟩

/-- The end of a heading goes, so that the next line joins it, and then a line comes after. -/
theorem lines_in_sync_joined : ∃ (s t : Session Blocks) (first d : Document),
    Session.start (⟨"= é\nb", []⟩ : Blocks) ⟨{ arena := 0, settings := {} }, 1⟩ = .ok s ∧
      s.joined {} = .ok first ∧ s.followAll first [⟨⟨2, 5⟩, ""⟩, ⟨⟨3, 3⟩, "\nc"⟩] = .ok (t, d) ∧
      t.parser.source.toList = ['=', ' ', 'b', '\n', 'c'] ∧ t.Shows d ∧ t.joined {} = .ok d := by
  have hfirst : Text.Edited "= é\nb".toList ⟨2, 5⟩ "".toList ['=', ' ', 'b'] :=
    .mk ['=', ' '] ['é', '\n'] ['b'] []
  have hsecond : Text.Edited ['=', ' ', 'b'] ⟨3, 3⟩ "\nc".toList ['=', ' ', 'b', '\n', 'c'] :=
    .mk ['=', ' ', 'b'] [] [] ['\n', 'c']
  have hchanges : Changes "= é\nb".toList [⟨⟨2, 5⟩, ""⟩, ⟨⟨3, 3⟩, "\nc"⟩]
      ['=', ' ', 'b', '\n', 'c'] := .cons hfirst (.cons hsecond .nil)
  obtain ⟨s, first, hs, hjoined, -, hedits⟩ := lines_in_sync {} 0 1 "= é\nb"
  obtain ⟨t, d, hall, hsource, hshows, hlater⟩ := hedits _ _ hchanges
  exact ⟨s, t, first, d, hs, hjoined, hall, hsource, hshows, hlater⟩

end TreePatch
