import Mathlib.Algebra.GroupWithZero.Nat
import Mathlib.Data.List.Chain
import TreePatch.Forest.Basic
import TreePatch.Render
import TreePatch.Proofs.Cuts

/-! Fragments put together one token at a time. A tally is a plain row of tokens with a count of its
positions kept beside it; a token goes behind the others, and a text joins a text that is last.
Whichever way a fragment comes about, a tally kept in step with it holds its tokens and its size
(`Recipe.tally_eq`), so no such row has an empty text or two texts side by side, and its count is
right. Two rows of tokens give one fragment just if they have the same places
(`fragments_canonical`). -/

namespace TreePatch

/-! ## The normal form, said of neighbours -/

/-- Two texts. -/
def Token.Mergeable (s t : Token) : Prop := s.isText = true ∧ t.isText = true

theorem normal_iff (ts : List Token) :
    Normal ts ↔ (∀ t ∈ ts, t ≠ .text "") ∧ ts.IsChain fun s t => ¬ s.Mergeable t := by
  induction ts with
  | nil => simp
  | cons t ts ih =>
    rw [List.forall_mem_cons, List.isChain_cons]
    cases t with
    | opening kind => simp [ih, Token.Mergeable, Token.isText]
    | closing kind => simp [ih, Token.Mergeable, Token.isText]
    | text s =>
      rw [normal_text, ih]
      simp only [Token.Mergeable, Token.isText, true_and, Bool.not_eq_true, ne_eq,
        Token.text.injEq]
      constructor
      · rintro ⟨hs, hhead, hne, hchain⟩
        exact ⟨⟨hs, hne⟩, hhead, hchain⟩
      · rintro ⟨⟨hs, hne⟩, hhead, hchain⟩
        exact ⟨hs, hhead, hne, hchain⟩

theorem normal_append_iff (a b : List Token) :
    Normal (a ++ b) ↔ Normal a ∧ Normal b ∧
      ∀ s ∈ a.getLast?, ∀ t ∈ b.head?, ¬ s.Mergeable t := by
  simp only [normal_iff, List.forall_mem_append, List.isChain_append]
  constructor
  · rintro ⟨⟨ha, hb⟩, hca, hcb, hj⟩
    exact ⟨⟨ha, hca⟩, ⟨hb, hcb⟩, hj⟩
  · rintro ⟨⟨ha, hca⟩, ⟨hb, hcb⟩, hj⟩
    exact ⟨⟨ha, hb⟩, hca, hcb, hj⟩

theorem listWidth_eq_sum (ts : List Token) :
    Token.listWidth ts = (ts.map Token.width).sum := by
  induction ts with
  | nil => rfl
  | cons t ts ih => rw [Token.listWidth_cons, ih, List.map_cons, List.sum_cons]

namespace Fragment

theorem size_push (f : Fragment) (t : Token) : (f.push t).size = f.size + t.width := by
  rw [push, appendTokens, size_ofTokens, Token.listWidth_append]
  rfl

theorem push_empty (f : Fragment) : f.push (.text "") = f := by
  rw [push, appendTokens, ofTokens_append, ofTokens_tokens]
  exact append_empty f

/-- Tokens may be put behind a fragment one by one. -/
theorem foldl_push (f : Fragment) (ts : List Token) : ts.foldl push f = f.appendTokens ts := by
  induction ts generalizing f with
  | nil => rw [List.foldl_nil, appendTokens, List.append_nil, ofTokens_tokens]
  | cons t ts ih =>
    rw [List.foldl_cons, ih]
    apply ext
    simp only [push, appendTokens, ofTokens]
    rw [normalize_normalize_append, List.append_assoc, List.singleton_append]

theorem push_appendTokens (f : Fragment) (t : Token) (ts : List Token) :
    (f.push t).appendTokens ts = f.appendTokens (t :: ts) := by
  rw [← foldl_push, ← foldl_push, List.foldl_cons]

theorem empty_appendTokens (ts : List Token) : empty.appendTokens ts = ofTokens ts := rfl

end Fragment

/-! ## Tallies -/

structure Tally where
  tokens : List Token := []
  /-- The positions that the tokens take up. -/
  count : Nat := 0
  deriving DecidableEq, Repr

namespace Tally

/-- Puts a token behind the others, joining text with the text before it. -/
def joinBack (ts : List Token) : Token → List Token
  | .text s => match ts.getLast? with
    | some (.text r) => ts.dropLast ++ [.text (r ++ s)]
    | _ => ts ++ [.text s]
  | t => ts ++ [t]

/-- An empty text is left out. -/
def push (w : Tally) (t : Token) : Tally :=
  if t = .text "" then w else ⟨joinBack w.tokens t, w.count + t.width⟩

def extend (w : Tally) (ts : List Token) : Tally := ts.foldl push w

mutual

/-- Puts the tokens of a node behind the others while walking the tree. -/
def render (w : Tally) : Node → Tally
  | .leaf _ text => w.push (.text text)
  | .branch _ kind children => (renderAmong (w.push (.opening kind)) children).push (.closing kind)

def renderAmong (w : Tally) : List Node → Tally
  | [] => w
  | n :: ns => renderAmong (render w n) ns

end

def ofRoot : Node → Tally
  | .leaf _ text => push {} (.text text)
  | .branch _ _ children => renderAmong {} children

/-- Deals a token to the part before a position while that part is too small, to the part behind
it afterwards. -/
def deal (position : Nat) : Tally × Tally → Token → Tally × Tally
  | (before, after), t =>
    let left := position - before.count
    if left = 0 then (before, after.push t)
    else match t with
      | .text s =>
        if left < Text.units s then
          (before.push (.text (Text.cut left s).1), after.push (.text (Text.cut left s).2))
        else (before.push (.text s), after)
      | t => (before.push t, after)

def cutAt (w : Tally) (position : Nat) : Except Error (Tally × Tally) :=
  if w.count < position then .error (.outOfBounds position w.count)
  else .ok (w.tokens.foldl (deal position) ({}, {}))

def slice (w : Tally) (e : Extent) : Except Error Tally := do
  if e.stop < e.start then throw (.outOfBounds e.start e.stop)
  let (_, rest) ← w.cutAt e.start
  let (inside, _) ← rest.cutAt e.length
  return inside

/-- No text is empty, no two texts are neighbours, and the count is that of all tokens. -/
structure Canonical (w : Tally) : Prop where
  visible : ∀ t ∈ w.tokens, t ≠ .text ""
  apart : w.tokens.IsChain fun s t => ¬ s.Mergeable t
  counted : w.count = (w.tokens.map Token.width).sum

/-- A fragment with its size. -/
def ofFragment (f : Fragment) : Tally := ⟨f.tokens, f.size⟩

theorem canonical_ofFragment (f : Fragment) : (ofFragment f).Canonical :=
  ⟨((normal_iff _).mp f.normal).1, ((normal_iff _).mp f.normal).2, listWidth_eq_sum _⟩

/-! ## In step with fragments -/

theorem normal_concat {ts : List Token} (h : Normal ts) {t : Token} (ht : t ≠ .text "")
    (hlast : ∀ s ∈ ts.getLast?, ¬ s.Mergeable t) : Normal (ts ++ [t]) := by
  refine (normal_append_iff _ _).mpr ⟨h, ?_, fun s hs u hu => ?_⟩
  · rw [normal_iff]
    exact ⟨List.forall_mem_singleton.mpr ht, .singleton t⟩
  · obtain rfl := Option.some.inj hu
    exact hlast s hs

theorem normalize_concat {ts : List Token} (h : Normal ts) {t : Token} (ht : t ≠ .text "") :
    normalize (ts ++ [t]) = joinBack ts t := by
  cases t with
  | opening kind =>
    exact normalize_eq_self _ (normal_concat h ht (by simp [Token.Mergeable, Token.isText]))
  | closing kind =>
    exact normalize_eq_self _ (normal_concat h ht (by simp [Token.Mergeable, Token.isText]))
  | text s =>
    rcases List.eq_nil_or_concat' ts with rfl | ⟨front, last, rfl⟩
    · exact normalize_eq_self _ (normal_concat h ht (by simp))
    · cases last with
      | opening kind =>
        simp only [joinBack, List.getLast?_concat]
        exact normalize_eq_self _ (normal_concat h ht (by simp [Token.Mergeable, Token.isText]))
      | closing kind =>
        simp only [joinBack, List.getLast?_concat]
        exact normalize_eq_self _ (normal_concat h ht (by simp [Token.Mergeable, Token.isText]))
      | text r =>
        -- the joined text has the neighbour that the last text had
        obtain ⟨hfront, -, hlast⟩ := (normal_append_iff _ _).mp h
        have hs : s ≠ "" := fun he => ht (congrArg Token.text he)
        have hne : Token.text (r ++ s) ≠ .text "" := fun he =>
          hs (String.append_eq_empty_iff.mp (Token.text.inj he)).2
        have hnormal : Normal (front ++ [.text (r ++ s)]) :=
          normal_concat hfront hne (by simpa [Token.Mergeable, Token.isText] using hlast)
        have hpair : normalize [.text r, .text s] = [.text (r ++ s)] := by
          simp [joinFront, hs]
        simp only [joinBack, List.getLast?_concat, List.dropLast_concat]
        rw [List.append_assoc, List.singleton_append, ← normalize_append_normalize, hpair,
          normalize_eq_self _ hnormal]

theorem push_ofFragment (f : Fragment) (t : Token) :
    (ofFragment f).push t = ofFragment (f.push t) := by
  unfold push
  split
  · rename_i ht
    rw [ht, Fragment.push_empty]
  · rename_i ht
    have htokens : (f.push t).tokens = joinBack f.tokens t := normalize_concat f.normal ht
    rw [ofFragment, ofFragment, htokens, f.size_push]

theorem extend_ofFragment (f : Fragment) (ts : List Token) :
    (ofFragment f).extend ts = ofFragment (f.appendTokens ts) := by
  rw [extend, List.foldl_hom ofFragment fun g t => (push_ofFragment g t), Fragment.foldl_push]

theorem extend_ofTokens (ts : List Token) : extend {} ts = ofFragment (.ofTokens ts) :=
  extend_ofFragment .empty ts

theorem extend_append (w : Tally) (a b : List Token) :
    w.extend (a ++ b) = (w.extend a).extend b :=
  List.foldl_append

mutual

theorem render_eq (w : Tally) (n : Node) : w.render n = w.extend n.tokens := by
  cases n with
  | leaf tag text => rfl
  | branch tag kind children =>
    rw [render, renderAmong_eq, Node.tokens, extend_append]
    rfl

theorem renderAmong_eq (w : Tally) (ns : List Node) :
    w.renderAmong ns = w.extend (Node.tokensAmong ns) := by
  cases ns with
  | nil => rfl
  | cons n ns => rw [renderAmong, render_eq, renderAmong_eq, Node.tokensAmong, extend_append]

end

theorem ofRoot_eq (root : Node) : ofRoot root = ofFragment root.content := by
  rw [Node.content, ← extend_ofTokens]
  cases root with
  | leaf tag text => rfl
  | branch tag kind children => rw [ofRoot, renderAmong_eq, Node.contentTokens_branch]

/-- When the part before the position is full, all that is left goes behind it. -/
theorem foldl_deal_full {position : Nat} {before : Tally} (h : position ≤ before.count)
    (after : Tally) (ts : List Token) :
    ts.foldl (deal position) (before, after) = (before, after.extend ts) := by
  induction ts generalizing after with
  | nil => rfl
  | cons t ts ih =>
    have hdeal : deal position (before, after) t = (before, after.push t) := by
      simp [deal, Nat.sub_eq_zero_of_le h]
    rw [List.foldl_cons, hdeal, ih]
    rfl

/-- A token that fits before the position goes there. -/
theorem deal_whole {position n : Nat} {before : Tally} {t : Token}
    (hleft : position - before.count = n) (hn : n ≠ 0) (ht : t.width ≤ n) (after : Tally) :
    deal position (before, after) t = (before.push t, after) := by
  cases t with
  | opening kind => simp [deal, hleft, hn]
  | closing kind => simp [deal, hleft, hn]
  | text s => simp [deal, hleft, hn, Nat.not_lt.mpr (show Text.units s ≤ n from ht)]

theorem cutTokens_whole {n : Nat} {t : Token} (hn : n ≠ 0) (ht : t.width ≤ n) (ts : List Token) :
    cutTokens n (t :: ts) =
      (t :: (cutTokens (n - t.width) ts).1, (cutTokens (n - t.width) ts).2) := by
  obtain ⟨n, rfl⟩ := Nat.exists_eq_succ_of_ne_zero hn
  cases t with
  | opening kind => rfl
  | closing kind => rfl
  | text s =>
    rw [cutTokens, if_pos (show Text.units s ≤ n + 1 from ht)]
    rfl

/-- Dealing the tokens cuts them at the position. -/
theorem foldl_deal {position : Nat} {before : Fragment} {n : Nat}
    (hn : before.size + n = position) (ts : List Token) :
    ts.foldl (deal position) (ofFragment before, {}) =
      (ofFragment (before.appendTokens (cutTokens n ts).1),
        ofFragment (.ofTokens (cutTokens n ts).2)) := by
  induction ts generalizing before n with
  | nil =>
    rw [cutTokens, Fragment.appendTokens, List.append_nil, Fragment.ofTokens_tokens]
    rfl
  | cons t ts ih =>
    have hleft : position - (ofFragment before).count = n := by
      show position - before.size = n
      omega
    by_cases hzero : n = 0
    · subst hzero
      rw [foldl_deal_full (Nat.le_of_eq hn.symm), extend_ofTokens, cutTokens_zero,
        Fragment.appendTokens, List.append_nil, Fragment.ofTokens_tokens]
    · by_cases ht : t.width ≤ n
      · have hpushed : (before.push t).size + (n - t.width) = position := by
          rw [before.size_push]
          omega
        rw [List.foldl_cons, deal_whole hleft hzero ht, push_ofFragment, ih hpushed,
          Fragment.push_appendTokens, cutTokens_whole hzero ht]
      · -- only a text is wider than what is left
        obtain ⟨n, rfl⟩ := Nat.exists_eq_succ_of_ne_zero hzero
        cases t with
        | opening kind => exact absurd (Nat.succ_le_succ (Nat.zero_le n)) ht
        | closing kind => exact absurd (Nat.succ_le_succ (Nat.zero_le n)) ht
        | text s =>
          have hs : n + 1 < Text.units s := Nat.not_le.mp ht
          have hdeal : deal position (ofFragment before, {}) (.text s) =
              (ofFragment (before.push (.text (Text.cut (n + 1) s).1)),
                push {} (.text (Text.cut (n + 1) s).2)) := by
            simp [deal, hleft, hs, push_ofFragment]
          have hfull : position ≤ (before.push (.text (Text.cut (n + 1) s).1)).size := by
            have hunits := (Text.units_cut (n + 1) s (Nat.le_of_lt hs)).1
            rw [before.size_push, Token.width, hunits]
            exact Nat.le_of_eq hn.symm
          rw [List.foldl_cons, hdeal, foldl_deal_full hfull, cutTokens, if_neg (Nat.not_le.mpr hs),
            ← extend_ofTokens]
          rfl

theorem cutAt_ofFragment (f : Fragment) (position : Nat) :
    (ofFragment f).cutAt position =
      (f.cutAt position).map (Prod.map ofFragment ofFragment) := by
  have hdealt := foldl_deal (show Fragment.empty.size + position = position from
    Nat.zero_add position) f.tokens
  rw [Fragment.empty_appendTokens] at hdealt
  unfold cutAt Fragment.cutAt
  simp only [show (ofFragment f).count = f.size from rfl]
  split
  · rfl
  · exact congrArg Except.ok hdealt

theorem slice_ofFragment (f : Fragment) (e : Extent) :
    (ofFragment f).slice e = (f.slice e).map ofFragment := by
  unfold slice Fragment.slice
  split
  · rfl
  · simp only [cutAt_ofFragment]
    cases f.cutAt e.start with
    | error reason => rfl
    | ok front =>
      simp only [Except.map, bind, Except.bind, Prod.map, cutAt_ofFragment, pure, Except.pure]
      cases front.2.cutAt e.length with
      | error reason => rfl
      | ok back => rfl

end Tally

/-! ## Ways to come by a fragment -/

inductive Recipe where
  | ofTokens (tokens : List Token)
  | push (recipe : Recipe) (token : Token)
  | extend (recipe : Recipe) (tokens : List Token)
  | bareBranch (kind : String)
  | ofRoot (forest : Forest) (root : Handle)
  /-- What a cut leaves before the position. -/
  | front (recipe : Recipe) (position : Nat)
  /-- What a cut leaves behind the position. -/
  | back (recipe : Recipe) (position : Nat)
  | slice (recipe : Recipe) (e : Extent)

namespace Recipe

def fragment : Recipe → Except Error Fragment
  | ofTokens tokens => .ok (.ofTokens tokens)
  | push recipe token => recipe.fragment.map (·.push token)
  | extend recipe tokens => recipe.fragment.map (·.appendTokens tokens)
  | bareBranch kind => .ok (.bareBranch kind)
  | ofRoot forest root => (forest.node root).map Node.content
  | front recipe position => do return (← (← recipe.fragment).cutAt position).1
  | back recipe position => do return (← (← recipe.fragment).cutAt position).2
  | slice recipe e => do (← recipe.fragment).slice e

/-- The same with a tally in place of the fragment. -/
def tally : Recipe → Except Error Tally
  | ofTokens tokens => .ok (Tally.extend {} tokens)
  | push recipe token => recipe.tally.map (·.push token)
  | extend recipe tokens => recipe.tally.map (·.extend tokens)
  | bareBranch kind => .ok (Tally.extend {} [.opening kind, .closing kind])
  | ofRoot forest root => (forest.node root).map Tally.ofRoot
  | front recipe position => do return (← (← recipe.tally).cutAt position).1
  | back recipe position => do return (← (← recipe.tally).cutAt position).2
  | slice recipe e => do (← recipe.tally).slice e

/-- **A tally stays in step** with the fragment, and fails where it fails. -/
theorem tally_eq (r : Recipe) : r.tally = r.fragment.map Tally.ofFragment := by
  induction r with
  | ofTokens tokens => exact congrArg Except.ok (Tally.extend_ofTokens tokens)
  | push r token ih =>
    rw [tally, fragment, ih]
    cases r.fragment with
    | error reason => rfl
    | ok f => exact congrArg Except.ok (Tally.push_ofFragment f token)
  | extend r tokens ih =>
    rw [tally, fragment, ih]
    cases r.fragment with
    | error reason => rfl
    | ok f => exact congrArg Except.ok (Tally.extend_ofFragment f tokens)
  | bareBranch kind => rfl
  | ofRoot forest root =>
    rw [tally, fragment]
    cases forest.node root with
    | error reason => rfl
    | ok n => exact congrArg Except.ok (Tally.ofRoot_eq n)
  | front r position ih =>
    rw [tally, fragment, ih]
    cases r.fragment with
    | error reason => rfl
    | ok f =>
      simp only [Except.map, bind, Except.bind, Tally.cutAt_ofFragment]
      cases f.cutAt position <;> rfl
  | back r position ih =>
    rw [tally, fragment, ih]
    cases r.fragment with
    | error reason => rfl
    | ok f =>
      simp only [Except.map, bind, Except.bind, Tally.cutAt_ofFragment]
      cases f.cutAt position <;> rfl
  | slice r e ih =>
    rw [tally, fragment, ih]
    cases r.fragment with
    | error reason => rfl
    | ok f => exact Tally.slice_ofFragment f e

theorem canonical_tally {r : Recipe} {w : Tally} (h : r.tally = .ok w) : w.Canonical := by
  rw [tally_eq] at h
  cases hf : r.fragment with
  | error reason =>
    rw [hf] at h
    cases h
  | ok f =>
    rw [hf] at h
    obtain rfl := Except.ok.inj h
    exact Tally.canonical_ofFragment f

end Recipe

/-- Rows of tokens make one fragment just if they have the same places. -/
theorem Fragment.ofTokens_eq_iff (a b : List Token) :
    Fragment.ofTokens a = Fragment.ofTokens b ↔ Token.placesAmong a = Token.placesAmong b := by
  constructor
  · intro h
    rw [← Fragment.places_ofTokens, h, Fragment.places_ofTokens]
  · intro h
    exact Fragment.places_injective (by rw [Fragment.places_ofTokens, h, Fragment.places_ofTokens])

/-- **A fragment is the one form of its content.** Whichever way it comes about, a tally kept in
step has its tokens and its size, without empty texts and without two texts side by side. Making
fragments takes rows side by side to fragments side by side, the second put behind the first token
by token, and leaves a fragment's own tokens alone. Two rows make the same fragment just if they
have the same boundaries and code units, however their text is cut up. -/
theorem fragments_canonical :
    (∀ r : Recipe, r.tally = r.fragment.map Tally.ofFragment ∧
      ∀ w, r.tally = .ok w → w.Canonical) ∧
    (∀ xs ys : List Token,
      Fragment.ofTokens (xs ++ ys) =
        (Fragment.ofTokens ys).tokens.foldl Fragment.push (.ofTokens xs) ∧
      Fragment.ofTokens (xs ++ ys) = Fragment.ofTokens xs ++ Fragment.ofTokens ys) ∧
    (∀ f : Fragment, Fragment.ofTokens f.tokens = f) ∧
    ∀ xs ys : List Token, Fragment.ofTokens xs = Fragment.ofTokens ys ↔
      Token.placesAmong xs = Token.placesAmong ys := by
  refine ⟨fun r => ⟨r.tally_eq, fun w => Recipe.canonical_tally⟩, fun xs ys => ?_,
    Fragment.ofTokens_tokens, Fragment.ofTokens_eq_iff⟩
  have happend := Fragment.ofTokens_append xs ys
  refine ⟨?_, happend⟩
  rw [happend, Fragment.foldl_push]
  rfl

/-- A text put together from three, and the first half of a pair in it. -/
def halved : Recipe :=
  .slice (.push (.ofTokens [.opening "p", .text "a", .text "🦀"]) (.text "b")) ⟨1, 3⟩

/-- The cut leaves one text, and texts cut up otherwise make the same fragment. -/
theorem fragments_canonical_halved :
    halved.tally = .ok ⟨[.text "a\uFFFD"], 2⟩ ∧ Tally.Canonical ⟨[.text "a\uFFFD"], 2⟩ ∧
      Fragment.ofTokens [.text "a", .text "", .text "🦀"] = Fragment.ofTokens [.text "a🦀"] := by
  obtain ⟨hrecipe, -, -, hplaces⟩ := fragments_canonical
  have htally : halved.tally = .ok ⟨[.text "a\uFFFD"], 2⟩ := by rfl
  exact ⟨htally, (hrecipe halved).2 _ htally, (hplaces _ _).mpr (by decide)⟩

end TreePatch
