import TreePatch.Json.Codec
import TreePatch.Proofs.Canonical
import TreePatch.Proofs.JsonText

/-! The JSON forms of the types. Whatever is written is read back as it was, value by value and as
text, and only numbers too great for their field are refused (`Lossless`). A fragment is read from
any list of tokens, alone or inside a step, and comes out as if it had been put together from them
one by one, so what is read is in normal form whatever was written (`serialized_faithful`). -/

namespace TreePatch

open Json

namespace Json

variable {α : Type} {encode : α → Json} {decode : Json → Option α} {fits : α → Prop}

theorem str?_eq_some_iff {j : Json} {s : String} : j.str? = some s ↔ j = .str s := by
  cases j <;> simp [str?]

theorem arr?_eq_some_iff {j : Json} {js : List Json} : j.arr? = some js ↔ j = .arr js := by
  cases j <;> simp [arr?]

theorem nat?_eq_some_iff {j : Json} {n : Nat} : j.nat? = some n ↔ j = .nat n := by
  cases j <;> simp [nat?]

theorem natBelow?_eq_some_iff {limit n : Nat} {j : Json} :
    natBelow? limit j = some n ↔ j = .nat n ∧ n < limit := by
  rw [natBelow?, Option.filter_eq_some_iff, nat?_eq_some_iff, decide_eq_true_iff]

theorem variant?_eq_some_iff {j content : Json} {name : String} :
    j.variant? = some (name, content) ↔ j = .obj [(name, content)] := by
  unfold variant?
  split <;> simp_all

theorem mapM_eq_some_iff {js : List Json} (h : ∀ j a, decode j = some a ↔ j = encode a)
    {as : List α} : js.mapM decode = some as ↔ js = as.map encode := by
  induction js generalizing as with
  | nil => cases as <;> simp
  | cons j js ih =>
    rw [List.mapM_cons]
    cases as with
    | nil => simp [Option.bind_eq_some_iff]
    | cons a as => simp [Option.bind_eq_some_iff, h, ih]

/-- If an item is read just from what is written of it, so is a list. -/
theorem list?_eq_some_iff (h : ∀ j a, decode j = some a ↔ j = encode a) {j : Json} {as : List α} :
    list? decode j = some as ↔ j = list encode as := by
  simp only [list?, Option.bind_eq_bind, Option.bind_eq_some_iff, arr?_eq_some_iff,
    mapM_eq_some_iff h, list]
  constructor
  · rintro ⟨_, rfl, rfl⟩
    rfl
  · rintro rfl
    exact ⟨_, rfl, rfl⟩

/-- A list is read back if each item is. -/
theorem list?_list (h : ∀ a, decode (encode a) = some a ↔ fits a) (as : List α) :
    list? decode (list encode as) = some as ↔ ∀ a ∈ as, fits a := by
  show (as.map encode).mapM decode = some as ↔ _
  induction as with
  | nil => simp
  | cons a as ih =>
    rw [List.map_cons, List.mapM_cons, List.forall_mem_cons, ← h, ← ih]
    simp [Option.bind_eq_some_iff]

theorem proper_list (h : ∀ a, (encode a).Proper) (as : List α) : (list encode as).Proper :=
  (properItems_iff _).mpr fun j hj => by
    obtain ⟨a, -, rfl⟩ := List.mem_map.mp hj
    exact h a

/-- What is written is read back, as a value just if it fits, and as text always. -/
structure Lossless (encode : α → Json) (decode : Json → Option α) (fits : α → Prop) : Prop where
  reads (a : α) : decode (encode a) = some a ↔ fits a
  prints (a : α) : parse? (encode a).render = some (encode a)

end Json

/-! ## Tokens and fragments -/

namespace Token

theorem ofJson?_eq_some_iff (j : Json) (t : Token) : ofJson? j = some t ↔ j = t.toJson := by
  constructor
  · intro h
    simp only [ofJson?, Option.bind_eq_bind, Option.bind_eq_some_iff] at h
    obtain ⟨⟨name, content⟩, hv, h⟩ := h
    rw [variant?_eq_some_iff] at hv
    split at h
    case h_4 => cases h
    all_goals
      rename_i he
      obtain ⟨rfl, rfl⟩ := Prod.mk.inj he
      rw [Option.map_eq_map, Option.map_eq_some_iff] at h
      obtain ⟨text, htext, rfl⟩ := h
      rw [hv, str?_eq_some_iff.mp htext]
      rfl
  · rintro rfl
    cases t <;> rfl

theorem proper_toJson (t : Token) : t.toJson.Proper := by
  cases t <;> simp [toJson, Proper, ProperFields]

end Token

namespace Fragment

/-- The value is a list of tokens, and the fragment is put together from them one by one. -/
def Lists (j : Json) (f : Fragment) : Prop :=
  ∃ listed, j = Json.list Token.toJson listed ∧ Tally.ofFragment f = Tally.extend {} listed

theorem ofFragment_inj {f g : Fragment} (h : Tally.ofFragment f = Tally.ofFragment g) : f = g :=
  ext (congrArg Tally.tokens h)

theorem ofJson?_eq_some_iff (j : Json) (f : Fragment) : ofJson? j = some f ↔ Lists j f := by
  simp only [ofJson?, Option.map_eq_map, Option.map_eq_some_iff,
    list?_eq_some_iff Token.ofJson?_eq_some_iff, Lists, Tally.extend_ofTokens]
  refine exists_congr fun listed => and_congr_right fun _ => ⟨?_, fun h => (ofFragment_inj h).symm⟩
  rintro rfl
  rfl

theorem lists_toJson (f : Fragment) : Lists f.toJson f :=
  ⟨f.tokens, rfl, by rw [Tally.extend_ofTokens, ofTokens_tokens]⟩

theorem ofJson?_toJson (f : Fragment) : ofJson? f.toJson = some f :=
  (ofJson?_eq_some_iff _ _).mpr f.lists_toJson

theorem proper_toJson (f : Fragment) : f.toJson.Proper := proper_list Token.proper_toJson _

end Fragment

/-! ## Steps -/

namespace Step

/-- Every position is one that the field for it can hold. -/
def Fits : Step → Prop
  | delete start stop _ => start < 18446744073709551616 ∧ stop < 18446744073709551616
  | insert position _ => position < 18446744073709551616

def contents : Step → List Fragment
  | delete _ _ replacement => replacement.toList
  | insert _ content => [content]

/-- A field that is missing or null gives no replacement. -/
inductive Replaces : Option Json → Option Fragment → Prop
  | missing : Replaces none none
  | null : Replaces (some .null) none
  | listed {j : Json} {f : Fragment} : f.Lists j → Replaces (some j) (some f)

/-- A step is read from the fields of its variant, whatever else stands beside them. -/
inductive Reads : Json → Step → Prop
  | delete {fields : List (String × Json)} {start stop : Nat} {replacement : Option Fragment} :
      fields.lookup "from" = some (.nat start) → fields.lookup "to" = some (.nat stop) →
      Replaces (fields.lookup "replacement") replacement →
      (Step.delete start stop replacement).Fits →
      Reads (.obj [("Delete", .obj fields)]) (.delete start stop replacement)
  | insert {fields : List (String × Json)} {position : Nat} {j : Json} {content : Fragment} :
      fields.lookup "at" = some (.nat position) → fields.lookup "content" = some j →
      content.Lists j → (Step.insert position content).Fits →
      Reads (.obj [("Insert", .obj fields)]) (.insert position content)

theorem replacement?_eq_some_iff (field : Option Json) (replacement : Option Fragment) :
    replacement? field = some replacement ↔ Replaces field replacement := by
  constructor
  · intro h
    unfold replacement? at h
    split at h
    · cases h
      exact .missing
    · cases h
      exact .null
    · rw [Option.map_eq_map, Option.map_eq_some_iff] at h
      obtain ⟨f, hf, rfl⟩ := h
      exact .listed ((Fragment.ofJson?_eq_some_iff _ _).mp hf)
  · rintro (_ | _ | ⟨⟨listed, rfl, hf⟩⟩)
    · rfl
    · rfl
    · show some <$> Fragment.ofJson? _ = _
      rw [(Fragment.ofJson?_eq_some_iff _ _).mpr ⟨listed, rfl, hf⟩]
      rfl

/-- **What a step is read from.** -/
theorem ofJson?_eq_some_iff (j : Json) (s : Step) : ofJson? j = some s ↔ Reads j s := by
  constructor
  · intro h
    simp only [ofJson?, Option.bind_eq_bind, Option.bind_eq_some_iff] at h
    obtain ⟨⟨name, content⟩, hv, h⟩ := h
    rw [variant?_eq_some_iff] at hv
    subst hv
    split at h
    · rename_i fields he
      obtain ⟨rfl, rfl⟩ := Prod.mk.inj he
      simp only [Option.bind_eq_some_iff, size?, natBelow?_eq_some_iff,
        replacement?_eq_some_iff, Option.pure_def, Option.some.injEq] at h
      obtain ⟨_, hfrom, start, ⟨rfl, hstart⟩, _, hto, stop, ⟨rfl, hstop⟩, r, hr, rfl⟩ := h
      exact .delete hfrom hto hr ⟨hstart, hstop⟩
    · rename_i fields he
      obtain ⟨rfl, rfl⟩ := Prod.mk.inj he
      simp only [Option.bind_eq_some_iff, size?, natBelow?_eq_some_iff,
        Fragment.ofJson?_eq_some_iff, Option.pure_def, Option.some.injEq] at h
      obtain ⟨_, hat, position, ⟨rfl, hposition⟩, j, hcontent, content, hlists, rfl⟩ := h
      exact .insert hat hcontent hlists hposition
    · cases h
  · rintro (⟨hfrom, hto, hr, hstart, hstop⟩ | ⟨hat, hcontent, hlists, hposition⟩)
    · simp only [ofJson?, variant?, Option.bind_eq_bind, Option.bind_some, hfrom, hto, size?,
        natBelow?_eq_some_iff.mpr ⟨rfl, hstart⟩, natBelow?_eq_some_iff.mpr ⟨rfl, hstop⟩,
        (replacement?_eq_some_iff _ _).mpr hr, Option.pure_def]
    · simp only [ofJson?, variant?, Option.bind_eq_bind, Option.bind_some, hat, hcontent, size?,
        natBelow?_eq_some_iff.mpr ⟨rfl, hposition⟩,
        (Fragment.ofJson?_eq_some_iff _ _).mpr hlists, Option.pure_def]

theorem replaces_toJson (replacement : Option Fragment) :
    Replaces (some (orNull Fragment.toJson replacement)) replacement := by
  cases replacement with
  | none => exact .null
  | some f => exact .listed f.lists_toJson

theorem Reads.fits {j : Json} {s : Step} (h : Reads j s) : s.Fits := by
  cases h with
  | delete _ _ _ hfits => exact hfits
  | insert _ _ _ hfits => exact hfits

theorem reads_toJson_iff (s : Step) : Reads s.toJson s ↔ s.Fits := by
  refine ⟨Reads.fits, fun h => ?_⟩
  cases s with
  | delete start stop replacement =>
    exact .delete rfl rfl (replaces_toJson replacement) h
  | insert position content => exact .insert rfl rfl content.lists_toJson h

theorem proper_toJson (s : Step) : s.toJson.Proper := by
  cases s with
  | delete start stop replacement =>
    have hr : (orNull Fragment.toJson replacement).Proper := by
      cases replacement with
      | none => trivial
      | some f => exact f.proper_toJson
    simp [toJson, Proper, ProperFields, hr]
  | insert position content =>
    simp [toJson, Proper, ProperFields, content.proper_toJson]

end Step

/-! ## Records -/

def Removal.Fits (r : Removal) : Prop :=
  r.extent.start < 18446744073709551616 ∧ r.extent.stop < 18446744073709551616

def Handle.Fits (h : Handle) : Prop := h.arena < 4294967296 ∧ h.index < 18446744073709551616

def Layer.Fits (n : Layer) : Prop := ∀ h ∈ n.children, h.Fits

def Stamp.Fits (s : Stamp) : Prop :=
  s.born < 4294967296 ∧ s.childBorn < 4294967296 ∧ s.claimed < 4294967296 ∧ s.oldest < 4294967296

theorem Removal.ofJson?_toJson (r : Removal) : ofJson? r.toJson = some r ↔ r.Fits := by
  obtain ⟨⟨start, stop⟩, kind⟩ := r
  simp [ofJson?, toJson, record?, List.lookup_cons, size?, Option.bind_eq_some_iff,
    natBelow?_eq_some_iff, str?_eq_some_iff, Fits]

theorem Handle.ofJson?_toJson (h : Handle) : ofJson? h.toJson = some h ↔ h.Fits := by
  obtain ⟨arena, index⟩ := h
  simp [ofJson?, toJson, record?, List.lookup_cons, size?, count?, Option.bind_eq_some_iff,
    natBelow?_eq_some_iff, Fits]

theorem Layer.ofJson?_toJson (n : Layer) : ofJson? n.toJson = some n ↔ n.Fits := by
  cases n with
  | leaf text => exact iff_of_true rfl (List.forall_mem_nil _)
  | branch kind children =>
    rw [Fits, Layer.children, ← list?_list Handle.ofJson?_toJson]
    simp [ofJson?, toJson, variant?, List.lookup_cons, Option.bind_eq_some_iff, str?_eq_some_iff]

theorem Stamp.ofJson?_toJson (s : Stamp) : ofJson? s.toJson = some s ↔ s.Fits := by
  obtain ⟨born, childBorn, claimed, oldest⟩ := s
  simp [ofJson?, toJson, record?, List.lookup_cons, count?, Option.bind_eq_some_iff,
    natBelow?_eq_some_iff, Fits]

theorem Layer.proper_toJson (n : Layer) : n.toJson.Proper := by
  cases n with
  | leaf text => simp [toJson, Proper, ProperFields]
  | branch kind children =>
    have hc : (Json.list Handle.toJson children).Proper :=
      proper_list (fun h => by simp [Handle.toJson, Proper, ProperFields]) children
    simp [toJson, Proper, ProperFields, hc]

/-! ## All types -/

/-- What is read is in normal form, and to write and read it once more changes nothing. -/
theorem Step.Reads.again {j : Json} {s : Step} (h : s.Reads j) :
    (∀ f ∈ s.contents, (Tally.ofFragment f).Canonical) ∧ ofJson? s.toJson = some s :=
  ⟨fun f _ => Tally.canonical_ofFragment f,
    (ofJson?_eq_some_iff _ _).mpr ((reads_toJson_iff s).mpr h.fits)⟩

/-- **Nothing is lost in the serialized form, and it cannot break the normal form.** -/
theorem serialized_faithful :
    (Lossless Token.toJson Token.ofJson? (fun _ => True) ∧
      Lossless Fragment.toJson Fragment.ofJson? (fun _ => True) ∧
      Lossless Step.toJson Step.ofJson? Step.Fits ∧
      Lossless Removal.toJson Removal.ofJson? Removal.Fits ∧
      Lossless Handle.toJson Handle.ofJson? Handle.Fits ∧
      Lossless Layer.toJson Layer.ofJson? Layer.Fits ∧
      Lossless Stamp.toJson Stamp.ofJson? Stamp.Fits ∧
      Lossless Settings.toJson Settings.ofJson? (fun _ => True)) ∧
    (∀ start stop, (Step.delete start stop none).toJson ≠
      (Step.delete start stop (some .empty)).toJson) ∧
    (∀ j f, Fragment.ofJson? j = some f ↔ Fragment.Lists j f) ∧
    (∀ j s, Step.ofJson? j = some s ↔ Step.Reads j s) ∧
    (∀ j f, Fragment.ofJson? j = some f →
      (Tally.ofFragment f).Canonical ∧ Fragment.ofJson? f.toJson = some f) ∧
    ∀ j s, Step.ofJson? j = some s →
      (∀ f ∈ s.contents, (Tally.ofFragment f).Canonical) ∧ Step.ofJson? s.toJson = some s := by
  refine ⟨⟨?_, ?_, ?_, ?_, ?_, ?_, ?_, ?_⟩, fun start stop h => ?_, Fragment.ofJson?_eq_some_iff,
    Step.ofJson?_eq_some_iff,
    fun j f _ => ⟨Tally.canonical_ofFragment f, f.ofJson?_toJson⟩,
    fun j s h => ((Step.ofJson?_eq_some_iff j s).mp h).again⟩
  · exact ⟨fun t => iff_of_true ((Token.ofJson?_eq_some_iff _ t).mpr rfl) trivial,
      fun t => parse?_render t.proper_toJson⟩
  · exact ⟨fun f => iff_of_true f.ofJson?_toJson trivial, fun f => parse?_render f.proper_toJson⟩
  · exact ⟨fun s => (Step.ofJson?_eq_some_iff _ s).trans s.reads_toJson_iff,
      fun s => parse?_render s.proper_toJson⟩
  · exact ⟨Removal.ofJson?_toJson,
      fun r => parse?_render (by simp [Removal.toJson, Proper, ProperFields])⟩
  · exact ⟨Handle.ofJson?_toJson,
      fun h => parse?_render (by simp [Handle.toJson, Proper, ProperFields])⟩
  · exact ⟨Layer.ofJson?_toJson, fun n => parse?_render n.proper_toJson⟩
  · exact ⟨Stamp.ofJson?_toJson,
      fun s => parse?_render (by simp [Stamp.toJson, Proper, ProperFields])⟩
  · exact ⟨fun s => iff_of_true rfl trivial,
      fun s => parse?_render (by simp [Settings.toJson, Proper, ProperFields])⟩
  · simp [Step.toJson, orNull, Fragment.toJson, Json.list] at h

/-- A step as it may come from elsewhere: a field too many, empty text, and text beside text. -/
def looseStep : Json :=
  .obj [("Delete", .obj [("by", .null), ("to", .nat 5), ("from", .nat 2),
    ("replacement", .arr [.obj [("Text", .str "a")], .obj [("Text", .str "")],
      .obj [("Text", .str "🦀")], .obj [("Open", .str "hr")], .obj [("Close", .str "hr")]])])]

theorem serialized_faithful_loose : ∃ s, Step.ofJson? looseStep = some s ∧
    s = .delete 2 5 (some (.ofTokens [.text "a🦀", .opening "hr", .closing "hr"])) ∧
    (∀ f ∈ s.contents, (Tally.ofFragment f).Canonical ∧ f.size = 5) ∧
    Step.ofJson? s.toJson = some s := by
  obtain ⟨-, -, -, -, -, hagain⟩ := serialized_faithful
  have hread : Step.ofJson? looseStep = some _ := rfl
  obtain ⟨hcanonical, hsame⟩ := hagain _ _ hread
  refine ⟨_, hread, by decide, fun f hf => ⟨hcanonical f hf, ?_⟩, hsame⟩
  obtain rfl := List.mem_singleton.mp hf
  decide

end TreePatch
