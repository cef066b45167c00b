import MemoryPlane.Services.VaultFrontmatter

/-!
# The round trip of the frontmatter

Which mappings the reader finds again in the frontmatter that was written for them. Quotes and
backslashes are escaped and found again; a text with a line boundary is cut at it, and a dictionary
with members is never read back as one.
-/

namespace MemoryPlane

/-- The value of a scalar that was read; infinities and NaN are no JSON values. -/
def FrontmatterScalar.toJson : FrontmatterScalar → Option Json
  | .none => some .null
  | .bool b => some (.bool b)
  | .int n => some (.int n)
  | .float (.finite q) => some (.float q)
  | .float _ => Option.none
  | .str s => some (.str (String.ofList s))
  | .emptyList => some (.arr [])
  | .emptyDict => some (.obj [])

/-- The value of a member that was read. -/
def FrontmatterValue.toJson : FrontmatterValue → Option Json
  | .scalar v => v.toJson
  | .list vs => (vs.mapM FrontmatterScalar.toJson).map Json.arr

/-- The keys of exported notes: those of memories, of observations and of the index. -/
def exporterKeys : List String :=
  ["id", "type", "status", "layer", "scope", "kind", "tenant_id", "workspace_id", "agent_id",
    "thread_id", "labels", "importance", "salience", "confidence", "revision", "supersedes_id",
    "superseded_by", "observed_at", "valid_from", "valid_to", "created_at", "source_kind",
    "origin_uri", "object_key", "checksum_sha256", "extraction_version", "metadata", "stale",
    "evidence_ids"]

/-- A value that is no float and no list but of texts. -/
def Json.Exportable : Json → Prop
  | .float _ => False
  | .arr xs => ∃ texts : List String, xs = texts.map .str
  | _ => True

/-- A mapping from keys of the exporter to values that it passes. -/
structure NoteMapping where
  members : JsonObject
  distinct : (members.map Prod.fst).Nodup
  keys : ∀ m ∈ members, m.1 ∈ exporterKeys
  values : ∀ m ∈ members, m.2.Exportable

/-- A value without line boundaries in its texts and, if it is a dictionary, without members. -/
def Json.Restorable : Json → Prop
  | .str s => IsLine s.toList
  | .arr xs => ∀ s, .str s ∈ xs → IsLine s.toList
  | .obj members => members = []
  | _ => True

namespace VaultExporter

open Text VaultNotes

variable (rt : NoteRuntime) (pr : NotePrinting)

/-- Reading the frontmatter written for a mapping gives every key its value and no other key one. -/
def Restores (values : JsonObject) : Prop :=
  ∃ note, parseMarkdownNote rt (frontmatter pr values) = .ok note ∧
    ∀ key : String, (note.frontmatter.get key).map FrontmatterValue.toJson =
      (values.get key).map some

variable {rt pr}

theorem isKey_of_mem {key : String} (h : key ∈ exporterKeys) : IsKey key := by
  have hall : exporterKeys.all fun key => decide (IsKey key) := by decide
  exact of_decide_eq_true (List.all_eq_true.mp hall key h)

section Reading

/-- A scalar that was read holds no line boundary. -/
def Unbroken (v : FrontmatterScalar) : Prop := ∀ s, v = .str s → IsLine s

/-- Scalars of a line are without boundaries. -/
theorem unbroken_parseYamlScalar {s : List Char} (h : IsLine s) :
    Unbroken (parseYamlScalar rt s) := by
  intro t ht
  unfold parseYamlScalar at ht
  split_ifs at ht
  · cases ht
    intro c hc
    obtain hc | hc := mem_replaceFrom hc
    · obtain hc | hc := mem_replaceFrom hc
      · exact h c (List.mem_of_mem_tail ((List.dropLast_sublist _).subset hc))
      · obtain rfl := List.mem_singleton.mp hc
        decide
    · obtain rfl := List.mem_singleton.mp hc
      decide
  · split at ht
    · cases ht
    · split at ht
      · cases ht
      · cases ht
        exact h

/-- A value that was read holds no line boundary. -/
def UnbrokenValue : FrontmatterValue → Prop
  | .scalar v => Unbroken v
  | .list vs => ∀ v ∈ vs, Unbroken v

theorem unbroken_listMember {listing : Option (List Char × List FrontmatterScalar)}
    (h : ∀ key values, listing = some (key, values) → ∀ v ∈ values, Unbroken v) :
    ∀ e ∈ listMember listing, UnbrokenValue e.2 := by
  intro e he
  cases listing with
  | none => cases he
  | some x =>
    obtain rfl := List.mem_singleton.mp he
    exact h x.1 x.2 rfl

theorem unbroken_frontmatterLine {line key : List Char} {value : Option FrontmatterScalar}
    (hline : IsLine line) (h : frontmatterLine rt line = .ok (some (key, value))) :
    ∀ v, value = some v → Unbroken v := by
  intro v hv
  rw [frontmatterLine] at h
  split at h
  · cases h
  split at h
  · cases h
  · have hpair := Option.some.inj (Except.ok.inj h)
    rw [Prod.mk.injEq, hv] at hpair
    have hvalue := hpair.2
    split at hvalue
    · cases hvalue
    · cases hvalue
      apply unbroken_parseYamlScalar
      intro c hc
      have hmem := List.mem_of_mem_tail ((stripWith_isInfix isSpace _).subset hc)
      exact hline c ((List.dropWhile_sublist _).subset hmem)

/-- What is read of lines holds no line boundary. -/
theorem unbroken_parseFrontmatterFrom {lines : List (List Char)}
    {listing : Option (List Char × List FrontmatterScalar)} {f : Frontmatter}
    (h : parseFrontmatterFrom rt listing lines = .ok f) (hlines : ∀ l ∈ lines, IsLine l)
    (hlisting : ∀ key values, listing = some (key, values) → ∀ v ∈ values, Unbroken v) :
    ∀ e ∈ f, UnbrokenValue e.2 := by
  induction lines generalizing listing f with
  | nil =>
    rw [parseFrontmatterFrom] at h
    cases h
    exact unbroken_listMember hlisting
  | cons line rest ih =>
    have hline := hlines line (List.mem_cons_self ..)
    have hrest := fun l hl => hlines l (List.mem_cons_of_mem _ hl)
    have hnone : ∀ key values, (none : Option (List Char × List FrontmatterScalar)) =
        some (key, values) → ∀ v ∈ values, Unbroken v := by
      intro _ _ hnone
      cases hnone
    have hsplit : ∀ {g : Frontmatter}, (∀ e ∈ g, UnbrokenValue e.2) →
        ∀ e ∈ listMember listing ++ g, UnbrokenValue e.2 := by
      intro g hg e he
      obtain he | he := List.mem_append.mp he
      · exact unbroken_listMember hlisting e he
      · exact hg e he
    rw [parseFrontmatterFrom.eq_def] at h
    dsimp only at h
    split at h
    · -- a list item
      rename_i key values _
      refine ih h hrest ?_
      intro key' values' he v hv
      cases he
      obtain hv | hv := List.mem_append.mp hv
      · exact hlisting key values rfl v hv
      · obtain rfl := List.mem_singleton.mp hv
        apply unbroken_parseYamlScalar
        intro c hc
        exact hline c (List.mem_of_mem_drop ((stripWith_isInfix isSpace _).subset hc))
    · cases hread : frontmatterLine rt line with
      | error e =>
        rw [hread] at h
        cases h
      | ok x =>
        rw [hread, Except.bind] at h
        rcases x with _ | ⟨key, _ | value⟩
        · obtain ⟨g, hg, rfl⟩ := Except.map_eq_ok.mp h
          exact hsplit (ih hg hrest hnone)
        · obtain ⟨g, hg, rfl⟩ := Except.map_eq_ok.mp h
          refine hsplit (ih hg hrest ?_)
          intro key' values' he v hv
          cases he
          cases hv
        · obtain ⟨g, hg, rfl⟩ := Except.map_eq_ok.mp h
          apply hsplit
          intro e he
          obtain rfl | he := List.mem_cons.mp he
          · exact unbroken_frontmatterLine hline hread value rfl
          · exact ih hg hrest hnone e he

theorem unbroken_get {f : Frontmatter} (h : ∀ e ∈ f, UnbrokenValue e.2) {key : String}
    {v : FrontmatterValue} (hv : f.get key = some v) : UnbrokenValue v := by
  obtain ⟨e, he, rfl⟩ := Option.map_eq_some_iff.mp hv
  exact h e (List.mem_reverse.mp (List.mem_of_find?_eq_some he))

/-- The frontmatter of a note that was read holds no line boundary. -/
theorem unbroken_parseMarkdownNote {s : List Char} {note : ParsedMarkdownNote}
    (h : parseMarkdownNote rt s = .ok note) : ∀ e ∈ note.frontmatter, UnbrokenValue e.2 := by
  rw [parseMarkdownNote] at h
  split at h
  · cases h
  · rename_i first rest hlines
    split at h
    · cases h
    split at h
    · cases h
    · obtain ⟨f, hf, rfl⟩ := Except.map_eq_ok.mp h
      refine unbroken_parseFrontmatterFrom hf (fun l hl => ?_) (by rintro _ _ ⟨⟩)
      have hmem : l ∈ splitlines s := by
        rw [hlines]
        exact List.mem_cons_of_mem _ ((List.takeWhile_sublist _).subset hl)
      exact unbroken_of_mem_splitlines hmem

theorem exists_of_mem_mapM {α β : Type} {f : α → Option β} {xs : List α} {ys : List β} {y : β}
    (h : xs.mapM f = some ys) (hy : y ∈ ys) : ∃ x ∈ xs, f x = some y := by
  induction xs generalizing ys with
  | nil =>
    cases h
    cases hy
  | cons x xs ih =>
    rw [List.mapM_cons] at h
    obtain ⟨z, hz, h⟩ := Option.bind_eq_some_iff.mp h
    obtain ⟨zs, hzs, h⟩ := Option.bind_eq_some_iff.mp h
    cases h
    obtain rfl | hy := List.mem_cons.mp hy
    · exact ⟨x, List.mem_cons_self .., hz⟩
    · obtain ⟨w, hw, hwy⟩ := ih hzs hy
      exact ⟨w, List.mem_cons_of_mem _ hw, hwy⟩

/-- Only restorable values are read. -/
theorem restorable_of_toJson {fv : FrontmatterValue} {v : Json} (hfv : UnbrokenValue fv)
    (h : fv.toJson = some v) : v.Restorable := by
  have hscalar : ∀ (x : FrontmatterScalar) (w : Json), Unbroken x → x.toJson = some w →
      w.Restorable := by
    intro x w hx hw
    cases x with
    | float y =>
      cases y with
      | finite q => cases hw; trivial
      | infinite b => cases hw
      | nan => cases hw
    | str t =>
      cases hw
      rw [Json.Restorable, String.toList_ofList]
      exact hx t rfl
    | emptyList =>
      cases hw
      intro t ht
      cases ht
    | emptyDict => cases hw; rfl
    | none => cases hw; trivial
    | bool b => cases hw; trivial
    | int n => cases hw; trivial
  cases fv with
  | scalar x => exact hscalar x v hfv h
  | list vs =>
    obtain ⟨xs, hxs, rfl⟩ := Option.map_eq_some_iff.mp h
    intro t ht
    obtain ⟨x, hx, hxt⟩ := exists_of_mem_mapM hxs ht
    exact hscalar x _ (hfv x hx) hxt

end Reading

section Writing

theorem mapM_str (texts : List String) :
    (texts.map fun s => FrontmatterScalar.str s.toList).mapM FrontmatterScalar.toJson =
      some (texts.map Json.str) := by
  induction texts with
  | nil => rfl
  | cons s texts ih =>
    rw [List.map_cons, List.mapM_cons, ih, FrontmatterScalar.toJson, String.ofList_toList]
    rfl

theorem readValue_flat {v : Json} (h : v.isFlat = true) : readValue rt pr v = flatValue rt pr v :=
  if_pos h

/-- What is read of a list of texts is the list. -/
theorem toJson_readValue_texts {texts : List String} (h : ∀ s ∈ texts, IsLine s.toList) :
    (readValue rt pr (.arr (texts.map Json.str))).toJson = some (.arr (texts.map Json.str)) := by
  by_cases hne : texts = []
  · subst hne
    rfl
  · have hflat : (Json.arr (texts.map Json.str)).isFlat = false := by
      simpa [Json.isFlat] using hne
    have hitems : (texts.map fun s => "  - ".toList ++ quoted s.toList).map (fun l =>
        parseYamlScalar rt (stripWith isSpace (l.drop 4))) =
          texts.map fun s => FrontmatterScalar.str s.toList := by
      rw [List.map_map]
      apply List.map_congr_left
      intro s _
      have hdrop : ("  - ".toList ++ quoted s.toList).drop 4 = quoted s.toList := rfl
      rw [Function.comp_apply, hdrop, stripWith_quoted, parseYamlScalar_quoted]
    rw [readValue, if_neg (by rw [hflat]; decide), yamlValue, if_neg (by simpa using hne),
      List.tail_cons, splitlines_items pr hne h, hitems, FrontmatterValue.toJson, mapM_str]
    rfl

/-- What is read of a restorable value is the value. -/
theorem toJson_readValue {v : Json} (hv : v.Exportable) (hr : v.Restorable) :
    (readValue rt pr v).toJson = some v := by
  cases v with
  | null => rfl
  | bool b => cases b <;> rfl
  | int n =>
    rw [readValue_flat rfl, flatValue_int]
    rfl
  | float q => cases hv
  | str s =>
    rw [readValue_flat rfl, flatValue_str, FrontmatterValue.toJson, FrontmatterScalar.toJson,
      String.ofList_toList]
  | arr xs =>
    obtain ⟨texts, rfl⟩ := hv
    exact toJson_readValue_texts fun s hs => hr s (List.mem_map_of_mem hs)
  | obj members =>
    obtain rfl : members = [] := hr
    rfl

/-- A restorable value is written on lines of its own. -/
theorem wellWritten_of_restorable {key : String} {v : Json} (hkey : IsKey key) (hv : v.Exportable)
    (hr : v.Restorable) : WellWritten (key, v) ∧ Listed pr v := by
  cases v with
  | null => exact wellWritten_flat hkey (fun _ _ => rfl) rfl
  | bool b => exact wellWritten_flat hkey (fun _ _ => rfl) rfl
  | int n => exact wellWritten_flat hkey (fun _ _ => rfl) rfl
  | float q => cases hv
  | str s => exact wellWritten_flat hkey (unbroken_str hr) rfl
  | arr xs =>
    obtain ⟨texts, rfl⟩ := hv
    have hlines : ∀ s ∈ texts, IsLine s.toList := fun s hs => hr s (List.mem_map_of_mem hs)
    exact ⟨⟨hkey, unbroken_texts hlines⟩, listed_texts texts hlines⟩
  | obj members =>
    obtain rfl : members = [] := hr
    exact wellWritten_flat hkey (fun _ _ => rfl) rfl

theorem get_readMembers (ms : JsonObject) (key : String) :
    (readMembers rt pr ms).get key = (ms.get key).map (readValue rt pr) := by
  unfold Frontmatter.get JsonObject.get
  rw [readMembers, ← List.map_reverse, List.find?_map, Option.map_map, Option.map_map]
  have hname : ((fun m : List Char × FrontmatterValue => decide (m.1 = key.toList)) ∘
      fun m : String × Json => (m.1.toList, readValue rt pr m.2)) =
        fun m : String × Json => decide (m.1 = key) := by
    ext m
    simp [String.toList_inj]
  rw [hname]
  rfl

/-- A mapping gives a key the value that it has under it. -/
theorem get_of_mem {ms : JsonObject} (hms : (ms.map Prod.fst).Nodup) {m : String × Json}
    (hm : m ∈ ms) : ms.get m.1 = some m.2 := by
  have hfound : ∃ e, ms.reverse.find? (fun e => decide (e.1 = m.1)) = some e := by
    rw [← Option.isSome_iff_exists, List.find?_isSome]
    exact ⟨m, List.mem_reverse.mpr hm, by simp⟩
  obtain ⟨e, he⟩ := hfound
  have hname : e.1 = m.1 := by simpa using List.find?_some he
  have hmem := List.mem_reverse.mp (List.mem_of_find?_eq_some he)
  obtain rfl : e = m := List.inj_on_of_nodup_map hms hmem hm hname
  rw [JsonObject.get, he]
  rfl

/-- The frontmatter of members on lines of their own is read. -/
theorem parseMarkdownNote_frontmatter {ms : JsonObject}
    (h : ∀ m ∈ ms, WellWritten m ∧ Listed pr m.2) :
    ∃ note, parseMarkdownNote rt (frontmatter pr ms) = .ok note ∧
      note.frontmatter = readMembers rt pr ms := by
  have hruled : frontmatter pr ms = joinLines ("---".toList ::
      ms.map fun m => m.1.toList ++ ':' :: ' ' :: yamlValue pr 0 m.2) ++ '\n' :: "---".toList := by
    rw [frontmatter, joinLines_append (List.cons_ne_nil _ _) (List.cons_ne_nil _ _),
      joinLines_singleton]
  have hlast : ∀ c, (frontmatter pr ms).getLast? = some c → isLineBreak c = false := by
    intro c hc
    rw [hruled, List.getLast?_append_of_ne_nil _ (List.cons_ne_nil _ _)] at hc
    cases hc
    decide
  have hne : frontmatter pr ms ≠ [] := by
    rw [hruled]
    simp
  have hlines : splitlines (frontmatter pr ms) =
      "---".toList :: (ms.flatMap (memberLines pr) ++ ["---".toList]) := by
    rw [← splitlines_feed hne hlast, splitlines_frontmatter fun m hm => (h m hm).1]
    rfl
  have hnone : ∀ l ∈ ms.flatMap (memberLines pr), decide (l ≠ "---".toList) = true := by
    intro l hl
    obtain ⟨m, hm, hl⟩ := List.mem_flatMap.mp hl
    rw [decide_eq_true_eq]
    rintro rfl
    exact ne_ruler (h m hm).1 hl
  have htake : (ms.flatMap (memberLines pr) ++ ["---".toList]).takeWhile
      (fun l => decide (l ≠ "---".toList)) = ms.flatMap (memberLines pr) := by
    rw [List.takeWhile_append_of_pos hnone]
    simp
  have hruler : stripWith isSpace "---".toList = "---".toList := by decide
  rw [parseMarkdownNote, hlines]
  dsimp only
  rw [if_neg (by rw [hruler]; decide), if_neg (by simp), htake, parseFrontmatter_eq rt h]
  exact ⟨_, rfl, rfl⟩

end Writing

/-- Only restorable values are found again. -/
theorem Restores.restorable {mapping : NoteMapping} (h : Restores rt pr mapping.members) :
    ∀ m ∈ mapping.members, m.2.Restorable := by
  obtain ⟨note, hnote, hsame⟩ := h
  intro m hm
  have hget := hsame m.1
  rw [get_of_mem mapping.distinct hm, Option.map_some, Option.map_eq_some_iff] at hget
  obtain ⟨v, hv, hvalue⟩ := hget
  exact restorable_of_toJson (unbroken_get (unbroken_parseMarkdownNote hnote) hv) hvalue

/-- A mapping is found again in its frontmatter exactly when all its values are restorable. -/
theorem frontmatter_restored_iff (rt : NoteRuntime) (pr : NotePrinting) (mapping : NoteMapping) :
    Restores rt pr mapping.members ↔ ∀ m ∈ mapping.members, m.2.Restorable := by
  constructor
  · exact Restores.restorable
  · intro hr
    have hwritten : ∀ m ∈ mapping.members, WellWritten m ∧ Listed pr m.2 := fun m hm =>
      wellWritten_of_restorable (isKey_of_mem (mapping.keys m hm)) (mapping.values m hm) (hr m hm)
    obtain ⟨note, hnote, hread⟩ : ∃ note, parseMarkdownNote rt (frontmatter pr mapping.members) =
        .ok note ∧ note.frontmatter = readMembers rt pr mapping.members :=
      parseMarkdownNote_frontmatter hwritten
    refine ⟨note, hnote, fun key => ?_⟩
    rw [hread, get_readMembers]
    cases hget : mapping.members.get key with
    | none => rfl
    | some v =>
      obtain ⟨m, hm, rfl⟩ := Option.map_eq_some_iff.mp hget
      have hmem := List.mem_reverse.mp (List.mem_of_find?_eq_some hm)
      rw [Option.map_some, Option.map_some, Option.map_some,
        toJson_readValue (mapping.values m hmem) (hr m hmem)]

/-- A mapping of a note with one member of metadata. -/
def taggedMapping : NoteMapping where
  members := [("type", .str "memory"), ("metadata", .obj [("k", .int 1)])]
  distinct := by decide
  keys := by
    intro m hm
    simp only [List.mem_cons, List.not_mem_nil, or_false] at hm
    obtain rfl | rfl := hm <;> decide
  values := by
    intro m hm
    simp only [List.mem_cons, List.not_mem_nil, or_false] at hm
    obtain rfl | rfl := hm <;> trivial

/-- Metadata with a member is not found again. -/
theorem metadata_not_restored :
    ¬ ∀ (rt : NoteRuntime) (pr : NotePrinting) (mapping : NoteMapping),
      Restores rt pr mapping.members := by
  intro h
  have hrestored := h asciiNotes
    ⟨fun _ => "0.5", fun _ => "", fun _ => by decide, fun _ => by decide⟩
    taggedMapping
  have hmember := hrestored.restorable ("metadata", .obj [("k", .int 1)]) (by simp [taggedMapping])
  exact absurd hmember (List.cons_ne_nil _ _)

end VaultExporter

end MemoryPlane
