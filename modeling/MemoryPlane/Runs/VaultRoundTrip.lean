import MemoryPlane.Runs.VaultImports
import MemoryPlane.Services.VaultFrontmatter
import MemoryPlane.Services.VaultReading

/-!
# The round trip of a note

What an import plans for the unedited note of a stored item whose header values have no line
boundaries. The note is read at all exactly when the metadata is written as list items, and then
the plan leaves the item alone exactly when the sanitizer keeps the text as it is.
-/

namespace MemoryPlane

open VaultExporter VaultNotes Text

/-- The values that the frontmatter of an item holds have no line boundaries. -/
structure SingleLineHeader (item : MemoryItem) : Prop where
  kind : IsLine item.kind.toList
  labels : ∀ label ∈ item.labels, IsLine label.toList
  sourceKind : IsLine item.provenance.sourceKind.toList
  originUri : ∀ s, item.provenance.originUri = some s → IsLine s.toList
  objectKey : ∀ s, item.provenance.objectKey = some s → IsLine s.toList
  checksumSha256 : ∀ s, item.provenance.checksumSha256 = some s → IsLine s.toList
  extractionVersion : IsLine item.provenance.extractionVersion.toList
  metadata : (Json.obj item.metadata).Unbroken

section Header

variable {pr : NotePrinting} {item : MemoryItem} {child : Option UUID}

/-- An optional text of one line has no line break to be written. -/
theorem unbroken_optionalText {s : Option String} (h : ∀ t, s = some t → IsLine t.toList) :
    (optionalText s).Unbroken := by
  cases s with
  | none => exact fun c _ => rfl
  | some t => exact unbroken_str (h t rfl)

/-- The characters of a printed UUID. -/
theorem mem_str {id : UUID} {c : Char} (hc : c ∈ id.str.toList) :
    (∃ d < 16, c = hexDigit d) ∨ c = '-' := by
  rw [UUID.str, String.toList_ofList] at hc
  exact (UUID.mem_groups hc).imp mem_hexDigits fun h => h

/-- The text of an identifier is one line. -/
theorem isLine_str (id : UUID) : IsLine id.str.toList := by
  intro c hc
  obtain ⟨d, hd, rfl⟩ | rfl := mem_str hc
  · clear hc
    revert d
    decide
  · decide

/-- The name of a note's memory is the identifier behind its prefix. -/
theorem toList_memoryName (id : UUID) : (memoryName id).toList = "mem-".toList ++ id.str.toList :=
  String.toList_append

/-- The name of a note's memory is one line. -/
theorem isLine_memoryName (id : UUID) : IsLine (memoryName id).toList := by
  rw [toList_memoryName]
  exact IsLine.append (by decide) (isLine_str id)

/-- An optional identifier has no line break to be written. -/
theorem unbroken_optionalUuid (id : Option UUID) : (optionalUuid id).Unbroken := by
  cases id with
  | none => exact fun c _ => rfl
  | some id => exact unbroken_str (isLine_str id)

/-- An optional moment has no line break to be written. -/
theorem unbroken_optionalDatetime (t : Option DateTime) : (optionalDatetime pr t).Unbroken := by
  cases t with
  | none => exact fun c _ => rfl
  | some t => exact unbroken_str (pr.isoformat_line t)

/-- Every status of a note is one line. -/
theorem isLine_noteStatus (item : MemoryItem) (child : Option UUID) :
    IsLine (noteStatus item child).toList := by
  rw [noteStatus]
  split
  · decide
  · cases item.status <;> decide

/-- The members of a note but its metadata. -/
def headerMembers (pr : NotePrinting) (item : MemoryItem) (child : Option UUID) : JsonObject :=
  (noteMembers pr item child).dropLast

/-- A note's header is its fixed members followed by the metadata. -/
theorem noteMembers_eq (pr : NotePrinting) (item : MemoryItem) (child : Option UUID) :
    noteMembers pr item child =
      headerMembers pr item child ++ [("metadata", .obj item.metadata)] := rfl

/-- An optional identifier takes one line of the header. -/
theorem isFlat_optionalUuid (id : Option UUID) : (optionalUuid id).isFlat = true := by
  cases id <;> rfl

/-- An optional moment takes one line of the header. -/
theorem isFlat_optionalDatetime (t : Option DateTime) : (optionalDatetime pr t).isFlat = true := by
  cases t <;> rfl

/-- An optional text takes one line of the header. -/
theorem isFlat_optionalText (s : Option String) : (optionalText s).isFlat = true := by
  cases s <;> rfl

/-- The members of the header are written on lines of their own, and its lists as list items. -/
theorem wellWritten_header (pr : NotePrinting) (child : Option UUID) (h : SingleLineHeader item) :
    ∀ m ∈ headerMembers pr item child, WellWritten m ∧ Listed pr m.2 := by
  have huuid : ∀ {key : String}, IsKey key → ∀ id, WellWritten (key, optionalUuid id) ∧
      Listed pr (optionalUuid id) := fun hkey id =>
    wellWritten_flat hkey (unbroken_optionalUuid id) (isFlat_optionalUuid id)
  have htime : ∀ {key : String}, IsKey key → ∀ t, WellWritten (key, optionalDatetime pr t) ∧
      Listed pr (optionalDatetime pr t) := fun hkey t =>
    wellWritten_flat hkey (unbroken_optionalDatetime t) (isFlat_optionalDatetime t)
  have htext : ∀ {key : String}, IsKey key → ∀ s, (∀ t, s = some t → IsLine t.toList) →
      WellWritten (key, optionalText s) ∧ Listed pr (optionalText s) := fun hkey s hs =>
    wellWritten_flat hkey (unbroken_optionalText hs) (isFlat_optionalText s)
  have hstr : ∀ {key : String}, IsKey key → ∀ s, IsLine s.toList →
      WellWritten (key, .str s) ∧ Listed pr (.str s) := fun hkey s hs =>
    wellWritten_flat hkey (unbroken_str hs) rfl
  have hnumber : ∀ {key : String}, IsKey key → ∀ q : ℚ, WellWritten (key, .float q) ∧
      Listed pr (.float q) := fun hkey q => wellWritten_flat hkey (fun _ _ => rfl) rfl
  simp only [headerMembers, noteMembers, List.dropLast, List.forall_mem_cons]
  exact ⟨hstr (by decide) _ (isLine_memoryName _),
    hstr (by decide) _ (by decide),
    hstr (by decide) _ (isLine_noteStatus item child),
    hstr (by decide) _ (by cases item.layer <;> decide),
    hstr (by decide) _ (by cases item.scope <;> decide),
    hstr (by decide) _ h.kind,
    hstr (by decide) _ (isLine_str _),
    hstr (by decide) _ (isLine_str _),
    huuid (by decide) _,
    huuid (by decide) _,
    ⟨⟨show IsKey "labels" by decide, unbroken_texts h.labels⟩, listed_texts item.labels h.labels⟩,
    hnumber (by decide) _,
    hnumber (by decide) _,
    hnumber (by decide) _,
    wellWritten_flat (by decide) (fun _ _ => rfl) rfl,
    huuid (by decide) _,
    huuid (by decide) _,
    htime (by decide) _,
    htime (by decide) _,
    htime (by decide) _,
    htime (by decide) _,
    hstr (by decide) _ h.sourceKind,
    htext (by decide) _ h.originUri,
    htext (by decide) _ h.objectKey,
    htext (by decide) _ h.checksumSha256,
    hstr (by decide) _ h.extractionVersion,
    by simp⟩

/-- The metadata is written below its key. -/
theorem wellWritten_metadata (h : SingleLineHeader item) :
    WellWritten ("metadata", Json.obj item.metadata) := 
  ⟨show IsKey "metadata" by decide, h.metadata⟩

end Header

section Note

variable {rt : NoteRuntime} {pr : NotePrinting} {item : MemoryItem} {child : Option UUID}

/-- The heading that ends the text of every note. -/
theorem isSystemHeading_provenance (rt : NoteRuntime) :
    isSystemHeading rt "## Provenance".toList = true := by
  have hstrip : stripWith isSpace "## Provenance".toList = "## Provenance".toList := by decide
  have hname : stripWith isSpace ("## Provenance".toList.dropWhile (· == '#')) =
      "Provenance".toList := by decide
  rw [isSystemHeading, hstrip, hname, rt.lower_ascii _ (by simp)]
  decide

/-- The text of an item is not empty once stripped, and its ends are no white space. -/
theorem stripped_text_ne (item : MemoryItem) : stripWith isSpace item.text.toList ≠ [] := by
  have hvalid := (MemoryFields.postInit_eq_ok.mp item.valid).text
  intro hnil
  have hblank : isBlank item.text = true := by
    rw [isBlank_iff, strip, hnil]
  rw [hvalid] at hblank
  cases hblank

/-- A character other than white space breaks no line. -/
theorem unbroken_of_not_space {c : Char} (h : isSpace c = false) : isLineBreak c = false := by
  by_contra hbreak
  rw [isSpace_of_isLineBreak (by simpa using hbreak)] at h
  cases h

/-- Every member of an exported header is written in the form the parser reads. -/
theorem wellWritten_members (h : SingleLineHeader item) :
    ∀ m ∈ noteMembers pr item child, WellWritten m := by
  intro m hm
  rw [noteMembers_eq, List.mem_append, List.mem_singleton] at hm
  obtain hm | rfl := hm
  · exact (wellWritten_header pr child h m hm).1
  · exact wellWritten_metadata h

/-- The lines of a note: its frontmatter, its text and the sections behind it. -/
theorem splitlines_memoryFile (pr : NotePrinting) (child : Option UUID)
    (h : SingleLineHeader item) :
    ∃ rest, splitlines (memoryFile pr item child).content = "---".toList ::
      ((noteMembers pr item child).flatMap (memberLines pr) ++ "---".toList ::
        (bodyLines (stripWith isSpace item.text.toList) ++ "## Provenance".toList :: rest)) := by
  set text := stripWith isSpace item.text.toList with htext
  obtain ⟨first, sections, hsections, hdash⟩ : ∃ first sections,
      noteSections item child = first :: sections ∧ '-' ∈ first := by
    refine ⟨_, _, rfl, ?_⟩
    exact List.mem_append_left _ (by decide)
  have hjoin : joinLines ([frontmatter pr (noteMembers pr item child), [], text, [],
      "## Provenance".toList] ++ noteSections item child) =
        frontmatter pr (noteMembers pr item child) ++ '\n' :: '\n' :: (text ++ '\n' :: '\n' ::
          ("## Provenance".toList ++ '\n' :: joinLines (noteSections item child))) := by
    have hne : noteSections item child ≠ [] := by
      rw [hsections]
      exact List.cons_ne_nil _ _
    simp only [List.cons_append, List.nil_append]
    rw [joinLines_cons (by simp), joinLines_cons (by simp), joinLines_cons (by simp),
      joinLines_cons (by simp), joinLines_cons hne]
    simp
  have hmem : '-' ∈ joinLines (noteSections item child) := by
    rw [hsections]
    by_cases hnil : sections = []
    · rw [hnil, joinLines_singleton]
      exact hdash
    · rw [joinLines_cons hnil]
      exact List.mem_append_left _ hdash
  set tail := rstripWith isSpace (joinLines (noteSections item child)) ++ ['\n'] with htail
  have hcontent : (memoryFile pr item child).content =
      frontmatter pr (noteMembers pr item child) ++ '\n' :: ([] ++ '\n' :: (text ++ '\n' ::
        ([] ++ '\n' :: ("## Provenance".toList ++ '\n' :: tail)))) := by
    rw [memoryFile, hjoin]
    have hsplit : frontmatter pr (noteMembers pr item child) ++ '\n' :: '\n' :: (text ++ '\n' ::
        '\n' :: ("## Provenance".toList ++ '\n' :: joinLines (noteSections item child))) =
        (frontmatter pr (noteMembers pr item child) ++ '\n' :: '\n' :: (text ++ '\n' ::
        '\n' :: ("## Provenance".toList ++ ['\n']))) ++ joinLines (noteSections item child) := by
      simp
    rw [hsplit, rstripWith_append hmem (by decide), htail]
    simp
  have hlast : ∀ c, text.getLast? = some c → isLineBreak c = false :=
    fun c hc => unbroken_of_not_space (getLast?_stripWith hc)
  have hempty : IsLine [] := by decide
  refine ⟨splitlines tail, ?_⟩
  rw [hcontent, splitlines_frontmatter (wellWritten_members h), splitlines_line hempty,
    splitlines_before (stripped_text_ne item) hlast, splitlines_line hempty,
    splitlines_line (show IsLine _ by decide), bodyLines]
  simp [htext]

/-- What the reader of notes makes of a note. -/
theorem parseMarkdownNote_memoryFile (h : SingleLineHeader item) :
    parseMarkdownNote rt (memoryFile pr item child).content =
      (parseFrontmatter rt ((noteMembers pr item child).flatMap (memberLines pr))).map fun f =>
        ⟨f, bodyOf rt (stripWith isSpace item.text.toList)⟩ := by
  obtain ⟨rest, hlines⟩ := splitlines_memoryFile pr child h
  set header := (noteMembers pr item child).flatMap (memberLines pr) with hheader
  have hruler : ∀ l ∈ header, decide (l ≠ "---".toList) = true := by
    intro l hl
    rw [decide_eq_true_eq]
    rintro rfl
    obtain ⟨m, hm, hmem⟩ := List.mem_flatMap.mp hl
    exact ne_ruler (wellWritten_members h m hm) hmem
  have hstrip : stripWith isSpace "---".toList = "---".toList := by decide
  have hheading : (!isSystemHeading rt "## Provenance".toList) = false := by
    rw [isSystemHeading_provenance]
    rfl
  unfold parseMarkdownNote
  rw [hlines]
  simp only [hstrip, ne_eq, not_true_eq_false, if_false]
  rw [if_neg (by simp)]
  have htake : ∀ ls,
      (header ++ "---".toList :: ls).takeWhile (fun l => decide (¬ l = "---".toList)) =
      header := by
    intro ls
    rw [List.takeWhile_append_of_pos hruler]
    simp
  have hdrop : ∀ ls,
      (header ++ "---".toList :: ls).dropWhile (fun l => decide (¬ l = "---".toList)) =
      "---".toList :: ls := by
    intro ls
    rw [List.dropWhile_append_of_pos hruler]
    simp
  rw [htake, hdrop, List.tail_cons,
    takeWhile_append_stop (p := fun l => !isSystemHeading rt l) hheading]
  rfl

/-- A note whose metadata is not flat is rejected. -/
theorem parse_of_not_flat (rt : NoteRuntime) (pr : NotePrinting) (child : Option UUID)
    (h : SingleLineHeader item) (hflat : ¬ FlatMetadata item.metadata) :
    ∃ message, parseMarkdownNote rt (memoryFile pr item child).content =
      .error (.valueError message) := by
  have hlisted : ¬ Listed pr (Json.obj item.metadata) :=
    fun hlisted => hflat ((listed_metadata h.metadata).mp hlisted)
  obtain ⟨message, hmessage⟩ := parseFrontmatter_unlisted rt
    (wellWritten_header pr child h) (wellWritten_metadata h) hlisted
  refine ⟨message, ?_⟩
  rw [parseMarkdownNote_memoryFile h, noteMembers_eq, hmessage]
  rfl

/-- The members that name an item. -/
theorem get_noteMembers (pr : NotePrinting) (item : MemoryItem) (child : Option UUID) :
    (noteMembers pr item child).get "id" = some (.str (memoryName item.id)) ∧
      (noteMembers pr item child).get "type" = some (.str "memory") ∧
      (noteMembers pr item child).get "status" = some (.str (noteStatus item child)) ∧
      (noteMembers pr item child).get "tenant_id" = some (.str item.tenantId.str) ∧
      (noteMembers pr item child).get "workspace_id" = some (.str item.workspaceId.str) ∧
      (noteMembers pr item child).get "revision" = some (.int item.revision) := by
  simp [noteMembers, JsonObject.get]

/-- The exported name of a memory is read back as its identifier. -/
theorem parseNoteId_memoryName (id : UUID) :
    parseNoteId rt (some (.scalar (.str (memoryName id).toList))) = .ok id := by
  have hmem : startsWith "mem-".toList (memoryName id).toList = true := by
    rw [toList_memoryName, startsWith, List.isPrefixOf_iff_prefix]
    exact List.prefix_append ..
  have hdrop : (memoryName id).toList.drop 4 = id.str.toList := by
    have hlength : "mem-".toList.length = 4 := by decide
    rw [toList_memoryName, ← hlength, List.drop_left]
  rw [parseNoteId, Option.bind_some, textOfValue]
  simp only
  rw [if_pos hmem, hdrop, String.ofList_toList, UUID.parse_str]

/-- The head of a note is read off its frontmatter. -/
theorem noteHead_eq {f : Frontmatter} {id tenantId workspaceId : UUID} {revision : ℕ}
    (hid : f.get "id" = some (.scalar (.str (memoryName id).toList)))
    (hrevision : f.get "revision" = some (.scalar (.int revision)))
    (htenant : f.get "tenant_id" = some (.scalar (.str tenantId.str.toList)))
    (hworkspace : f.get "workspace_id" = some (.scalar (.str workspaceId.str.toList))) :
    noteHead rt f = .ok (id, (revision : ℤ), tenantId, workspaceId) := by
  have huuid : ∀ key (id : UUID), f.get key = some (.scalar (.str id.str.toList)) →
      noteUuid rt f key = .ok id := by
    intro key id hkey
    rw [noteUuid, hkey]
    simp only [textOfValue, Option.bind_some, String.ofList_toList, UUID.parse_str]
  have hnumber : noteRevision rt f = .ok (revision : ℤ) := by
    rw [noteRevision, hrevision]
    simp only [textOfValue, Option.bind_some, readInt_toString]
  rw [noteHead, hid, parseNoteId_memoryName, hnumber, huuid _ _ htenant, huuid _ _ hworkspace]
  rfl

/-- The frontmatter of a note with flat metadata says what the item is. -/
theorem parse_of_flat (rt : NoteRuntime) (pr : NotePrinting) (child : Option UUID)
    (h : SingleLineHeader item) (hflat : FlatMetadata item.metadata) :
    ∃ f : Frontmatter, parseMarkdownNote rt (memoryFile pr item child).content =
        .ok ⟨f, bodyOf rt (stripWith isSpace item.text.toList)⟩ ∧
      f.get "type" = some (.scalar (.str "memory".toList)) ∧
      f.get "status" = some (.scalar (.str (noteStatus item child).toList)) ∧
      noteHead rt f = .ok (item.id, (item.revision : ℤ), item.tenantId, item.workspaceId) := by
  have hmembers : ∀ m ∈ noteMembers pr item child, WellWritten m ∧ Listed pr m.2 := by
    intro m hm
    rw [noteMembers_eq, List.mem_append, List.mem_singleton] at hm
    obtain hm | rfl := hm
    · exact wellWritten_header pr child h m hm
    · exact ⟨wellWritten_metadata h, (listed_metadata h.metadata).mpr hflat⟩
  obtain ⟨f, hparse, hreads⟩ := parseFrontmatter_members rt hmembers
  obtain ⟨hid, htype, hstatus, htenant, hworkspace, hrevision⟩ := get_noteMembers pr item child
  have hget : ∀ {key s}, (noteMembers pr item child).get key = some (.str s) →
      f.get key = some (.scalar (.str s.toList)) := by
    intro key s hs
    rw [get_of_reads hreads hs rfl, flatValue_str]
  refine ⟨f, ?_, hget htype, hget hstatus, ?_⟩
  · rw [parseMarkdownNote_memoryFile h, hparse]
    rfl
  · apply noteHead_eq
    · exact hget hid
    · rw [get_of_reads hreads hrevision rfl, flatValue_int]
    · exact hget htenant
    · exact hget hworkspace

end Note

section Plans

variable {σ : Type} (rt : NoteRuntime) (pr : NotePrinting) (store : RetentionStore σ) (x : σ)

/-- The unedited note of one of the listed items. -/
def uneditedNote (items : List MemoryItem) (item : MemoryItem) : VaultImportSource :=
  let file := memoryFile pr item (supersededBy items item.id)
  ⟨file.path, file.content⟩

/-- What an import plans for the unedited note of one of the listed items. -/
def plannedActions (items : List MemoryItem) (item : MemoryItem) : List VaultImportAction :=
  (planImport rt store item.tenantId item.workspaceId x [uneditedNote pr items item]).changes.map
    VaultImportChange.action

variable {rt pr store x} {items : List MemoryItem} {item : MemoryItem}

/-- A note is that of a superseded item exactly when a listed item replaces it. -/
theorem supersededBy_isSome : (supersededBy items item.id).isSome = true ↔
    ∃ i ∈ items, i.supersedesId = some item.id := by
  rw [supersededBy, Option.isSome_map, List.find?_isSome]
  simp

/-- An import rejects a note whose metadata is not flat. -/
theorem plannedActions_of_not_flat (h : SingleLineHeader item)
    (hflat : ¬ FlatMetadata item.metadata) :
    plannedActions rt pr store x items item = [.error] := by
  obtain ⟨message, hparse⟩ := parse_of_not_flat rt pr (supersededBy items item.id) h hflat
  simp only [plannedActions, planImport, uneditedNote, List.map_cons, List.map_nil, planFileImport,
    hparse]

/-- An import skips the note of a superseded item and compares the text of every other one. -/
theorem plannedActions_of_flat (hstored : store.get x item.tenantId item.id = some item)
    (h : SingleLineHeader item) (hflat : FlatMetadata item.metadata) :
    plannedActions rt pr store x items item =
      if (supersededBy items item.id).isSome then [.skip]
      else if stripWith isSpace item.text.toList =
          bodyOf rt (stripWith isSpace item.text.toList) then
        [.unchanged]
      else [.supersede] := by
  obtain ⟨f, hparse, htype, hstatus, hhead⟩ := parse_of_flat rt pr (supersededBy items item.id)
    h hflat
  have hbody : stripWith isSpace (bodyOf rt (stripWith isSpace item.text.toList)) =
      bodyOf rt (stripWith isSpace item.text.toList) := by
    rw [bodyOf, sanitizeEditableBody, stripWith_stripWith]
  simp only [plannedActions, planImport, uneditedNote, List.map_cons, List.map_nil, planFileImport,
    hparse, htype, hstatus, hhead, hstored, hbody, ne_eq, not_true_eq_false, or_self, if_false,
    noteStatus]
  cases hchild : (supersededBy items item.id).isSome with
  | true => simp
  | false =>
    have hne : ¬ item.status.value.toList = "superseded".toList := by
      cases item.status <;> decide
    simp only [Bool.false_eq_true, if_false, Option.some.injEq, FrontmatterValue.scalar.injEq,
      FrontmatterScalar.str.injEq, hne]
    split_ifs <;> rfl

/-- For every stored item whose header values have no line boundaries: the unedited note of a
current head is planned as unchanged exactly when its metadata is written as list items and the
sanitizer keeps its text, and that of a superseded item is skipped exactly when its metadata is
written as list items. -/
theorem unedited_note_plan_iff {σ : Type} (rt : NoteRuntime) (pr : NotePrinting)
    (store : RetentionStore σ) (x : σ) (items : List MemoryItem) (item : MemoryItem)
    (hstored : store.get x item.tenantId item.id = some item) (h : SingleLineHeader item) :
    ((∀ i ∈ items, i.supersedesId ≠ some item.id) →
      (plannedActions rt pr store x items item = [.unchanged] ↔
        FlatMetadata item.metadata ∧ TextSurvives rt (stripWith isSpace item.text.toList))) ∧
    ((∃ i ∈ items, i.supersedesId = some item.id) →
      (plannedActions rt pr store x items item = [.skip] ↔ FlatMetadata item.metadata)) := by
  by_cases hflat : FlatMetadata item.metadata
  · rw [plannedActions_of_flat hstored h hflat]
    constructor
    · intro hhead
      have hnone : (supersededBy items item.id).isSome = false := by
        rw [Bool.eq_false_iff, ne_eq, supersededBy_isSome]
        rintro ⟨i, hi, hid⟩
        exact hhead i hi hid
      rw [hnone, if_neg Bool.false_ne_true]
      constructor
      · intro hplan
        refine ⟨hflat, survives_of_bodyOf ?_⟩
        by_contra hne
        rw [if_neg fun he => hne he.symm] at hplan
        cases hplan
      · rintro ⟨-, hsurvives⟩
        rw [if_pos]
        exact (bodyOf_of_survives (stripped_text_ne item) (fun _ => head?_stripWith)
          (fun _ => getLast?_stripWith) hsurvives).symm
    · intro hsuperseded
      rw [if_pos (supersededBy_isSome.mpr hsuperseded)]
      exact ⟨fun _ => hflat, fun _ => rfl⟩
  · rw [plannedActions_of_not_flat h hflat]
    constructor
    · intro _
      constructor
      · intro hplan
        cases hplan
      · exact fun hall => absurd hall.1 hflat
    · intro _
      constructor
      · intro hplan
        cases hplan
      · exact fun hall => absurd hall hflat

/-- The prints of the one float and the one moment of small runs. -/
def halfPrinting : NotePrinting where
  float _ := "0.5"
  isoformat _ := "2024-01-01T00:00:00+00:00"
  float_line _ := by decide
  isoformat_line _ := by decide

/-- A memory of what is to be shipped. -/
def plannedMemory : MemoryItem :=
  ⟨{ notedFields "Ship the build." with kind := "plan", id := UUID.ofNat 9 }, by decide +kernel⟩

/-- The revision that says what shipped, with labels, an origin and flat metadata. -/
def shippedMemory : MemoryItem :=
  ⟨{ notedFields "# Log\n\nShipped.\n- to: all" with
      kind := "release"
      labels := ["infra", "build: 7"]
      provenance := { sourceKind := "chat", originUri := some "chat:7#4" }
      metadata := [("- room", .str "12")]
      supersedesId := some (UUID.ofNat 9) }, by decide +kernel⟩

/-- A memory whose text reads like a field. -/
def statusMemory : MemoryItem := ⟨notedFields "status: done", by decide +kernel⟩

/-- The store with both. -/
def storeWithShipped : InMemoryMemoryStore :=
  (InMemoryMemoryStore.empty.putItem plannedMemory none).putItem shippedMemory none

/-- The store with one memory. -/
def storeOf (item : MemoryItem) : InMemoryMemoryStore := InMemoryMemoryStore.empty.putItem item none

/-- The fields of the example have a header of single lines. -/
theorem singleLine_notedFields {item : MemoryItem} {text : String}
    (h : item.toMemoryFields = notedFields text) : SingleLineHeader item := by
  have hfields : item.kind = "fact" ∧ item.labels = [] ∧
      item.provenance = { sourceKind := "manual" } ∧ item.metadata = [] := by
    rw [h]
    exact ⟨rfl, rfl, rfl, rfl⟩
  obtain ⟨hkind, hlabels, hprovenance, hmetadata⟩ := hfields
  constructor
  · rw [hkind]
    decide
  · simp [hlabels]
  · rw [hprovenance]
    decide
  · simp [hprovenance]
  · simp [hprovenance]
  · simp [hprovenance]
  · rw [hprovenance]
    decide
  · rw [hmetadata]
    exact fun _ _ => rfl

/-- The store of one memory finds it by its tenant and identifier. -/
theorem get_storeOf (item : MemoryItem) :
    inMemoryRetention.get (storeOf item) item.tenantId item.id = some item :=
  Ledger.get_self (l := (storeOf item).toLedger) (List.mem_singleton.mpr rfl)

/-- The text of the shipped memory is what its note is read as. -/
theorem survives_shipped :
    TextSurvives asciiNotes (stripWith isSpace shippedMemory.text.toList) := by
  have hbreaks : (stripWith isSpace shippedMemory.text.toList).all
      (fun c => !isLineBreak c || c == '\n') = true := by decide +kernel
  have hlines : ∀ line ∈ splitlines (stripWith isSpace shippedMemory.text.toList),
      line = [] ∨ stripWith isSpace line ≠ [] ∧ isTechnical asciiNotes line = false := by
    decide +kernel
  constructor
  · intro c hc hbreak
    simpa [hbreak] using List.all_eq_true.mp hbreaks c hc
  · exact hlines
  · decide +kernel

/-- The planned memory has a header of single lines. -/
theorem singleLine_planned : SingleLineHeader plannedMemory := by
  constructor
  case metadata => exact fun _ _ => rfl
  all_goals decide +kernel

/-- The shipped memory has a header of single lines. -/
theorem singleLine_shipped : SingleLineHeader shippedMemory := by
  constructor
  case metadata =>
    have hline : IsLine "- room12".toList := by decide
    intro c hc
    rw [Bool.eq_false_iff]
    intro hmentions
    have hmem : c ∈ "- room12".toList := by
      simpa [shippedMemory, Json.mentions, Json.mentionsMembers, or_assoc] using hmentions
    rw [hline c hmem] at hc
    cases hc
  all_goals decide +kernel

/-- The note of the revision is planned as unchanged, and that of the memory that it replaced is
skipped. -/
theorem unedited_note_plan_of_shipped :
    plannedActions asciiNotes halfPrinting inMemoryRetention storeWithShipped
      [plannedMemory, shippedMemory] shippedMemory = [.unchanged] ∧
    plannedActions asciiNotes halfPrinting inMemoryRetention storeWithShipped
      [plannedMemory, shippedMemory] plannedMemory = [.skip] := by
  have hfound : ∀ item ∈ [plannedMemory, shippedMemory],
      inMemoryRetention.get storeWithShipped item.tenantId item.id = some item := by
    decide +kernel
  constructor
  · have hplan := unedited_note_plan_iff asciiNotes halfPrinting inMemoryRetention storeWithShipped
      [plannedMemory, shippedMemory] shippedMemory (hfound _ (by simp)) singleLine_shipped
    exact (hplan.1 (by decide +kernel)).mpr
      ⟨by unfold FlatMetadata; decide +kernel, survives_shipped⟩
  · have hplan := unedited_note_plan_iff asciiNotes halfPrinting inMemoryRetention storeWithShipped
      [plannedMemory, shippedMemory] plannedMemory (hfound _ (by simp)) singleLine_planned
    exact (hplan.2 (by decide +kernel)).mpr (by unfold FlatMetadata; decide +kernel)

/-- The sanitizer takes the text of a memory for a field, and the import replaces it. -/
theorem unedited_note_superseded :
    ¬ ((∀ i ∈ [statusMemory], i.supersedesId ≠ some statusMemory.id) →
      plannedActions asciiNotes halfPrinting inMemoryRetention (storeOf statusMemory)
        [statusMemory] statusMemory = [.unchanged]) := by
  have hbody : bodyOf asciiNotes (stripWith isSpace statusMemory.text.toList) = [] := by
    decide +kernel
  have hflat : FlatMetadata statusMemory.metadata := by
    simp [statusMemory, notedFields, FlatMetadata]
  have hchild : (supersededBy [statusMemory] statusMemory.id).isSome = false := by
    simp [supersededBy, statusMemory, notedFields]
  intro hplan
  have hunchanged := hplan (by simp [statusMemory, notedFields])
  rw [plannedActions_of_flat (get_storeOf _) (singleLine_notedFields rfl) hflat, hchild, hbody,
    if_neg Bool.false_ne_true, if_neg (stripped_text_ne statusMemory)] at hunchanged
  cases hunchanged

end Plans

end MemoryPlane
