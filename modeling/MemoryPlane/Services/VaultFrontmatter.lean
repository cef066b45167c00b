import MemoryPlane.Lib.Proc
import MemoryPlane.Python.Pieces
import MemoryPlane.Services.VaultExport
import MemoryPlane.Services.VaultNotes

/-!
# Reading back the frontmatter

A value without inner boundaries is written on one line or, when it is a list or a dictionary that
is not empty, on lines indented below its key. The reader takes such lines as list items if each
starts with two spaces and a dash, and rejects the note otherwise.
-/

namespace MemoryPlane

/-- A value that is written on the line of its key. -/
def Json.isFlat : Json → Bool
  | .arr xs => xs.isEmpty
  | .obj members => members.isEmpty
  | _ => true

/-- A value without line boundaries in its texts. -/
def Json.Unbroken (v : Json) : Prop := ∀ c, isLineBreak c = true → Json.mentions c v = false

/-- Two parts of a line make a line. -/
theorem IsLine.append {s t : List Char} (hs : IsLine s) (ht : IsLine t) : IsLine (s ++ t) := by
  intro c hc
  obtain hc | hc := List.mem_append.mp hc
  · exact hs c hc
  · exact ht c hc

/-- A line does not end in a line break. -/
theorem IsLine.last {s : List Char} (hs : IsLine s) :
    ∀ c, s.getLast? = some c → isLineBreak c = false :=
  fun c hc => hs c (List.mem_of_getLast? hc)

/-- A line is the only one of its text. -/
theorem IsLine.splitlines_eq {s : List Char} (hs : IsLine s) (hne : s ≠ []) :
    Text.splitlines s = [s] := by
  rw [← Text.splitlines_feed hne hs.last, Text.splitlines_line hs]
  rfl

namespace VaultExporter

open Text

section Lines

variable {s t before : List Char} {pad : ℕ}

/-- A text of lines that start with so many spaces and are not blank. -/
structure Indented (pad : ℕ) (t : List Char) : Prop where
  ne : t ≠ []
  last : ∀ c, t.getLast? = some c → isLineBreak c = false
  lines : ∀ l ∈ Text.splitlines t, List.replicate pad ' ' <+: l ∧ l.all isSpace = false

/-- The lines of a text that is followed by another line. -/
theorem splitlines_before (hne : s ≠ []) (hlast : ∀ c, s.getLast? = some c → isLineBreak c = false)
    (t : List Char) : splitlines (s ++ '\n' :: t) = splitlines s ++ splitlines t := by
  rw [splitlines_append, splitlines_feed hne hlast]

/-- Joined texts are indented with them, and have their lines. -/
theorem Indented.joinLines {ts : List (List Char)} (hne : ts ≠ []) (h : ∀ t ∈ ts, Indented pad t) :
    Indented pad (joinLines ts) ∧
      Text.splitlines (Text.joinLines ts) = ts.flatMap Text.splitlines := by
  induction ts with
  | nil => exact absurd rfl hne
  | cons t ts ih =>
    have ht := h t (List.mem_cons_self ..)
    by_cases hnil : ts = []
    · subst hnil
      rw [joinLines_singleton]
      exact ⟨ht, by simp⟩
    · obtain ⟨hrest, hlines⟩ := ih hnil fun u hu => h u (List.mem_cons_of_mem _ hu)
      have hsplit : Text.splitlines (Text.joinLines (t :: ts)) =
          Text.splitlines t ++ ts.flatMap Text.splitlines := by
        rw [joinLines_cons hnil, splitlines_before ht.ne ht.last, hlines]
      refine ⟨⟨?_, ?_, ?_⟩, hsplit⟩
      · rw [joinLines_cons hnil]
        simp
      · rw [joinLines_cons hnil, List.getLast?_append_of_ne_nil _ (by simp), List.getLast?_cons,
          List.getLast?_eq_some_getLast hrest.ne]
        intro c hc
        apply hrest.last
        rw [List.getLast?_eq_some_getLast hrest.ne]
        simpa using hc
      · intro l hl
        rw [hsplit, List.mem_append] at hl
        obtain hl | hl := hl
        · exact ht.lines l hl
        · rw [← hlines] at hl
          exact hrest.lines l hl

/-- How a value is written: on its line, or below it. -/
structure Shape (indent : ℕ) (v : Json) (s : List Char) : Prop where
  flat : v.isFlat = true → IsLine s
  nested : v.isFlat = false → ∃ t, s = '\n' :: t ∧ Indented (indent + 2) t

/-- The lines of a value behind its dash or key. -/
theorem Shape.entry {v : Json} (hs : Shape pad v s) (hbefore : IsLine before) (hne : before ≠ []) :
    (∀ c, (before ++ s).getLast? = some c → isLineBreak c = false) ∧
      (v.isFlat = true ∧ splitlines (before ++ s) = [before ++ s] ∨
        v.isFlat = false ∧ ∃ t, s = '\n' :: t ∧ Indented (pad + 2) t ∧
          splitlines (before ++ s) = before :: splitlines t) := by
  cases hv : v.isFlat with
  | true =>
    have hline := hbefore.append (hs.flat hv)
    exact ⟨hline.last, .inl ⟨rfl, hline.splitlines_eq (by simp [hne])⟩⟩
  | false =>
    obtain ⟨t, rfl, ht⟩ := hs.nested hv
    refine ⟨?_, .inr ⟨rfl, t, rfl, ht, splitlines_line hbefore t⟩⟩
    rw [List.append_cons, List.getLast?_append_of_ne_nil _ ht.ne]
    exact ht.last

/-- A value behind its dash or key is indented with them. -/
theorem Shape.indented {v : Json} (hs : Shape pad v s) (before : List Char)
    (hbefore : IsLine before)
    (hpad : List.replicate pad ' ' <+: before) (hblank : before.all isSpace = false) :
    Indented pad (before ++ s) := by
  have hne : before ≠ [] := by
    rintro rfl
    cases hblank
  obtain ⟨hlast, ⟨-, hlines⟩ | ⟨-, t, -, ht, hlines⟩⟩ := hs.entry hbefore hne
  · refine ⟨by simp [hne], hlast, ?_⟩
    intro l hl
    rw [hlines, List.mem_singleton] at hl
    subst hl
    exact ⟨hpad.trans (List.prefix_append ..), by simp [hblank]⟩
  · refine ⟨by simp [hne], hlast, ?_⟩
    intro l hl
    rw [hlines, List.mem_cons] at hl
    obtain rfl | hl := hl
    · exact ⟨hpad, hblank⟩
    · obtain ⟨hinit, hl⟩ := ht.lines l hl
      refine ⟨List.IsPrefix.trans ?_ hinit, hl⟩
      rw [List.replicate_add]
      exact List.prefix_append ..

end Lines

section Values

/-- Quoting adds backslashes and quotes. -/
theorem mem_quoted {s : List Char} {c : Char} (hc : c ∈ quoted s) : c ∈ s ∨ c = '"' ∨ c = '\\' := by
  simp only [quoted, List.cons_append, List.mem_cons, List.mem_append, List.not_mem_nil,
    or_false] at hc
  obtain rfl | hc | rfl := hc
  · exact .inr (.inl rfl)
  · obtain hc | hc := mem_replaceFrom hc
    · obtain hc | hc := mem_replaceFrom hc
      · exact .inl hc
      · simp only [List.mem_cons, List.not_mem_nil, or_false, or_self] at hc
        exact .inr (.inr hc)
    · simp only [List.mem_cons, List.not_mem_nil, or_false] at hc
      exact .inr hc.symm
  · exact .inr (.inl rfl)

/-- Quoting adds no line break. -/
theorem isLine_quoted {s : List Char} (hs : IsLine s) : IsLine (quoted s) := by
  intro c hc
  obtain hc | rfl | rfl := mem_quoted hc
  · exact hs c hc
  · decide
  · decide

/-- The decimal text of an integer is one line. -/
theorem isLine_toString (n : ℤ) : IsLine (toString n).toList := by
  intro c hc
  obtain hc | rfl := mem_toString hc
  · by_contra hbreak
    rw [Bool.not_eq_false] at hbreak
    simp only [isLineBreak, Bool.or_eq_true, Bool.and_eq_true, decide_eq_true_eq,
      beq_iff_eq] at hbreak
    simp only [Char.isDigit, Bool.and_eq_true, decide_eq_true_eq, ge_iff_le, UInt32.le_iff_toNat_le]
      at hc
    have hval : c.val.toNat = c.toNat := rfl
    have h0 : ('0' : Char).val.toNat = 48 := rfl
    have h9 : ('9' : Char).val.toNat = 57 := rfl
    omega
  · decide

variable (pr : NotePrinting)

/-- A text without line breaks is one line. -/
theorem isLine_of_mentions {s : String} (h : (Json.str s).Unbroken) : IsLine s.toList := by
  intro c hc
  by_contra hbreak
  have := h c (by simpa using hbreak)
  simp [Json.mentions, hc] at this

/-- The spaces before an item and its dash. -/
theorem indented_item {pad : ℕ} {v : Json} {s : List Char} (hs : Shape pad v s) :
    Indented pad (List.replicate pad ' ' ++ '-' :: ' ' :: s) := by
  have h := hs.indented (List.replicate pad ' ' ++ ['-', ' '])
  simp only [List.append_assoc, List.cons_append, List.nil_append] at h
  apply h
  · apply IsLine.append
    · intro c hc
      rw [List.eq_of_mem_replicate hc]
      decide
    · decide
  · exact List.prefix_append ..
  · have hdash : isSpace '-' = false := by decide
    simp [hdash]

/-- The spaces before a member and its key. -/
theorem indented_member {pad : ℕ} {v : Json} {key s : List Char} (hs : Shape pad v s)
    (hkey : IsLine key) : Indented pad (List.replicate pad ' ' ++ (key ++ ':' :: ' ' :: s)) := by
  have h := hs.indented (List.replicate pad ' ' ++ (key ++ [':', ' ']))
  simp only [List.append_assoc, List.cons_append, List.nil_append] at h
  apply h
  · apply IsLine.append
    · intro c hc
      rw [List.eq_of_mem_replicate hc]
      decide
    · exact hkey.append (by decide)
  · exact List.prefix_append ..
  · have hcolon : isSpace ':' = false := by decide
    simp [hcolon]

mutual
/-- A value without inner boundaries is written on its line or below it. -/
theorem yamlValue_shape :
    ∀ (v : Json) (indent : ℕ), v.Unbroken → Shape indent v (yamlValue pr indent v)
  | .null, indent, _ => by
    rw [yamlValue]
    exact ⟨fun _ => by decide, fun h => by cases h⟩
  | .bool b, indent, _ => by
    rw [yamlValue]
    cases b with
    | false => exact ⟨fun _ => by decide, fun h => by cases h⟩
    | true => exact ⟨fun _ => by decide, fun h => by cases h⟩
  | .int n, indent, _ => ⟨fun _ => isLine_toString n, fun h => by cases h⟩
  | .float q, indent, _ => ⟨fun _ => pr.float_line q, fun h => by cases h⟩
  | .str s, indent, hv => ⟨fun _ => isLine_quoted (isLine_of_mentions hv), fun h => by cases h⟩
  | .arr xs, indent, hv => by
    rw [yamlValue]
    constructor
    · intro h
      rw [if_pos (show xs.isEmpty = true from h)]
      decide
    · intro h
      rw [if_neg (by rw [show xs.isEmpty = false from h]; decide)]
      refine ⟨_, rfl, (Indented.joinLines ?_ (yamlItems_indented xs (indent + 2) hv)).1⟩
      cases xs with
      | nil => cases h
      | cons x xs => exact List.cons_ne_nil _ _
  | .obj members, indent, hv => by
    rw [yamlValue]
    constructor
    · intro h
      rw [if_pos (show members.isEmpty = true from h)]
      decide
    · intro h
      rw [if_neg (by rw [show members.isEmpty = false from h]; decide)]
      refine ⟨_, rfl, (Indented.joinLines ?_ ?_).1⟩
      · cases members with
        | nil => cases h
        | cons m ms =>
          intro hnil
          have hlen := congrArg List.length hnil
          rw [List.length_map, (sortedBy_perm ..).length_eq] at hlen
          cases hlen
      · intro t ht
        obtain ⟨e, he, rfl⟩ := List.mem_map.mp ht
        exact yamlMembers_indented members (indent + 2) hv e ((mem_sortedBy ..).mp he)

/-- Every line of an array's items stands behind the padding. -/
theorem yamlItems_indented : ∀ (xs : List Json) (pad : ℕ), (Json.arr xs).Unbroken →
    ∀ t ∈ yamlItems pr pad xs, Indented pad t
  | [], _, _ => by
    intro t ht
    cases ht
  | x :: xs, pad, hxs => by
    have hx : x.Unbroken := fun c hc => (Bool.or_eq_false_iff.mp (hxs c hc)).1
    have hrest : (Json.arr xs).Unbroken := fun c hc => (Bool.or_eq_false_iff.mp (hxs c hc)).2
    intro t ht
    rw [yamlItems, List.mem_cons] at ht
    obtain rfl | ht := ht
    · exact indented_item (yamlValue_shape x pad hx)
    · exact yamlItems_indented xs pad hrest t ht

/-- Every line of an object's members stands behind the padding. -/
theorem yamlMembers_indented : ∀ (members : List (String × Json)) (pad : ℕ),
    (Json.obj members).Unbroken → ∀ e ∈ yamlMembers pr pad members, Indented pad e.2
  | [], _, _ => by
    intro e he
    cases he
  | (key, value) :: rest, pad, h => by
    have hsplit : ∀ c, isLineBreak c = true → key.toList.contains c = false ∧
        Json.mentions c value = false ∧ Json.mentionsMembers c rest = false := by
      intro c hc
      have := h c hc
      simpa [Json.mentions, Json.mentionsMembers, and_assoc] using this
    have hkey : IsLine key.toList :=
      isLine_of_mentions fun c hc => (hsplit c hc).1
    have hvalue : value.Unbroken := fun c hc => (hsplit c hc).2.1
    have hrest : (Json.obj rest).Unbroken := fun c hc => (hsplit c hc).2.2
    intro e he
    rw [yamlMembers, List.mem_cons] at he
    obtain rfl | he := he
    · exact indented_member (yamlValue_shape value pad hvalue) hkey
    · exact yamlMembers_indented rest pad hrest e he
end

end Values

section Reading

open VaultNotes

variable (rt : NoteRuntime) (pr : NotePrinting)

/-- The text of a member. -/
def memberText (m : String × Json) : List Char := m.1.toList ++ ':' :: ' ' :: yamlValue pr 0 m.2

/-- The lines of a member. -/
def memberLines (m : String × Json) : List (List Char) := splitlines (memberText pr m)

/-- A line that can follow a key as a list item. -/
def isItem (line : List Char) : Bool := startsWith "  - ".toList line

/-- The lines below the key are list items. -/
def Listed (v : Json) : Prop :=
  v.isFlat = false → ∀ t, yamlValue pr 0 v = '\n' :: t → ∀ l ∈ splitlines t, isItem l = true

/-- What is read of a value on the line of its key. -/
def flatValue (v : Json) : FrontmatterValue :=
  let s := stripWith isSpace (yamlValue pr 0 v)
  if s = [] then .list [] else .scalar (parseYamlScalar rt s)

/-- A key without white space and colons. -/
def IsKey (key : String) : Prop :=
  key.toList ≠ [] ∧ ':' ∉ key.toList ∧ ∀ c ∈ key.toList, isSpace c = false

instance (key : String) : Decidable (IsKey key) :=
  letI := List.decidableBAll (fun c => isSpace c = false) key.toList
  inferInstanceAs (Decidable (key.toList ≠ [] ∧ ':' ∉ key.toList ∧
    ∀ c ∈ key.toList, isSpace c = false))

/-- A member that is written on lines of its own. -/
structure WellWritten (m : String × Json) : Prop where
  key : IsKey m.1
  unbroken : m.2.Unbroken

/-- What is read of a value whose lines, if it has any below its key, are list items. -/
def readValue (v : Json) : FrontmatterValue :=
  if v.isFlat then flatValue rt pr v
  else .list ((splitlines (yamlValue pr 0 v).tail).map fun l =>
    parseYamlScalar rt (stripWith isSpace (l.drop 4)))

/-- What is read of a member. -/
def ReadsAs (m : String × Json) (e : List Char × FrontmatterValue) : Prop :=
  e.1 = m.1.toList ∧ (m.2.isFlat = true → e.2 = flatValue rt pr m.2)

variable {rt pr}

/-- A key and its colon are part of one line. -/
theorem isLine_key {key : String} (h : IsKey key) : IsLine (key.toList ++ [':', ' ']) := by
  apply IsLine.append
  · intro c hc
    by_contra hbreak
    have := h.2.2 c hc
    rw [isSpace_of_isLineBreak (by simpa using hbreak)] at this
    cases this
  · decide

/-- A key line starts outside the white space. -/
theorem cons_of_isKey {key : String} (h : IsKey key) :
    ∃ c cs, key.toList = c :: cs ∧ isSpace c = false := by
  obtain ⟨c, cs, hcs⟩ := List.exists_cons_of_ne_nil h.1
  exact ⟨c, cs, hcs, h.2.2 c (by rw [hcs]; exact List.mem_cons_self ..)⟩

/-- What is not white space is no blank. -/
theorem ne_space {c : Char} (h : isSpace c = false) : c ≠ ' ' := by
  rintro rfl
  cases h

/-- A key line is no list item. -/
theorem isItem_key {key : String} (h : IsKey key) (s : List Char) :
    isItem (key.toList ++ s) = false := by
  obtain ⟨c, cs, hcs, hc⟩ := cons_of_isKey h
  have hne : (' ' == c) = false := by simpa using (ne_space hc).symm
  have hmark : "  - ".toList = [' ', ' ', '-', ' '] := by decide
  simp [isItem, startsWith, hcs, hmark, List.isPrefixOf, hne]

/-- Stripping removes a leading blank. -/
theorem stripWith_space (s : List Char) : stripWith isSpace (' ' :: s) = stripWith isSpace s := by
  have hspace : isSpace ' ' = true := by decide
  rw [stripWith, stripWith, List.dropWhile_cons, if_pos hspace]

/-- A key line says its key and what stands behind it. -/
theorem frontmatterLine_key {key : String} (h : IsKey key) (s : List Char) :
    frontmatterLine rt (key.toList ++ ':' :: ' ' :: s) =
      .ok (some (key.toList, if stripWith isSpace s = [] then none
        else some (parseYamlScalar rt (stripWith isSpace s)))) := by
  obtain ⟨c, cs, hcs, hc⟩ := cons_of_isKey h
  have hblank : (key.toList ++ ':' :: ' ' :: s).all isSpace = false := by simp [hcs, hc]
  have hstart : startsWith [' '] (key.toList ++ ':' :: ' ' :: s) = false := by
    have hne : (' ' == c) = false := by simpa using (ne_space hc).symm
    simp [startsWith, hcs, List.isPrefixOf, hne]
  have hplain : ∀ d ∈ key.toList, decide (d ≠ ':') = true := by
    intro d hd
    rw [decide_eq_true_eq]
    rintro rfl
    exact h.2.1 hd
  have htake : (key.toList ++ ':' :: ' ' :: s).takeWhile (· ≠ ':') = key.toList := by
    rw [List.takeWhile_append_of_pos hplain]
    simp
  have hdrop : (key.toList ++ ':' :: ' ' :: s).dropWhile (· ≠ ':') = ':' :: ' ' :: s := by
    rw [List.dropWhile_append_of_pos hplain]
    simp
  rw [frontmatterLine, if_neg (by simp [hblank]), if_neg (by simp [hstart])]
  simp only [htake, hdrop, List.tail_cons, stripWith_space]

/-- List items behind a key are read one after the other. -/
theorem parse_items {key : List Char} {items : List (List Char)} (h : ∀ l ∈ items, isItem l = true)
    (values : List FrontmatterScalar) (rest : List (List Char)) :
    parseFrontmatterFrom rt (some (key, values)) (items ++ rest) =
      parseFrontmatterFrom rt (some (key, values ++
        items.map fun l => parseYamlScalar rt (stripWith isSpace (l.drop 4)))) rest := by
  induction items generalizing values with
  | nil => simp
  | cons l items ih =>
    have hl : startsWith "  - ".toList l = true := h l (List.mem_cons_self ..)
    rw [List.cons_append, parseFrontmatterFrom, ih fun k hk => h k (List.mem_cons_of_mem _ hk)]
    · simp
    · exact hl

/-- A key line ends the list before it. -/
theorem parse_key {key : String} (h : IsKey key) (s : List Char)
    (listing : Option (List Char × List FrontmatterScalar)) (rest : List (List Char)) :
    parseFrontmatterFrom rt listing ((key.toList ++ ':' :: ' ' :: s) :: rest) =
      if stripWith isSpace s = [] then
        (parseFrontmatterFrom rt (some (key.toList, [])) rest).map fun f => listMember listing ++ f
      else (parseFrontmatterFrom rt none rest).map fun f =>
        listMember listing ++
          (key.toList, .scalar (parseYamlScalar rt (stripWith isSpace s))) :: f := by
  have hitem : startsWith "  - ".toList (key.toList ++ ':' :: ' ' :: s) = false := isItem_key h _
  rw [parseFrontmatterFrom, frontmatterLine_key h, Except.bind]
  · split_ifs <;> rfl
  · intro key values _ htrue
    rw [hitem] at htrue
    cases htrue

/-- An indented line that is no list item is rejected. -/
theorem parse_unlisted (rt : NoteRuntime) {lines : List (List Char)}
    (hlines : ∀ l ∈ lines, List.replicate 2 ' ' <+: l ∧ l.all isSpace = false)
    (h : ¬ ∀ l ∈ lines, isItem l = true) (key : List Char) (values : List FrontmatterScalar)
    (rest : List (List Char)) :
    ∃ message, parseFrontmatterFrom rt (some (key, values)) (lines ++ rest) =
      .error (.valueError message) := by
  induction lines generalizing values with
  | nil => exact absurd (by simp) h
  | cons l lines ih =>
    rw [List.cons_append]
    cases hl : startsWith "  - ".toList l with
    | true =>
      have hstep : parseFrontmatterFrom rt (some (key, values)) (l :: (lines ++ rest)) =
          parseFrontmatterFrom rt (some (key, values ++
            [parseYamlScalar rt (stripWith isSpace (l.drop 4))])) (lines ++ rest) := by
        rw [parseFrontmatterFrom]
        exact hl
      rw [hstep]
      apply ih fun k hk => hlines k (List.mem_cons_of_mem _ hk)
      intro hall
      apply h
      intro k hk
      obtain rfl | hk := List.mem_cons.mp hk
      · exact hl
      · exact hall k hk
    | false =>
      obtain ⟨hpad, hblank⟩ := hlines l (List.mem_cons_self ..)
      have hspace : startsWith [' '] l = true := by
        rw [startsWith, List.isPrefixOf_iff_prefix]
        exact List.IsPrefix.trans ⟨[' '], rfl⟩ hpad
      refine ⟨s!"unsupported frontmatter line: {String.ofList l}", ?_⟩
      generalize some (key, values) = listing
      rw [parseFrontmatterFrom, frontmatterLine, if_neg (by simp [hblank]), if_pos (.inl hspace)]
      · rfl
      · intro _ _ _ htrue
        rw [hl] at htrue
        cases htrue

/-- The lines of a member: one, or its key and the lines below it. -/
theorem memberLines_cases (pr : NotePrinting) {m : String × Json} (h : WellWritten m) :
    m.2.isFlat = true ∧ memberLines pr m = [memberText pr m] ∨
      m.2.isFlat = false ∧ ∃ t, yamlValue pr 0 m.2 = '\n' :: t ∧ Indented 2 t ∧
        memberLines pr m = (m.1.toList ++ ':' :: ' ' :: []) :: splitlines t := by
  have hentry := (yamlValue_shape pr m.2 0 h.unbroken).entry (isLine_key h.key) (by simp)
  rw [List.append_assoc] at hentry
  exact hentry.2

/-- A member ends in no line boundary. -/
theorem memberText_last {m : String × Json} (h : WellWritten m) :
    ∀ c, (memberText pr m).getLast? = some c → isLineBreak c = false := by
  have hentry := (yamlValue_shape pr m.2 0 h.unbroken).entry (isLine_key h.key) (by simp)
  rw [List.append_assoc] at hentry
  exact hentry.1

variable (rt) in
/-- Lines that are read as members, whatever follows them. -/
def Consumes (listing : Option (List Char × List FrontmatterScalar)) (lines : List (List Char))
    (f : Frontmatter) (listing' : Option (List Char × List FrontmatterScalar)) : Prop :=
  ∀ rest, parseFrontmatterFrom rt listing (lines ++ rest) =
    (parseFrontmatterFrom rt listing' rest).map fun g => f ++ g

/-- Lines read one part after the other are read together. -/
theorem Consumes.append {a b c : Option (List Char × List FrontmatterScalar)}
    {ks ls : List (List Char)} {f g : Frontmatter} (hks : Consumes rt a ks f b)
    (hls : Consumes rt b ls g c) : Consumes rt a (ks ++ ls) (f ++ g) c := by
  intro rest
  rw [List.append_assoc, hks, hls, Except.map_map]
  simp only [List.append_assoc]

/-- A member whose lines are list items is read. -/
theorem parse_member (rt : NoteRuntime) {m : String × Json} (h : WellWritten m)
    (hlisted : Listed pr m.2)
    (listing : Option (List Char × List FrontmatterScalar)) :
    ∃ f listing', Consumes rt listing (memberLines pr m) f listing' ∧
      f ++ listMember listing' = listMember listing ++ [(m.1.toList, readValue rt pr m.2)] := by
  obtain ⟨hflat, hlines⟩ | ⟨hnested, t, hvalue, -, hlines⟩ := memberLines_cases pr h
  · rw [readValue, if_pos hflat]
    by_cases hblank : stripWith isSpace (yamlValue pr 0 m.2) = []
    · refine ⟨listMember listing, some (m.1.toList, []), ?_, ?_⟩
      · intro rest
        rw [hlines, List.singleton_append, memberText, parse_key h.key, if_pos hblank]
      · rw [flatValue, if_pos hblank]
        rfl
    · refine ⟨listMember listing ++ [(m.1.toList, flatValue rt pr m.2)], none, ?_,
        by simp [listMember]⟩
      intro rest
      rw [hlines, List.singleton_append, memberText, parse_key h.key, if_neg hblank, flatValue,
        if_neg hblank]
      simp
  · have hitems := hlisted hnested t hvalue
    rw [readValue, if_neg (by rw [hnested]; decide), hvalue, List.tail_cons]
    refine ⟨listMember listing, some (m.1.toList, (splitlines t).map fun l =>
        parseYamlScalar rt (stripWith isSpace (l.drop 4))), ?_, rfl⟩
    intro rest
    rw [hlines, List.cons_append, parse_key h.key, if_pos (by decide), parse_items hitems]
    rfl

variable (rt pr) in
/-- What is read of members. -/
def readMembers (ms : JsonObject) : Frontmatter :=
  ms.map fun m => (m.1.toList, readValue rt pr m.2)

/-- Members whose lines are list items are read in order. -/
theorem parse_members (rt : NoteRuntime) {ms : JsonObject}
    (h : ∀ m ∈ ms, WellWritten m ∧ Listed pr m.2)
    (listing : Option (List Char × List FrontmatterScalar)) :
    ∃ f listing', Consumes rt listing (ms.flatMap (memberLines pr)) f listing' ∧
      f ++ listMember listing' = listMember listing ++ readMembers rt pr ms := by
  induction ms generalizing listing with
  | nil =>
    refine ⟨[], listing, ?_, by simp [readMembers]⟩
    intro rest
    simp only [List.flatMap_nil, List.nil_append]
    cases parseFrontmatterFrom rt listing rest <;> rfl
  | cons m ms ih =>
    obtain ⟨hm, hlisted⟩ := h m (List.mem_cons_self ..)
    obtain ⟨f, next, hfirst, hf⟩ := parse_member rt hm hlisted listing
    obtain ⟨g, last, hrest, hg⟩ := ih (fun k hk => h k (List.mem_cons_of_mem _ hk)) next
    refine ⟨f ++ g, last, hfirst.append hrest, ?_⟩
    rw [List.append_assoc, hg, ← List.append_assoc, hf, List.append_assoc, List.singleton_append]
    rfl

/-- Frontmatter whose lists are list items is read. -/
theorem parseFrontmatter_eq (rt : NoteRuntime) {ms : JsonObject}
    (h : ∀ m ∈ ms, WellWritten m ∧ Listed pr m.2) :
    parseFrontmatter rt (ms.flatMap (memberLines pr)) = .ok (readMembers rt pr ms) := by
  obtain ⟨f, last, hlines, hf⟩ := parse_members rt h none
  have hparse := hlines []
  rw [List.append_nil] at hparse
  rw [parseFrontmatter, hparse, parseFrontmatterFrom, Except.map, hf]
  rfl

/-- Each member is read as the reading lists it. -/
theorem reads_readMembers (ms : JsonObject) :
    List.Forall₂ (ReadsAs rt pr) ms (readMembers rt pr ms) := by
  induction ms with
  | nil => exact .nil
  | cons m ms ih => exact .cons ⟨rfl, fun hflat => if_pos hflat⟩ ih

/-- The lines written for well-written members are parsed, one entry for each member. -/
theorem parseFrontmatter_members (rt : NoteRuntime) {ms : JsonObject}
    (h : ∀ m ∈ ms, WellWritten m ∧ Listed pr m.2) :
    ∃ es, parseFrontmatter rt (ms.flatMap (memberLines pr)) = .ok es ∧
      List.Forall₂ (ReadsAs rt pr) ms es :=
  ⟨_, parseFrontmatter_eq rt h, reads_readMembers ms⟩

/-- Frontmatter with a member below which a line is no list item is rejected. -/
theorem parseFrontmatter_unlisted (rt : NoteRuntime) {ms : JsonObject} {m : String × Json}
    (h : ∀ m ∈ ms, WellWritten m ∧ Listed pr m.2) (hm : WellWritten m) (hlisted : ¬ Listed pr m.2) :
    ∃ message, parseFrontmatter rt ((ms ++ [m]).flatMap (memberLines pr)) =
      .error (.valueError message) := by
  obtain ⟨f, last, hlines, -⟩ := parse_members rt h none
  obtain ⟨hflat, -⟩ | ⟨-, t, hvalue, ht, hmember⟩ := memberLines_cases pr hm
  · exact absurd (fun hnested => by rw [hflat] at hnested; cases hnested) hlisted
  · have hitems : ¬ ∀ l ∈ splitlines t, isItem l = true := by
      intro hall
      apply hlisted
      intro _ u hu
      rw [hvalue] at hu
      cases hu
      exact hall
    obtain ⟨message, hmessage⟩ := parse_unlisted rt ht.lines hitems m.1.toList [] []
    refine ⟨message, ?_⟩
    rw [List.append_nil] at hmessage
    have hparse := hlines (memberLines pr m)
    rw [parseFrontmatter, List.flatMap_append, List.flatMap_singleton, hparse, hmember,
      parse_key hm.key, if_pos (by decide), hmessage]
    rfl

/-- The members that were read are found under their names. -/
theorem get_of_reads {ms : JsonObject} {es : Frontmatter} (h : List.Forall₂ (ReadsAs rt pr) ms es)
    {key : String} {v : Json} (hv : ms.get key = some v) (hflat : v.isFlat = true) :
    es.get key = some (flatValue rt pr v) := by
  have hrev : List.Forall₂ (ReadsAs rt pr) ms.reverse es.reverse := List.rel_reverse h
  unfold JsonObject.get at hv
  unfold Frontmatter.get
  generalize ms.reverse = ms' at hv hrev
  generalize es.reverse = es' at hrev
  induction hrev with
  | nil => cases hv
  | @cons m e ms' es' he _ ih =>
    obtain ⟨hname, hvalue⟩ := he
    by_cases hkey : m.1 = key
    · rw [List.find?_cons_of_pos (by simpa using hkey)] at hv
      rw [List.find?_cons_of_pos (by rw [hname, hkey]; simp)]
      obtain rfl : m.2 = v := by simpa using hv
      rw [Option.map_some, hvalue hflat]
    · have hne : e.1 ≠ key.toList := by
        rw [hname]
        exact fun h => hkey (String.toList_inj.mp h)
      rw [List.find?_cons_of_neg (by simpa using hkey)] at hv
      rw [List.find?_cons_of_neg (by simpa using hne)]
      exact ih hv

section Scalars

/-- A printed text has quotes at its ends. -/
theorem stripWith_quoted (s : List Char) : stripWith isSpace (quoted s) = quoted s := by
  rw [quoted]
  apply stripWith_of_ends
  · intro c hc
    cases hc
    decide
  · intro c hc
    rw [List.getLast?_concat] at hc
    cases hc
    decide

/-- A quoted text is no keyword that begins without a quote. -/
theorem quoted_ne {word : String} (h : word.toList.head? ≠ some '"') (s : List Char) :
    quoted s ≠ word.toList := by
  intro he
  rw [← he] at h
  exact h rfl

/-- A printed text is read back. -/
theorem parseYamlScalar_quoted (s : List Char) : parseYamlScalar rt (quoted s) = .str s := by
  have hends : 2 ≤ (quoted s).length ∧ (quoted s).head? = some '"' ∧
      (quoted s).getLast? = some '"' := by
    refine ⟨by simp [quoted], rfl, ?_⟩
    rw [quoted, List.getLast?_concat]
  have hbody : (quoted s).tail.dropLast =
      replace ['"'] ['\\', '"'] (replace ['\\'] ['\\', '\\'] s) := by
    rw [quoted, List.cons_append, List.tail_cons, List.dropLast_concat]
  rw [parseYamlScalar, if_neg (quoted_ne (by decide) s), if_neg (quoted_ne (by decide) s),
    if_neg (quoted_ne (by decide) s), if_neg (quoted_ne (by decide) s),
    if_neg (quoted_ne (by decide) s), if_pos hends, hbody, replace_escaped (by decide),
    replace_doubled]

/-- A text is read back. -/
theorem flatValue_str (s : String) : flatValue rt pr (.str s) = .scalar (.str s.toList) := by
  have hne : quoted s.toList ≠ [] := List.cons_ne_nil _ _
  rw [flatValue, yamlValue, stripWith_quoted, if_neg hne, parseYamlScalar_quoted]

/-- A number is read back. -/
theorem flatValue_int (n : ℤ) : flatValue rt pr (.int n) = .scalar (.int n) := by
  have hchars : ∀ c ∈ (toString n).toList, c.isDigit = true ∨ c = '-' := fun _ => mem_toString
  have hread := readInt_toString_int rt.unicode n
  have hstrip : stripWith isSpace (toString n).toList = (toString n).toList := by
    apply stripWith_of_all_not
    intro c hc
    obtain hdigit | rfl := hchars c hc
    · have := bounds_of_isDigit hdigit
      simp only [isSpace, Bool.or_eq_false_iff, Bool.and_eq_false_iff, decide_eq_false_iff_not,
        beq_eq_false_iff_ne]
      omega
    · decide
  have hne : (toString n).toList ≠ [] := by
    intro hnil
    rw [hnil] at hread
    cases hread
  have hword : ∀ word : String, (word.toList.any fun c => !c.isDigit && c != '-') = true →
      (toString n).toList ≠ word.toList := by
    intro word hany he
    obtain ⟨c, hc, hdigit⟩ := List.any_eq_true.mp hany
    rw [← he] at hc
    obtain hprinted | rfl := hchars c hc
    · rw [hprinted] at hdigit
      cases hdigit
    · cases hdigit
  have hquote : (toString n).toList.head? ≠ some '"' := by
    intro hhead
    obtain hdigit | heq := hchars _ (List.mem_of_mem_head? hhead)
    · exact absurd hdigit (by decide)
    · exact absurd heq (by decide)
  rw [flatValue, yamlValue, hstrip, if_neg hne, parseYamlScalar, if_neg (hword _ (by decide)),
    if_neg (hword _ (by decide)), if_neg (hword _ (by decide)), if_neg (hword _ (by decide)),
    if_neg (hword _ (by decide)), if_neg fun h => hquote h.2.1, hread]

end Scalars

/-- The members of an object are written one behind the other, each under its own key. -/
theorem yamlMembers_eq (pad : ℕ) (members : List (String × Json)) :
    yamlMembers pr pad members = members.map fun m =>
      (m.1, List.replicate pad ' ' ++ (m.1.toList ++ ':' :: ' ' :: yamlValue pr pad m.2)) := by
  induction members with
  | nil => rfl
  | cons m rest ih =>
    rw [yamlMembers, ih]
    rfl

/-- The items of an array are written one behind the other, each behind its dash. -/
theorem yamlItems_eq (pad : ℕ) (xs : List Json) :
    yamlItems pr pad xs =
      xs.map fun x => List.replicate pad ' ' ++ '-' :: ' ' :: yamlValue pr pad x := by
  induction xs with
  | nil => rfl
  | cons x rest ih =>
    rw [yamlItems, ih]
    rfl

/-- An indented text has lines. -/
theorem Indented.splitlines_ne {pad : ℕ} {t : List Char} (ht : Indented pad t) :
    splitlines t ≠ [] := by
  intro hnil
  have hsum := sum_length_splitlines t
  rw [hnil] at hsum
  have hlast := ht.last _ (List.getLast?_eq_some_getLast ht.ne)
  have hpos : 0 < t.countP fun c => !isLineBreak c := by
    rw [List.countP_pos_iff]
    exact ⟨t.getLast ht.ne, List.getLast_mem ht.ne, by simp [hlast]⟩
  rw [← hsum] at hpos
  cases hpos

/-- The lines of texts below a key. -/
theorem splitlines_items (pr : NotePrinting) {texts : List String} (hne : texts ≠ [])
    (h : ∀ s ∈ texts, IsLine s.toList) :
    splitlines (joinLines (yamlItems pr 2 (texts.map Json.str))) =
      texts.map fun s => "  - ".toList ++ quoted s.toList := by
  have hitems : yamlItems pr 2 (texts.map Json.str) =
      texts.map fun s => "  - ".toList ++ quoted s.toList := by
    rw [yamlItems_eq, List.map_map]
    rfl
  have hline : ∀ s ∈ texts, IsLine ("  - ".toList ++ quoted s.toList) :=
    fun s hs => IsLine.append (by decide) (isLine_quoted (h s hs))
  have hindented : ∀ u ∈ yamlItems pr 2 (texts.map Json.str), Indented 2 u := by
    intro u hu
    rw [hitems] at hu
    obtain ⟨s, hs, rfl⟩ := List.mem_map.mp hu
    apply indented_item (v := .str s)
    exact ⟨fun _ => isLine_quoted (h s hs), fun h => by cases h⟩
  have hnonempty : yamlItems pr 2 (texts.map Json.str) ≠ [] := by
    rw [hitems]
    simpa using hne
  rw [(Indented.joinLines hnonempty hindented).2, hitems, List.flatMap_map,
    List.flatMap_congr fun s hs => (hline s hs).splitlines_eq (by simp)]
  exact List.map_eq_flatMap.symm

/-- Texts below a key are list items. -/
theorem listed_texts (texts : List String) (h : ∀ s ∈ texts, IsLine s.toList) :
    Listed pr (.arr (texts.map Json.str)) := by
  intro hnested t ht
  have hne : texts ≠ [] := by
    rintro rfl
    cases hnested
  rw [yamlValue, if_neg (by simpa using hne)] at ht
  obtain rfl := (List.cons.inj ht).2
  rw [splitlines_items pr hne h]
  intro l hl
  obtain ⟨s, -, rfl⟩ := List.mem_map.mp hl
  rfl

/-- Metadata that is written as list items: its names start with a dash and a space, and its values
stand behind them. -/
def FlatMetadata (metadata : JsonObject) : Prop :=
  ∀ m ∈ metadata, startsWith ['-', ' '] m.1.toList = true ∧ m.2.isFlat = true

/-- The name of a member tells whether its line is a list item. -/
theorem isItem_member (key s : List Char) :
    isItem (List.replicate 2 ' ' ++ (key ++ ':' :: s)) = startsWith ['-', ' '] key := by
  have hmark : "  - ".toList = [' ', ' ', '-', ' '] := by decide
  rw [isItem, hmark]
  cases key with
  | nil => simp [startsWith, List.isPrefixOf]
  | cons c key =>
    cases key with
    | nil => simp [startsWith, List.isPrefixOf]
    | cons d key => simp [startsWith, List.isPrefixOf, List.replicate]

/-- A line that is indented further is no list item. -/
theorem isItem_deeper {l : List Char} (h : List.replicate 4 ' ' <+: l) : isItem l = false := by
  obtain ⟨rest, rfl⟩ := h
  rfl

/-- The lines of one member of metadata. -/
theorem isItem_lines_iff (pr : NotePrinting) {m : String × Json} (hkey : IsLine m.1.toList)
    (hvalue : m.2.Unbroken) :
    (∀ l ∈ splitlines (List.replicate 2 ' ' ++ (m.1.toList ++ ':' :: ' ' :: yamlValue pr 2 m.2)),
      isItem l = true) ↔ startsWith ['-', ' '] m.1.toList = true ∧ m.2.isFlat = true := by
  have hbefore : IsLine (List.replicate 2 ' ' ++ (m.1.toList ++ [':', ' '])) :=
    IsLine.append (by decide) (hkey.append (by decide))
  have hentry := ((yamlValue_shape pr m.2 2 hvalue).entry hbefore (by simp)).2
  simp only [List.append_assoc, List.cons_append, List.nil_append] at hentry
  obtain ⟨hflat, hlines⟩ | ⟨hnested, t, -, ht, hlines⟩ := hentry
  · rw [hlines]
    simp only [List.mem_singleton, forall_eq, hflat, and_true]
    rw [isItem_member]
  · rw [hlines, hnested]
    constructor
    · intro hall
      obtain ⟨l, ls, hl⟩ := List.exists_cons_of_ne_nil ht.splitlines_ne
      have hmem : l ∈ splitlines t := by
        rw [hl]
        exact List.mem_cons_self ..
      have hitem := hall l (List.mem_cons_of_mem _ hmem)
      rw [isItem_deeper (ht.lines l hmem).1] at hitem
      cases hitem
    · rintro ⟨-, h⟩
      cases h

/-- A dictionary without boundaries in its texts has members without them. -/
theorem unbroken_member {members : List (String × Json)} (h : (Json.obj members).Unbroken)
    {m : String × Json} (hm : m ∈ members) : IsLine m.1.toList ∧ m.2.Unbroken := by
  induction members with
  | nil => cases hm
  | cons k rest ih =>
    have hsplit : ∀ c, isLineBreak c = true → k.1.toList.contains c = false ∧
        Json.mentions c k.2 = false ∧ Json.mentionsMembers c rest = false := by
      intro c hc
      have := h c hc
      simpa [Json.mentions, Json.mentionsMembers, and_assoc] using this
    obtain rfl | hm := List.mem_cons.mp hm
    · exact ⟨isLine_of_mentions fun c hc => (hsplit c hc).1, fun c hc => (hsplit c hc).2.1⟩
    · exact ih (fun c hc => (hsplit c hc).2.2) hm

/-- The lines below the key of metadata are list items exactly for flat metadata. -/
theorem listed_metadata {metadata : JsonObject} (h : (Json.obj metadata).Unbroken) :
    Listed pr (.obj metadata) ↔ FlatMetadata metadata := by
  by_cases hne : metadata = []
  · subst hne
    constructor
    · intro _ m hm
      cases hm
    · intro _ hnested
      cases hnested
  set entries := yamlMembers pr 2 metadata with hentries
  set texts := (sortedBy Prod.fst entries).map Prod.snd with htexts
  have hmem : ∀ u, u ∈ texts ↔ ∃ m ∈ metadata,
      u = List.replicate 2 ' ' ++ (m.1.toList ++ ':' :: ' ' :: yamlValue pr 2 m.2) := by
    intro u
    rw [htexts, List.mem_map, hentries, yamlMembers_eq]
    constructor
    · rintro ⟨e, he, rfl⟩
      obtain ⟨m, hm, rfl⟩ := List.mem_map.mp ((mem_sortedBy ..).mp he)
      exact ⟨m, hm, rfl⟩
    · rintro ⟨m, hm, rfl⟩
      exact ⟨_, (mem_sortedBy ..).mpr (List.mem_map.mpr ⟨m, hm, rfl⟩), rfl⟩
  have hindented : ∀ u ∈ texts, Indented 2 u := by
    intro u hu
    obtain ⟨e, he, rfl⟩ := List.mem_map.mp hu
    exact yamlMembers_indented pr metadata 2 h e ((mem_sortedBy ..).mp he)
  have htextsNe : texts ≠ [] := by
    obtain ⟨m, hm⟩ := List.exists_mem_of_ne_nil _ hne
    exact List.ne_nil_of_mem ((hmem _).mpr ⟨m, hm, rfl⟩)
  have hvalue : yamlValue pr 0 (.obj metadata) = '\n' :: joinLines texts := by
    rw [yamlValue, if_neg (by simpa using hne)]
  have hlines := (Indented.joinLines htextsNe hindented).2
  have hnested : (Json.obj metadata).isFlat = false := by simpa [Json.isFlat] using hne
  constructor
  · intro hlisted m hm
    rw [← isItem_lines_iff pr (unbroken_member h hm).1 (unbroken_member h hm).2]
    intro l hl
    apply hlisted hnested _ hvalue
    rw [hlines]
    exact List.mem_flatMap.mpr ⟨_, (hmem _).mpr ⟨m, hm, rfl⟩, hl⟩
  · intro hflat _ t ht
    rw [hvalue] at ht
    obtain rfl := (List.cons.inj ht).2
    rw [hlines]
    intro l hl
    obtain ⟨u, hu, hl⟩ := List.mem_flatMap.mp hl
    obtain ⟨m, hm, rfl⟩ := (hmem u).mp hu
    exact (isItem_lines_iff pr (unbroken_member h hm).1 (unbroken_member h hm).2).mpr
      (hflat m hm) l hl

/-- A text of one line has no line break to be written. -/
theorem unbroken_str {s : String} (h : IsLine s.toList) : (Json.str s).Unbroken := by
  intro c hc
  rw [Json.mentions, Bool.eq_false_iff, ne_eq, List.contains_iff_mem]
  intro hmem
  rw [h c hmem] at hc
  cases hc

/-- A list of one-line texts has no line break to be written. -/
theorem unbroken_texts {texts : List String} (h : ∀ s ∈ texts, IsLine s.toList) :
    (Json.arr (texts.map Json.str)).Unbroken := by
  intro c hc
  induction texts with
  | nil => rfl
  | cons s texts ih =>
    have hs := unbroken_str (h s (List.mem_cons_self ..)) c hc
    have hrest := ih fun t ht => h t (List.mem_cons_of_mem _ ht)
    exact Bool.or_eq_false_iff.mpr ⟨hs, hrest⟩

/-- A value on the line of its key. -/
theorem wellWritten_flat {key : String} {v : Json} (hkey : IsKey key) (hv : v.Unbroken)
    (hflat : v.isFlat = true) : WellWritten (key, v) ∧ Listed pr v := by
  refine ⟨⟨hkey, hv⟩, ?_⟩
  intro hnested
  rw [hflat] at hnested
  cases hnested

/-- The lines of joined texts that another line follows. -/
theorem splitlines_texts {texts : List (List Char)}
    (h : ∀ t ∈ texts, t ≠ [] ∧ ∀ c, t.getLast? = some c → isLineBreak c = false) (hne : texts ≠ [])
    (rest : List Char) :
    splitlines (joinLines texts ++ '\n' :: rest) = texts.flatMap splitlines ++ splitlines rest := by
  induction texts with
  | nil => exact absurd rfl hne
  | cons t texts ih =>
    obtain ⟨htne, hlast⟩ := h t (List.mem_cons_self ..)
    by_cases hnil : texts = []
    · subst hnil
      rw [joinLines_singleton, splitlines_before htne hlast]
      simp
    · rw [joinLines_cons hnil, List.append_assoc, List.cons_append, splitlines_before htne hlast,
        ih (fun u hu => h u (List.mem_cons_of_mem _ hu)) hnil, List.flatMap_cons, List.append_assoc]

/-- The lines of the frontmatter. -/
theorem splitlines_frontmatter {ms : JsonObject} (h : ∀ m ∈ ms, WellWritten m) (rest : List Char) :
    splitlines (frontmatter pr ms ++ '\n' :: rest) =
      "---".toList :: (ms.flatMap (memberLines pr) ++ "---".toList :: splitlines rest) := by
  have hruler : splitlines "---".toList = ["---".toList] := by decide
  rw [frontmatter, splitlines_texts _ (by simp)]
  · simp only [List.flatMap_cons, List.flatMap_append, List.flatMap_nil, List.append_nil, hruler,
      List.cons_append, List.append_assoc, List.nil_append, List.flatMap_map]
    rfl
  · intro t ht
    have hrulerLast : ∀ c, "---".toList.getLast? = some c → isLineBreak c = false := by
      intro c hc
      cases hc
      decide
    simp only [List.mem_cons, List.mem_append, List.mem_map, List.not_mem_nil, or_false] at ht
    obtain (rfl | ⟨m, hm, rfl⟩) | rfl := ht
    · exact ⟨by decide, hrulerLast⟩
    · exact ⟨by simp, memberText_last (h m hm)⟩
    · exact ⟨by decide, hrulerLast⟩

/-- No line of a member is a ruler. -/
theorem ne_ruler {m : String × Json} (h : WellWritten m) : "---".toList ∉ memberLines pr m := by
  have hcolon : ':' ∉ "---".toList := by decide
  obtain ⟨-, hlines⟩ | ⟨-, t, -, ht, hlines⟩ := memberLines_cases pr h
  · rw [hlines, List.mem_singleton]
    intro he
    apply hcolon
    rw [he, memberText]
    simp
  · rw [hlines, List.mem_cons, not_or]
    refine ⟨fun he => ?_, fun hmem => ?_⟩
    · apply hcolon
      rw [he]
      simp
    · obtain ⟨rest, hrest⟩ := (ht.lines _ hmem).1
      have hspace : ' ' ∈ "---".toList := by
        rw [← hrest]
        simp
      exact absurd hspace (by decide)

/-- A scan that stops at a character does not see what stands behind it. -/
theorem takeWhile_append_stop {α : Type} {p : α → Bool} {x : α} (hx : p x = false)
    (xs ys : List α) :
    (xs ++ x :: ys).takeWhile p = xs.takeWhile p := by
  induction xs with
  | nil => simp [hx]
  | cons a xs ih => simp [List.takeWhile_cons, ih]

end Reading

end VaultExporter

end MemoryPlane
