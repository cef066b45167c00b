import MemoryPlane.Lib.PatternCuts
import MemoryPlane.Services.Redaction

/-!
# Redacting a redacted text

Redaction leaves the pieces of the text between the findings, with a mark at each cut. The brackets
of a mark stop every pattern but two: the characters of a password may run on into the mark, and
anything may stand between the first and the last line of a private key.
-/

namespace MemoryPlane

/-- What the tables say about ASCII characters. -/
structure Unicode.AsciiLaws (u : Unicode) : Prop where
  isAlnum_ascii : ∀ c, c.toNat < 128 → u.isAlnum c = c.isAlphanum
  sameIgnoringCase_ascii : ∀ p c, p.isLower = true → c.toNat < 128 →
    u.sameIgnoringCase p c = (p == c.toLower)

namespace PrivacyGuard

/-- The text of a mark between its brackets. -/
def markBody (kind : String) : List Char := "REDACTED:".toList ++ kind.toList

/-- The parts of the text from a position on that lie between the findings. -/
def kept (text : List Char) (i : ℕ) : List PrivacyFinding → List (List Char)
  | [] => [text.drop i]
  | f :: fs => slice text i f.start :: kept text f.stop fs

/-- The matches of a detector that its check lets through. -/
def found (d : Detector) (text : List Char) : List (ℕ × ℕ) :=
  (d.finditer text).filter fun m => d.validator (slice text m.1 m.2)

/-- `\bpassword\s*[:=]\s*['"]?` under `(?i)`. -/
def passwordStart (u : Unicode) : Pattern Char :=
  .sequence [.boundary u.isWord, literalIgnoringCase u "password", .star space, .char isAssign,
    .star space, .optional (.char isQuote)]

/-- `[^'"\s]`. -/
def isPlain (c : Char) : Bool := !isQuote c && !isSpace c

/-- `-----BEGIN [A-Z ]*PRIVATE KEY-----`. -/
def keyHeader : Pattern Char :=
  .sequence [.literal "-----BEGIN ".toList, keyLabel, .literal "PRIVATE KEY-----".toList]

/-- `-----END [A-Z ]*PRIVATE KEY-----`. -/
def keyFooter : Pattern Char :=
  .sequence [.literal "-----END ".toList, keyLabel, .literal "PRIVATE KEY-----".toList]

/-- The text ends in a password that has begun. -/
def PasswordOpen (u : Unicode) (text : List Char) : Prop :=
  ∃ i ≤ text.length, ∃ j ∈ (passwordStart u).ends text i, ∀ c ∈ text.drop j, isPlain c = true

/-- Parts that can stand with marks between them: none has a finding of its own, none but the last
ends in a password that has begun, and no private key begins in one and ends in a later one. -/
structure Settled (u : Unicode) (parts : List (List Char)) : Prop where
  clean : ∀ part ∈ parts, (standardGuard u).scan (String.ofList part) = []
  closed : ∀ part ∈ parts.dropLast, ¬ PasswordOpen u part
  apart : parts.Pairwise fun first second =>
    ¬ (keyHeader.Occurs first ∧ keyFooter.Occurs second)

variable {u : Unicode} {text s t : List Char} {b : Char}

/-- A mark is its body between one opening and one closing bracket. -/
theorem mark_eq (f : PrivacyFinding) : mark f = '[' :: (markBody f.kind ++ [']']) := by
  have hopen : "[REDACTED:".toList = '[' :: "REDACTED:".toList := by decide
  have hclose : "]".toList = [']'] := by decide
  have htext : s!"[REDACTED:{f.kind}]" = "[REDACTED:" ++ f.kind ++ "]" := rfl
  have hshape : ∀ word kind : List Char,
      '[' :: word ++ kind ++ [']'] = '[' :: (word ++ kind ++ [']']) := fun _ _ => rfl
  rw [mark, htext, String.toList_append, String.toList_append, hopen, hclose]
  exact hshape "REDACTED:".toList f.kind.toList

/-- The password pattern split where the rounds over the secret begin. -/
theorem passwordAssignment_eq (u : Unicode) : passwordAssignment u =
    .sequence ([.boundary u.isWord, literalIgnoringCase u "password", .star space, .char isAssign,
      .star space, .optional (.char isQuote)] ++ [.rounds true 8 none (.char isPlain)]) := rfl

/-- The private key pattern split into its header line, the gap and its footer line. -/
theorem privateKey_eq : privateKey =
    .sequence ([.literal "-----BEGIN ".toList, keyLabel, .literal "PRIVATE KEY-----".toList] ++
      ([.rounds false 1 none (.char fun _ => true)] ++
        [.literal "-----END ".toList, keyLabel, .literal "PRIVATE KEY-----".toList])) := by
  simp only [privateKey, List.cons_append, List.nil_append]

section Brackets

variable (hu : u.AsciiLaws) (hb : b = '[' ∨ b = ']')
include hu hb

/-- No bracket is a word character, so a mark is a word boundary on both sides. -/
theorem isWord_bracket : u.isWord b = false := by
  have hascii : b.toNat < 128 := by
    obtain rfl | rfl := hb <;> decide
  rw [Unicode.isWord, hu.isAlnum_ascii b hascii]
  obtain rfl | rfl := hb <;> decide

/-- Folding case never turns a bracket into a lowercase letter. -/
theorem sameIgnoringCase_bracket {p : Char} (hp : p.isLower = true) :
    u.sameIgnoringCase p b = false := by
  have hascii : b.toNat < 128 := by
    obtain rfl | rfl := hb <;> decide
  have hlower : b.toLower.isLower = false := by
    obtain rfl | rfl := hb <;> decide
  rw [hu.sameIgnoringCase_ascii p b hp hascii]
  apply beq_false_of_ne
  rintro rfl
  rw [hlower] at hp
  cases hp

omit hu in
/-- Neither bracket is white space. -/
theorem isSpace_bracket : isSpace b = false := by
  obtain rfl | rfl := hb <;> decide

omit hu in
/-- Neither bracket stands for an assignment. -/
theorem isAssign_bracket : isAssign b = false := by
  obtain rfl | rfl := hb <;> decide

omit hu in
/-- Neither bracket is a quote. -/
theorem isQuote_bracket : isQuote b = false := by
  obtain rfl | rfl := hb <;> decide

/-- Neither bracket belongs to a bearer token. -/
theorem isTokenChar_bracket : isTokenChar u b = false := by
  have hletter : isLetter u b = false := by
    rw [isLetter, List.any_eq_false]
    intro p hp
    have hlower : p.isLower = true := by
      have hall : "abcdefghijklmnopqrstuvwxyz".toList.all Char.isLower = true := by decide
      exact List.all_eq_true.mp hall p hp
    rw [sameIgnoringCase_bracket hu hb hlower]
    simp
  rw [isTokenChar, hletter]
  obtain rfl | rfl := hb <;> decide

/-- A lowercase keyword matches no bracket, whatever the casing. -/
theorem avoids_literalIgnoringCase {word : String} (h : word.toList.all Char.isLower = true) :
    (literalIgnoringCase u word).Avoids b := by
  rw [literalIgnoringCase, Pattern.avoids_sequence]
  intro p hp
  obtain ⟨c, hc, rfl⟩ := List.mem_map.mp hp
  exact sameIgnoringCase_bracket hu hb (List.all_eq_true.mp h c hc)

omit hu in
/-- Neither bracket is a digit. -/
theorem isDigit_bracket : u.isDigit b = false := by
  have hdigit : b.isDigit = false := by
    obtain rfl | rfl := hb <;> decide
  have hascii : b.toNat < 128 := by
    obtain rfl | rfl := hb <;> decide
  rw [Unicode.isDigit, Unicode.digit, if_neg (by simp [hdigit]), if_pos hascii]
  rfl

/-- The OpenAI key pattern consumes no bracket. -/
theorem avoids_openaiApiKey : (openaiApiKey u).Avoids b := by
  rw [openaiApiKey, Pattern.avoids_sequence]
  simp only [List.forall_mem_cons, List.not_mem_nil, IsEmpty.forall_iff, implies_true, and_true]
  refine ⟨isWord_bracket hu hb, Pattern.avoids_literal ?_, ?_, isWord_bracket hu hb⟩
  · obtain rfl | rfl := hb <;> decide
  · change (_ : Bool) = false
    obtain rfl | rfl := hb <;> decide

/-- The AWS key pattern consumes no bracket. -/
theorem avoids_awsAccessKey : (awsAccessKey u).Avoids b := by
  rw [awsAccessKey, Pattern.avoids_sequence]
  simp only [List.forall_mem_cons, List.not_mem_nil, IsEmpty.forall_iff, implies_true, and_true]
  refine ⟨isWord_bracket hu hb, Pattern.avoids_literal ?_, ?_, isWord_bracket hu hb⟩
  · obtain rfl | rfl := hb <;> decide
  · change (_ : Bool) = false
    obtain rfl | rfl := hb <;> decide

/-- The bearer token pattern consumes no bracket. -/
theorem avoids_bearerToken : (bearerToken u).Avoids b := by
  rw [bearerToken, Pattern.avoids_sequence]
  simp only [List.forall_mem_cons, List.not_mem_nil, IsEmpty.forall_iff, implies_true, and_true]
  exact ⟨isWord_bracket hu hb, avoids_literalIgnoringCase hu hb (by decide), isSpace_bracket hb,
    isTokenChar_bracket hu hb⟩

/-- Up to its secret the password pattern consumes no bracket; the secret itself may. -/
theorem avoids_passwordStart : (passwordStart u).Avoids b := by
  rw [passwordStart, Pattern.avoids_sequence]
  simp only [List.forall_mem_cons, List.not_mem_nil, IsEmpty.forall_iff, implies_true, and_true]
  exact ⟨isWord_bracket hu hb, avoids_literalIgnoringCase hu hb (by decide), isSpace_bracket hb,
    isAssign_bracket hb, isSpace_bracket hb, isQuote_bracket hb⟩

/-- The API key pattern consumes no bracket. -/
theorem avoids_apiKeyAssignment : (apiKeyAssignment u).Avoids b := by
  rw [apiKeyAssignment, Pattern.avoids_sequence]
  simp only [List.forall_mem_cons, List.not_mem_nil, IsEmpty.forall_iff, implies_true, and_true]
  have hlink : (decide (b = '_') || decide (b = '-')) = false := by
    obtain rfl | rfl := hb <;> decide
  have hapi : (literalIgnoringCase u "api").Avoids b :=
    avoids_literalIgnoringCase hu hb (by decide)
  have hkey : (literalIgnoringCase u "key").Avoids b :=
    avoids_literalIgnoringCase hu hb (by decide)
  have htoken : (literalIgnoringCase u "token").Avoids b :=
    avoids_literalIgnoringCase hu hb (by decide)
  exact ⟨isWord_bracket hu hb, ⟨⟨hapi, hlink, hkey, trivial⟩, htoken⟩, isSpace_bracket hb,
    isAssign_bracket hb, isSpace_bracket hb, isQuote_bracket hb, isTokenChar_bracket hu hb⟩

/-- The SSN pattern consumes no bracket. -/
theorem avoids_ssn : (ssn u).Avoids b := by
  rw [ssn, Pattern.avoids_sequence]
  simp only [List.forall_mem_cons, List.not_mem_nil, IsEmpty.forall_iff, implies_true, and_true]
  have hdash : (Pattern.literal "-".toList).Avoids b := by
    apply Pattern.avoids_literal
    obtain rfl | rfl := hb <;> decide
  have hdigit : u.isDigit b = false := isDigit_bracket hb
  exact ⟨isWord_bracket hu hb, hdigit, hdash, hdigit, hdash, hdigit, isWord_bracket hu hb⟩

/-- The card pattern consumes no bracket. -/
theorem avoids_paymentCard : (paymentCard u).Avoids b := by
  rw [paymentCard, Pattern.avoids_sequence]
  simp only [List.forall_mem_cons, List.not_mem_nil, IsEmpty.forall_iff, implies_true, and_true]
  have hseparator : isSeparator b = false := by
    obtain rfl | rfl := hb <;> decide
  exact ⟨isWord_bracket hu hb, ⟨isDigit_bracket hb, hseparator⟩, isWord_bracket hu hb⟩

omit hu in
/-- A line of a private key consumes no bracket; only the gap between the lines does. -/
theorem avoids_keyLine {first : List Char} (h : b ∉ first) :
    (Pattern.sequence [.literal first, keyLabel, .literal "PRIVATE KEY-----".toList]).Avoids b := by
  rw [Pattern.avoids_sequence]
  simp only [List.forall_mem_cons, List.not_mem_nil, IsEmpty.forall_iff, implies_true, and_true]
  refine ⟨Pattern.avoids_literal h, ?_, Pattern.avoids_literal ?_⟩
  · change (_ : Bool) = false
    obtain rfl | rfl := hb <;> decide
  · obtain rfl | rfl := hb <;> decide

end Brackets

section Marks

variable {kind : String}

/-- The names of the detectors have no capital letters, digits, spaces or signs. -/
theorem markBody_chars (hk : kind ∈ (standardDetectors u).map Detector.kind) :
    ∀ c ∈ markBody kind, c ≠ '-' ∧ c ≠ 'K' ∧ isPlain c = true ∧ c.isDigit = false ∧
      c.toNat < 128 := by
  have hall : ["private_key", "openai_api_key", "aws_access_key", "bearer_token",
      "password_assignment", "api_key_assignment", "ssn", "payment_card"].all (fun kind =>
        (markBody kind).all fun c => decide (c ≠ '-' ∧ c ≠ 'K' ∧ isPlain c = true ∧
          c.isDigit = false ∧ c.toNat < 128)) = true := by
    decide +kernel
  intro c hc
  exact of_decide_eq_true (List.all_eq_true.mp (List.all_eq_true.mp hall kind hk) c hc)

/-- The body of a mark has no white space for a pattern to bridge. -/
theorem isSpace_markBody (hk : kind ∈ (standardDetectors u).map Detector.kind) :
    ∀ c ∈ markBody kind, isSpace c = false := by
  intro c hc
  have hplain := (markBody_chars hk c hc).2.2.1
  rw [isPlain, Bool.and_eq_true, Bool.not_eq_true'] at hplain
  simpa using hplain.2

/-- The body of a mark is long enough to complete a password of eight characters. -/
theorem length_markBody (kind : String) : 8 ≤ (markBody kind).length := by
  have hword : 8 ≤ "REDACTED:".toList.length := by decide
  exact hword.trans (List.sublist_append_left _ _).length_le

/-- The colon is the one sign of assignment in a mark. -/
theorem eq_of_isAssign_markBody (hk : kind ∈ (standardDetectors u).map Detector.kind) {i : ℕ}
    (h : ((markBody kind)[i]?).any isAssign = true) : i = 8 := by
  have hall : ["private_key", "openai_api_key", "aws_access_key", "bearer_token",
      "password_assignment", "api_key_assignment", "ssn", "payment_card"].all (fun kind =>
        (List.range (markBody kind).length).all fun i =>
          !((markBody kind)[i]?).any isAssign || i == 8) = true := by
    decide +kernel
  have hlt : i < (markBody kind).length := by
    by_contra hge
    rw [List.getElem?_eq_none (Nat.le_of_not_lt hge)] at h
    cases h
  have hi := List.all_eq_true.mp (List.all_eq_true.mp hall kind hk) i (List.mem_range.mpr hlt)
  rw [h] at hi
  simpa using hi

/-- A pattern that needs a character of some kind is absent from texts without one. -/
theorem not_occurs_of_needs {p : Pattern Char} {q : Char → Bool} (hp : p.Needs q)
    (h : ∀ c ∈ text, q c = false) : ¬ p.Occurs text := by
  rintro ⟨i, -, j, hj⟩
  obtain ⟨c, hc, hq⟩ := Pattern.exists_of_needs hp hj
  rw [h c hc] at hq
  cases hq

/-- A pattern that goes on with a sign of assignment, spaces before it or not, ends in a mark at the
colon. -/
theorem eq_of_assign (hk : kind ∈ (standardDetectors u).map Detector.kind)
    {ps : List (Pattern Char)} {i j : ℕ}
    (h : j ∈ (Pattern.sequence (.star space :: .char isAssign :: ps)).ends (markBody kind) i) :
    i = 8 := by
  obtain ⟨k, hstar, hrest⟩ := Pattern.mem_ends_sequence_cons.mp h
  obtain ⟨m, hassign, -⟩ := Pattern.mem_ends_sequence_cons.mp hrest
  obtain ⟨hsign, -⟩ := Pattern.mem_ends_char.mp hassign
  have hnospace : ((markBody kind)[i]?).any isSpace = false := by
    cases hc : (markBody kind)[i]? with
    | none => rfl
    | some c => exact isSpace_markBody hk c (List.mem_of_getElem? hc)
  have hrun : Pattern.run isSpace (markBody kind) i = 0 := by
    rw [Pattern.run_eq, hnospace]
    rfl
  have hspaces := Pattern.mem_ends_rounds_char.mp hstar
  have height := eq_of_isAssign_markBody hk hsign
  omega

/-- A word that ends in a mark at the colon has its first letter there. -/
theorem sameIgnoringCase_of_literal (hu : u.AsciiLaws) {word : String} {p c : Char} {i : ℕ}
    (hp : word.toList.head? = some p) (hlower : p.isLower = true)
    (hc : "REDACTED:".toList[i]? = some c) (hascii : c.toNat < 128)
    (h : 8 ∈ (literalIgnoringCase u word).ends (markBody kind) i) : p = c.toLower := by
  rw [literalIgnoringCase, ← Function.comp_def, ← List.map_map] at h
  have hclass : (word.toList.map fun c => u.sameIgnoringCase c)[0]? =
      some (u.sameIgnoringCase p) := by
    rw [List.getElem?_map, ← List.head?_eq_getElem?, hp]
    rfl
  have hany := Pattern.any_of_mem_ends h hclass
  have hbody : (markBody kind)[i]? = some c := by
    obtain ⟨hlt, -⟩ := List.getElem?_eq_some_iff.mp hc
    exact (List.getElem?_append_left hlt).trans hc
  rw [Nat.add_zero, hbody, Option.any_some, hu.sameIgnoringCase_ascii p c hlower hascii] at hany
  exact beq_iff_eq.mp hany

/-- A keyword ends at its own length behind its start. -/
theorem length_of_literal {word : String} {i j : ℕ}
    (h : j ∈ (literalIgnoringCase u word).ends text i) : j = i + word.toList.length := by
  rw [literalIgnoringCase, ← Function.comp_def, ← List.map_map] at h
  simpa using Pattern.eq_add_of_mem_ends h

/-- No mark spells the keyword and the sign in front of a password. -/
theorem not_occurs_passwordStart (hu : u.AsciiLaws)
    (hk : kind ∈ (standardDetectors u).map Detector.kind) :
    ¬ (passwordStart u).Occurs (markBody kind) := by
  rintro ⟨i, -, j, hj⟩
  rw [passwordStart] at hj
  obtain ⟨k, hk', hrest⟩ := Pattern.mem_ends_sequence_cons.mp (Pattern.mem_ends_of_boundary hj)
  obtain rfl := eq_of_assign hk hrest
  have hlength : "password".toList.length = 8 := by decide
  have hi : i = 0 := by
    have hword := length_of_literal hk'
    omega
  subst hi
  have hletter := sameIgnoringCase_of_literal hu (p := 'p') (c := 'R') (by decide) (by decide)
    (by decide) (by decide) hk'
  revert hletter
  decide

/-- No mark spells an API key assignment. -/
theorem not_occurs_apiKeyAssignment (hu : u.AsciiLaws)
    (hk : kind ∈ (standardDetectors u).map Detector.kind) :
    ¬ (apiKeyAssignment u).Occurs (markBody kind) := by
  rintro ⟨i, -, j, hj⟩
  rw [apiKeyAssignment] at hj
  obtain ⟨k, hk', hrest⟩ := Pattern.mem_ends_sequence_cons.mp (Pattern.mem_ends_of_boundary hj)
  obtain rfl := eq_of_assign hk hrest
  obtain hapi | htoken := List.mem_append.mp hk'
  · obtain ⟨a, -, hrest⟩ := Pattern.mem_ends_sequence_cons.mp hapi
    obtain ⟨b, -, hrest⟩ := Pattern.mem_ends_sequence_cons.mp hrest
    obtain ⟨c, hkey, hend⟩ := Pattern.mem_ends_sequence_cons.mp hrest
    obtain rfl : 8 = c := List.mem_singleton.mp hend
    have hlength : "key".toList.length = 3 := by decide
    have hb : b = 5 := by
      have hword := length_of_literal hkey
      omega
    subst hb
    have hletter := sameIgnoringCase_of_literal hu (p := 'k') (c := 'T') (by decide) (by decide)
      (by decide) (by decide) hkey
    revert hletter
    decide
  · have hlength : "token".toList.length = 5 := by decide
    have hi : i = 3 := by
      have hword := length_of_literal htoken
      omega
    subst hi
    have hletter := sameIgnoringCase_of_literal hu (p := 't') (c := 'A') (by decide) (by decide)
      (by decide) (by decide) htoken
    revert hletter
    decide

end Marks

section Cuts

variable {d : Detector} {p : Pattern Char} {f : PrivacyFinding} {fs : List PrivacyFinding} {i : ℕ}

/-- The redacted text begins with the kept part, the bracketed mark and the rest's redaction. -/
theorem splice_cons (text : List Char) (i : ℕ) (f : PrivacyFinding) (fs : List PrivacyFinding) :
    splice text i (f :: fs) =
      slice text i f.start ++ '[' :: (markBody f.kind ++ ']' :: splice text f.stop fs) := by
  rw [splice, mark_eq, List.cons_append, List.append_assoc]
  rfl

/-- The kinds of the findings are those of the detectors. -/
def Named (u : Unicode) (fs : List PrivacyFinding) : Prop :=
  ∀ f ∈ fs, f.kind ∈ (standardDetectors u).map Detector.kind

/-- Every finding of a scan carries the kind of one of the standard detectors. -/
theorem named_scan (u : Unicode) (text : String) : Named u ((standardGuard u).scan text) := by
  intro f hf
  rw [scan_eq] at hf
  obtain ⟨d, hd, hf⟩ := List.mem_flatMap.mp
    ((mem_sortedBy findingKey _).mp ((Spans.select_sublist 0 _).subset hf))
  obtain ⟨m, -, rfl⟩ := List.mem_map.mp hf
  exact List.mem_map_of_mem hd

/-- A scan finds nothing exactly when every detector finds nothing on its own. -/
theorem scan_eq_nil_iff : (standardGuard u).scan (String.ofList text) = [] ↔
    ∀ d ∈ standardDetectors u, found d text = [] := by
  have hhits : (standardGuard u).scan (String.ofList text) = [] ↔
      (standardGuard u).hits text = [] := by
    rw [scan_eq, String.toList_ofList]
    constructor
    · intro h
      have hperm := sortedBy_perm findingKey ((standardGuard u).hits text)
      cases hsorted : sortedBy findingKey ((standardGuard u).hits text) with
      | nil =>
        rw [hsorted] at hperm
        exact hperm.symm.eq_nil
      | cons f fs =>
        rw [hsorted, Spans.select, if_neg (Nat.not_lt_zero _)] at h
        cases h
    · intro h
      rw [h]
      rfl
  rw [hhits, hits, List.flatMap_eq_nil_iff]
  simp only [List.map_eq_nil_iff]
  rfl

/-- A detector whose pattern avoids a separator finds something on one of its sides or nothing. -/
theorem found_cut (hd : d.finditer = p.finditer) (hb : p.Avoids b) :
    found d (s ++ b :: t) = [] ↔ found d s = [] ∧ found d t = [] := by
  have hleft : ∀ m ∈ p.finditer s, slice (s ++ b :: t) m.1 m.2 = slice s m.1 m.2 := by
    intro m hm
    have hbounds := Pattern.finditer_bounds hm
    have hlength : m.2 - m.1 ≤ (s.drop m.1).length := by
      rw [List.length_drop]
      omega
    rw [slice, slice, List.drop_append_of_le_length (by omega),
      List.take_append_of_le_length hlength]
  have hright : ∀ m : ℕ × ℕ,
      slice (s ++ b :: t) (s.length + 1 + m.1) (s.length + 1 + m.2) = slice t m.1 m.2 := by
    intro m
    rw [slice, slice, Pattern.drop_right, Nat.add_sub_add_left]
  have hfound : found d (s ++ b :: t) =
      found d s ++ (found d t).map fun m => (s.length + 1 + m.1, s.length + 1 + m.2) := by
    rw [found, hd, Pattern.finditer_cut hb, List.filter_append, List.filter_map, found, found, hd]
    congr 1
    · apply List.filter_congr
      intro m hm
      rw [hleft m hm]
    · congr 1
      apply List.filter_congr
      intro m _
      exact congrArg d.validator (hright m)
  rw [hfound, List.append_eq_nil_iff, List.map_eq_nil_iff]

/-- Where a pattern avoids the brackets and has no match in a mark, only the parts count. -/
theorem found_splice (hd : d.finditer = p.finditer)
    (hp : ∀ b, b = '[' ∨ b = ']' → p.Avoids b)
    (hmark : ∀ kind ∈ (standardDetectors u).map Detector.kind, ¬ p.Occurs (markBody kind))
    (hnamed : Named u fs) :
    found d (splice text i fs) = [] ↔ ∀ part ∈ kept text i fs, found d part = [] := by
  induction fs generalizing i with
  | nil => simp [splice, kept]
  | cons f fs ih =>
    obtain ⟨hf, hfs⟩ := List.forall_mem_cons.mp hnamed
    have hbody : found d (markBody f.kind) = [] := by
      rw [found, hd, Pattern.finditer_eq_nil_iff.mpr (hmark f.kind hf)]
      rfl
    rw [splice_cons, found_cut hd (hp '[' (.inl rfl)), found_cut hd (hp ']' (.inr rfl)), ih hfs,
      kept, List.forall_mem_cons]
    simp only [hbody, true_and]

/-- A pattern that crosses no bracket and fits no mark occurs in the redacted text only inside a
kept part. -/
theorem occurs_splice (hp : ∀ b, b = '[' ∨ b = ']' → p.Avoids b)
    (hmark : ∀ kind ∈ (standardDetectors u).map Detector.kind, ¬ p.Occurs (markBody kind))
    (hnamed : Named u fs) :
    p.Occurs (splice text i fs) ↔ ∃ part ∈ kept text i fs, p.Occurs part := by
  induction fs generalizing i with
  | nil => simp [splice, kept]
  | cons f fs ih =>
    obtain ⟨hf, hfs⟩ := List.forall_mem_cons.mp hnamed
    rw [splice_cons, Pattern.occurs_cut (hp '[' (.inl rfl)), Pattern.occurs_cut (hp ']' (.inr rfl)),
      ih hfs, kept, List.exists_mem_cons_iff]
    simp only [hmark f.kind hf, false_or]

/-- In front of a mark a password that has begun is long enough. -/
theorem occurs_passwordAssignment_cut (hu : u.AsciiLaws) {kind : String}
    (hk : kind ∈ (standardDetectors u).map Detector.kind) :
    (passwordAssignment u).Occurs (s ++ '[' :: (markBody kind ++ ']' :: t)) ↔
      ((passwordAssignment u).Occurs s ∨ PasswordOpen u s) ∨ (passwordAssignment u).Occurs t := by
  have hmark : 8 ≤ Pattern.run isPlain ('[' :: markBody kind ++ ']' :: t) 0 := by
    have hall : (('[' :: markBody kind).drop 0).all isPlain = true := by
      rw [List.drop_zero, List.all_cons, List.all_eq_true.mpr fun c hc =>
        (markBody_chars hk c hc).2.2.1]
      decide
    have hlength : 8 ≤ (markBody kind).length := length_markBody kind
    rw [Pattern.run_left (Nat.zero_le _), if_pos hall, List.length_cons]
    omega
  have hstart : ∀ b, b = '[' ∨ b = ']' → (passwordStart u).Avoids b :=
    fun b hb => avoids_passwordStart hu hb
  rw [passwordAssignment_eq, Pattern.occurs_append_run_cut (hstart '[' (.inl rfl)),
    Pattern.occurs_append_run_cut (hstart ']' (.inr rfl))]
  have hnone : ¬ ∃ i ≤ (markBody kind).length, ∃ j ∈ (passwordStart u).ends (markBody kind) i,
      8 ≤ Pattern.run isPlain (markBody kind ++ ']' :: t) j := by
    rintro ⟨i, hi, j, hj, -⟩
    exact not_occurs_passwordStart hu hk ⟨i, hi, j, hj⟩
  have hfront : (∃ i ≤ s.length, ∃ j ∈ (passwordStart u).ends s i,
      8 ≤ Pattern.run isPlain (s ++ ('[' :: markBody kind ++ ']' :: t)) j) ↔
        (passwordAssignment u).Occurs s ∨ PasswordOpen u s := by
    rw [passwordAssignment_eq, Pattern.occurs_append_run]
    constructor
    · rintro ⟨i, hi, j, hj, hrun⟩
      rw [Pattern.run_left (Pattern.le_length hj hi)] at hrun
      by_cases hall : (s.drop j).all isPlain = true
      · exact .inr ⟨i, hi, j, hj, List.all_eq_true.mp hall⟩
      · rw [if_neg hall] at hrun
        exact .inl ⟨i, hi, j, hj, hrun⟩
    · rintro (⟨i, hi, j, hj, hrun⟩ | ⟨i, hi, j, hj, hopen⟩)
      · refine ⟨i, hi, j, hj, ?_⟩
        have hle := Pattern.run_le isPlain s j
        rw [Pattern.run_left (Pattern.le_length hj hi)]
        split <;> omega
      · refine ⟨i, hi, j, hj, ?_⟩
        rw [Pattern.run_left (Pattern.le_length hj hi), if_pos (List.all_eq_true.mpr hopen)]
        omega
  exact or_congr hfront (or_iff_right hnone)

/-- There is always at least the part behind the last finding. -/
theorem kept_ne_nil : kept text i fs ≠ [] := by
  cases fs <;> simp [kept]

/-- The password pattern returns exactly through a kept part of its own or one left open in front of
a mark. -/
theorem occurs_passwordAssignment_splice (hu : u.AsciiLaws) (hnamed : Named u fs) :
    ¬ (passwordAssignment u).Occurs (splice text i fs) ↔
      (∀ part ∈ kept text i fs, ¬ (passwordAssignment u).Occurs part) ∧
        ∀ part ∈ (kept text i fs).dropLast, ¬ PasswordOpen u part := by
  induction fs generalizing i with
  | nil => simp [splice, kept]
  | cons f fs ih =>
    obtain ⟨hf, hfs⟩ := List.forall_mem_cons.mp hnamed
    rw [splice_cons, occurs_passwordAssignment_cut hu hf, kept,
      List.dropLast_cons_of_ne_nil kept_ne_nil, List.forall_mem_cons, List.forall_mem_cons, not_or,
      not_or, ih hfs]
    tauto

/-- The lines around a private key begin with a dash. -/
theorem needs_keyLine {first : List Char} (h : first.head? = some '-') :
    (Pattern.sequence [.literal first, keyLabel, .literal "PRIVATE KEY-----".toList]).Needs
      (· = '-') := by
  cases first with
  | nil => cases h
  | cons c cs =>
    obtain rfl : c = '-' := by simpa using h
    exact .inl (.inl fun _ hc => hc)

/-- No mark contains a line that begins with a dash. -/
theorem not_occurs_keyLine {kind : String} (hk : kind ∈ (standardDetectors u).map Detector.kind)
    {first : List Char} (h : first.head? = some '-') :
    ¬ (Pattern.sequence [.literal first, keyLabel, .literal "PRIVATE KEY-----".toList]).Occurs
      (markBody kind) :=
  not_occurs_of_needs (needs_keyLine h) fun c hc => decide_eq_false (markBody_chars hk c hc).1

/-- A private key over a mark has its first line before it and its last one behind it. -/
theorem occurs_privateKey_cut (hb : b = '[' ∨ b = ']') :
    privateKey.Occurs (s ++ b :: t) ↔
      privateKey.Occurs s ∨ privateKey.Occurs t ∨ keyHeader.Occurs s ∧ keyFooter.Occurs t := by
  have hheader : b ∉ "-----BEGIN ".toList := by
    obtain rfl | rfl := hb <;> decide
  have hfooter : b ∉ "-----END ".toList := by
    obtain rfl | rfl := hb <;> decide
  rw [privateKey_eq]
  exact Pattern.occurs_between_cut (avoids_keyLine hb hheader) (avoids_keyLine hb hfooter)

/-- The key pattern returns exactly inside one kept part or from a header in one to a footer in a
later one. -/
theorem occurs_privateKey_splice (hnamed : Named u fs) :
    ¬ privateKey.Occurs (splice text i fs) ↔
      (∀ part ∈ kept text i fs, ¬ privateKey.Occurs part) ∧
        (kept text i fs).Pairwise fun first second =>
          ¬ (keyHeader.Occurs first ∧ keyFooter.Occurs second) := by
  induction fs generalizing i with
  | nil => simp [splice, kept]
  | cons f fs ih =>
    obtain ⟨hf, hfs⟩ := List.forall_mem_cons.mp hnamed
    have hheader : ¬ keyHeader.Occurs (markBody f.kind) := not_occurs_keyLine hf (by decide)
    have hfooter : ∀ kind ∈ (standardDetectors u).map Detector.kind,
        ¬ keyFooter.Occurs (markBody kind) := fun kind hk => not_occurs_keyLine hk (by decide)
    have hkey : ¬ privateKey.Occurs (markBody f.kind) := by
      rintro ⟨i, hi, e, he⟩
      rw [privateKey_eq] at he
      obtain ⟨j, hj, -⟩ := Pattern.mem_ends_sequence_append.mp he
      exact hheader ⟨i, hi, j, hj⟩
    have havoids : ∀ b, b = '[' ∨ b = ']' → keyFooter.Avoids b := by
      intro b hb
      apply avoids_keyLine hb
      obtain rfl | rfl := hb <;> decide
    have hlater : keyFooter.Occurs (markBody f.kind ++ ']' :: splice text f.stop fs) ↔
        ∃ part ∈ kept text f.stop fs, keyFooter.Occurs part := by
      rw [Pattern.occurs_cut (havoids ']' (.inr rfl)), or_iff_right (hfooter f.kind hf),
        occurs_splice havoids hfooter hfs]
    rw [splice_cons, occurs_privateKey_cut (.inl rfl), hlater, occurs_privateKey_cut (.inr rfl),
      kept, List.forall_mem_cons, List.pairwise_cons]
    have hrest : privateKey.Occurs (markBody f.kind) ∨ privateKey.Occurs (splice text f.stop fs) ∨
        keyHeader.Occurs (markBody f.kind) ∧ keyFooter.Occurs (splice text f.stop fs) ↔
          privateKey.Occurs (splice text f.stop fs) := by
      simp only [hkey, hheader, false_and, or_false, false_or]
    rw [hrest, not_or, not_or, ih hfs]
    constructor
    · rintro ⟨hpart, ⟨hparts, hpairs⟩, hacross⟩
      exact ⟨⟨hpart, hparts⟩, fun part hmem hboth => hacross ⟨hboth.1, part, hmem, hboth.2⟩, hpairs⟩
    · rintro ⟨⟨hpart, hparts⟩, hacross, hpairs⟩
      refine ⟨hpart, ⟨hparts, hpairs⟩, ?_⟩
      rintro ⟨hfirst, part, hmem, hlast⟩
      exact hacross part hmem ⟨hfirst, hlast⟩

end Cuts

section Settling

variable {fs : List PrivacyFinding} {i : ℕ}

/-- A detector without a check finds every match of its pattern. -/
theorem found_eq_nil_iff {kind : String} {p : Pattern Char} :
    found ⟨kind, p.finditer, fun _ => true⟩ text = [] ↔ ¬ p.Occurs text := by
  rw [found, List.filter_true]
  exact Pattern.finditer_eq_nil_iff

/-- The detectors whose matches stay on one side of a bracket. -/
theorem found_splice_standard (hu : u.AsciiLaws) (hnamed : Named u fs) {d : Detector}
    (hd : d ∈ standardDetectors u)
    (hpassword : d ≠ ⟨"password_assignment", (passwordAssignment u).finditer, fun _ => true⟩)
    (hkey : d ≠ ⟨"private_key", privateKey.finditer, fun _ => true⟩) :
    found d (splice text i fs) = [] ↔ ∀ part ∈ kept text i fs, found d part = [] := by
  have hword : ∀ kind ∈ (standardDetectors u).map Detector.kind, ∀ c ∈ markBody kind,
      (decide (c = '-') = false ∧ decide (c = 'K') = false) ∧ isSpace c = false ∧
        u.isDigit c = false := by
    intro kind hk c hc
    obtain ⟨hdash, hletter, -, hdigit, hascii⟩ := markBody_chars hk c hc
    refine ⟨⟨decide_eq_false hdash, decide_eq_false hletter⟩, isSpace_markBody hk c hc, ?_⟩
    rw [Unicode.isDigit, Unicode.digit, if_neg (by simp [hdigit]), if_pos hascii]
    rfl
  simp only [standardDetectors, List.mem_cons, List.not_mem_nil, or_false] at hd
  obtain rfl | rfl | rfl | rfl | rfl | rfl | rfl | rfl := hd
  · exact absurd rfl hkey
  · refine found_splice rfl (fun b hb => avoids_openaiApiKey hu hb) (fun kind hk => ?_) hnamed
    have hneeds : (openaiApiKey u).Needs (· = '-') :=
      .inr (.inl (.inr (.inr (.inl fun _ hc => hc))))
    exact not_occurs_of_needs hneeds fun c hc => (hword kind hk c hc).1.1
  · refine found_splice rfl (fun b hb => avoids_awsAccessKey hu hb) (fun kind hk => ?_) hnamed
    have hneeds : (awsAccessKey u).Needs (· = 'K') := .inr (.inl (.inr (.inl fun _ hc => hc)))
    exact not_occurs_of_needs hneeds fun c hc => (hword kind hk c hc).1.2
  · refine found_splice rfl (fun b hb => avoids_bearerToken hu hb) (fun kind hk => ?_) hnamed
    have hneeds : (bearerToken u).Needs isSpace :=
      .inr (.inr (.inl ⟨Nat.zero_lt_one, fun _ hc => hc⟩))
    exact not_occurs_of_needs hneeds fun c hc => (hword kind hk c hc).2.1
  · exact absurd rfl hpassword
  · exact found_splice rfl (fun b hb => avoids_apiKeyAssignment hu hb)
      (fun kind hk => not_occurs_apiKeyAssignment hu hk) hnamed
  · refine found_splice rfl (fun b hb => avoids_ssn hu hb) (fun kind hk => ?_) hnamed
    have hneeds : (ssn u).Needs u.isDigit := .inr (.inl ⟨Nat.zero_lt_succ 2, fun _ hc => hc⟩)
    exact not_occurs_of_needs hneeds fun c hc => (hword kind hk c hc).2.2
  · refine found_splice rfl (fun b hb => avoids_paymentCard hu hb) (fun kind hk => ?_) hnamed
    have hneeds : (paymentCard u).Needs u.isDigit :=
      .inr (.inl ⟨Nat.zero_lt_succ 12, .inl fun _ hc => hc⟩)
    exact not_occurs_of_needs hneeds fun c hc => (hword kind hk c hc).2.2

/-- A redacted text has no findings exactly when its parts are settled. -/
theorem scan_splice_eq_nil_iff (hu : u.AsciiLaws) (hnamed : Named u fs) :
    (standardGuard u).scan (String.ofList (splice text i fs)) = [] ↔
      Settled u (kept text i fs) := by
  have hparts : (∀ part ∈ kept text i fs, (standardGuard u).scan (String.ofList part) = []) ↔
      ∀ d ∈ standardDetectors u, ∀ part ∈ kept text i fs, found d part = [] := by
    simp only [scan_eq_nil_iff]
    exact ⟨fun h d hd part hpart => h part hpart d hd, fun h part hpart d hd => h d hd part hpart⟩
  have hpassword : ⟨"password_assignment", (passwordAssignment u).finditer, fun _ => true⟩ ∈
      standardDetectors u := by simp [standardDetectors]
  have hkey : ⟨"private_key", privateKey.finditer, fun _ => true⟩ ∈ standardDetectors u := by
    simp [standardDetectors]
  rw [scan_eq_nil_iff]
  constructor
  · intro h
    have hopen := (occurs_passwordAssignment_splice hu hnamed).mp
      (found_eq_nil_iff.mp (h _ hpassword))
    have hlines := (occurs_privateKey_splice hnamed).mp (found_eq_nil_iff.mp (h _ hkey))
    refine ⟨hparts.mpr fun d hd => ?_, hopen.2, hlines.2⟩
    by_cases hdp : d = ⟨"password_assignment", (passwordAssignment u).finditer, fun _ => true⟩
    · subst hdp
      exact fun part hpart => found_eq_nil_iff.mpr (hopen.1 part hpart)
    by_cases hdk : d = ⟨"private_key", privateKey.finditer, fun _ => true⟩
    · subst hdk
      exact fun part hpart => found_eq_nil_iff.mpr (hlines.1 part hpart)
    exact (found_splice_standard hu hnamed hd hdp hdk).mp (h d hd)
  · rintro ⟨hclean, hclosed, hapart⟩ d hd
    have hfound := hparts.mp hclean
    by_cases hdp : d = ⟨"password_assignment", (passwordAssignment u).finditer, fun _ => true⟩
    · subst hdp
      exact found_eq_nil_iff.mpr ((occurs_passwordAssignment_splice hu hnamed).mpr
        ⟨fun part hpart => found_eq_nil_iff.mp (hfound _ hd part hpart), hclosed⟩)
    by_cases hdk : d = ⟨"private_key", privateKey.finditer, fun _ => true⟩
    · subst hdk
      exact found_eq_nil_iff.mpr ((occurs_privateKey_splice hnamed).mpr
        ⟨fun part hpart => found_eq_nil_iff.mp (hfound _ hd part hpart), hapart⟩)
    exact (found_splice_standard hu hnamed hd hdp hdk).mpr (hfound d hd)

end Settling

/-- A text without findings passes the guard as it is, and only such a text does. -/
theorem apply_unchanged_iff (u : Unicode) (text : String) :
    (standardGuard u).apply text = .ok ⟨text, [], .allow, []⟩ ↔
      (standardGuard u).scan text = [] := by
  have henabled : ¬ (standardGuard u).enabled = false := by simp [standardGuard]
  rw [apply, if_neg henabled]
  by_cases hnone : (standardGuard u).scan text = []
  · simp only [if_pos hnone]
    exact iff_of_true trivial hnone
  · simp only [if_neg hnone]
    refine iff_of_false (fun h => hnone ?_) hnone
    exact congrArg PrivacyDecision.findings (Except.ok.inj h)

/-- The redacted text has no findings, and passes the guard again as it is, exactly when the parts
between the findings are settled. -/
theorem redaction_repeats_iff (u : Unicode) (hu : u.AsciiLaws) (text : String) :
    ∃ d, (standardGuard u).apply text = .ok d ∧
      ((standardGuard u).scan d.text = [] ↔
        Settled u (kept text.toList 0 ((standardGuard u).scan text))) ∧
      ((standardGuard u).apply d.text = .ok ⟨d.text, [], .allow, []⟩ ↔
        Settled u (kept text.toList 0 ((standardGuard u).scan text))) := by
  have happly := apply_standardGuard u text
  cases hd : (standardGuard u).apply text with
  | error e =>
    rw [hd] at happly
    cases happly
  | ok d =>
    rw [hd] at happly
    have htext : d.text =
        String.ofList (splice text.toList 0 ((standardGuard u).scan text)) := by
      simpa [Except.map] using happly
    have hscan : (standardGuard u).scan d.text = [] ↔
        Settled u (kept text.toList 0 ((standardGuard u).scan text)) := by
      rw [htext]
      exact scan_splice_eq_nil_iff hu (named_scan u text)
    exact ⟨d, rfl, hscan, (apply_unchanged_iff u d.text).trans hscan⟩

/-- The table restricted to ASCII keeps the ASCII laws. -/
theorem asciiLaws_asciiUnicode : asciiUnicode.AsciiLaws :=
  ⟨fun _ _ => rfl, fun _ _ _ _ => rfl⟩

/-- A number between two words. -/
def ssnInText : String := "SSN 123-45-6789 on file"

/-- The parts around the number of the example complete no pattern. -/
theorem settled_ssnInText : Settled asciiUnicode ["SSN ".toList, " on file".toList] := by
  refine ⟨?_, ?_, ?_⟩
  · decide +kernel
  · unfold PasswordOpen
    decide +kernel
  · have hheader : ¬ keyHeader.Occurs "SSN ".toList :=
      Pattern.finditer_eq_nil_iff.mp (by decide +kernel)
    rw [List.pairwise_pair]
    exact fun h => hheader h.1

/-- With the number redacted, the text stays as it is. -/
theorem ssnInText_stays : ∃ d, (standardGuard asciiUnicode).apply ssnInText = .ok d ∧
    (standardGuard asciiUnicode).scan d.text = [] ∧
      (standardGuard asciiUnicode).apply d.text = .ok ⟨d.text, [], .allow, []⟩ := by
  have hkept : kept ssnInText.toList 0 ((standardGuard asciiUnicode).scan ssnInText) =
      ["SSN ".toList, " on file".toList] := by decide +kernel
  obtain ⟨d, hd, hscan, happly⟩ :=
    redaction_repeats_iff asciiUnicode asciiLaws_asciiUnicode ssnInText
  rw [hkept] at hscan happly
  exact ⟨d, hd, hscan.mpr settled_ssnInText, happly.mpr settled_ssnInText⟩

/-- A card number where a password is to stand. -/
def cardAsPassword : String := "password=4111 1111 1111 1111"

/-- The mark is long enough for a password. -/
theorem cardAsPassword_again :
    ((standardGuard asciiUnicode).apply cardAsPassword).map PrivacyDecision.text =
        .ok "password=[REDACTED:payment_card]" ∧
      (standardGuard asciiUnicode).scan "password=[REDACTED:payment_card]" =
        [⟨"password_assignment", 0, 32⟩] := by
  have htext : splice cardAsPassword.toList 0 ((standardGuard asciiUnicode).scan cardAsPassword) =
      "password=[REDACTED:payment_card]".toList := by decide +kernel
  rw [apply_standardGuard, htext, String.ofList_toList]
  exact ⟨rfl, by decide +kernel⟩

end PrivacyGuard

end MemoryPlane
