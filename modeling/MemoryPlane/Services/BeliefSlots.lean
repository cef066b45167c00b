import MemoryPlane.Python.Text

/-!
# Belief slots

Deterministic extraction of a comparable relation from the text of a memory. The patterns are
written out: a separator between two non-empty parts, tried from the left, and a search for
temporal words at word boundaries.
-/

namespace MemoryPlane

/-- Comparable relation extracted from a single memory. -/
structure BeliefSlot where
  subject : String
  predicate : String
  value : String
  deriving DecidableEq

/-- Groups comparable facts about the same entity and relation. -/
def BeliefSlot.key (slot : BeliefSlot) : String := s!"{slot.subject}|{slot.predicate}"

variable (u : Unicode)

/-- `str.casefold`. -/
def Unicode.casefoldText (text : List Char) : List Char := text.flatMap u.casefold

/-- `_PUNCTUATION.sub(" ", text)`. -/
def replacePunctuation (text : List Char) : List Char :=
  text.map fun c => if u.isWord c || isSpace c || c == '-' then c else ' '

/-- `normalize` on characters. -/
def normalizeChars (text : List Char) : List Char :=
  Text.joinSpace (Text.split (replacePunctuation u (Text.stripWith isSpace (u.casefoldText text))))

/-- Normalize text only enough for safe exact-belief grouping. -/
def normalize (text : String) : String := String.ofList (normalizeChars u text.toList)

/-- Date separators. -/
def isDateSeparator (c : Char) : Bool := c == '-' || c == '/' || c == ','

/-- `_DATE_SEPARATORS.sub(" ", text)`: a run of separators becomes one space; `inRun` says
that the previous character was a separator. -/
def replaceDateSeparators (inRun : Bool) : List Char → List Char
  | [] => []
  | c :: cs =>
    if isDateSeparator c then
      if inRun then replaceDateSeparators true cs else ' ' :: replaceDateSeparators true cs
    else c :: replaceDateSeparators false cs

/-- Normalize an entity key. -/
def normalizeEntity (text : List Char) : String :=
  let the := "the ".toList
  String.ofList (normalizeChars u (if the.isPrefixOf text then text.drop the.length else text))

/-- Normalize a comparable value, including common date separators. -/
def normalizeValue (text : List Char) : String :=
  String.ofList (replaceDateSeparators false (normalizeChars u text))

/-- The words of `_TEMPORAL_TRANSITION`. -/
def temporalWords : List (List Char) :=
  ["раньше", "сейчас", "теперь", "недавно", "перешел", "перешёл", "перешла", "изменил",
    "изменила", "изменилось", "before", "previously", "formerly", "now", "recently", "changed",
    "switched"].map String.toList

/-- The last character of a word that starts here, ignoring case, and the text after it. -/
def afterWord (prev : Option Char) : List Char → List Char → Option (Option Char × List Char)
  | [], text => some (prev, text)
  | _ :: _, [] => none
  | p :: ps, c :: cs => if u.sameIgnoringCase p c then afterWord (some c) ps cs else none

/-- A word boundary between an optional character and the text after it. -/
def atBoundary (prev : Option Char) (text : List Char) : Bool :=
  (prev.any u.isWord) != (text.head?.any u.isWord)

/-- `_TEMPORAL_TRANSITION.search(text)`, after the character `prev`. -/
def hasTemporalWord (prev : Option Char) (text : List Char) : Bool :=
  (atBoundary u prev text && temporalWords.any fun w =>
    match afterWord u prev w text with
    | some (last, rest) => atBoundary u last rest
    | none => false) ||
  match text with
  | [] => false
  | c :: cs => hasTemporalWord (some c) cs

/-- The match of `(.+?)(?:sep1|sep2|...)(.+)` against a whole text: the shortest non-empty
left part, then the first separator that leaves something on the right. -/
def splitAtSeparator (seps : List (List Char)) (left : List Char) :
    List Char → Option (List Char × List Char)
  | [] => none
  | c :: cs =>
    match seps.find? fun sep => !left.isEmpty && sep.isPrefixOf (c :: cs) &&
        sep.length < (c :: cs).length with
    | some sep => some (left, (c :: cs).drop sep.length)
    | none => splitAtSeparator seps (left ++ [c]) cs

/-- `.+? owns .+`. -/
def ownsSeparators : List (List Char) := [" owns ".toList]

/-- `.+? releases? on .+`. -/
def releaseSeparators : List (List Char) := [" releases on ".toList, " release on ".toList]

/-- `.+? (?:prefers?|likes?|...) .+`. -/
def preferenceSeparators : List (List Char) :=
  [" prefers ", " prefer ", " likes ", " like ", " предпочитает ", " любит "].map String.toList

/-- `.+? (?:is|are|was|...) .+`. -/
def stateSeparators : List (List Char) :=
  [" is ", " are ", " was ", " were ", " will be ", " является ", " являлся ", " являлась ",
    " был ", " была ", " будет "].map String.toList

/-- Extract only unambiguous, non-temporal relations from memory text. -/
def extractBeliefSlot (text : String) : BeliefSlot :=
  let normalized := normalizeChars u text.toList
  let statement : BeliefSlot := ⟨String.ofList normalized, "statement", "true"⟩
  if hasTemporalWord u none normalized then statement
  else
    match splitAtSeparator ownsSeparators [] normalized with
    | some (owner, thing) => ⟨normalizeEntity u thing, "owner", normalizeEntity u owner⟩
    | none =>
      match splitAtSeparator releaseSeparators [] normalized with
      | some (subject, value) =>
        ⟨normalizeEntity u subject, "release_date", normalizeValue u value⟩
      | none =>
        match splitAtSeparator preferenceSeparators [] normalized with
        | some (subject, value) =>
          ⟨normalizeEntity u subject, "preference", normalizeValue u value⟩
        | none =>
          match splitAtSeparator stateSeparators [] normalized with
          | some (subject, value) =>
            ⟨normalizeEntity u subject, "state", normalizeValue u value⟩
          | none => statement

end MemoryPlane
