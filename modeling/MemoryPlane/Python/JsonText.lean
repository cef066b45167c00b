import MemoryPlane.Python.Json
import MemoryPlane.Python.JsonTokens

/-!
# JSON texts

`json.dumps` with sorted keys and the separators `,` and `:`, and `json.loads`. What was printed is
read back. The decoder's names for infinities and not-a-number are left out.
-/

namespace MemoryPlane

/-- How floats are printed, and how a number with a fraction or an exponent is read: its value is
rounded, to `none` where it lies beyond the floats. -/
structure FloatText where
  /-- The value is that of a finite float. -/
  isFloat : ℚ → Prop
  /-- `float.__repr__`. -/
  repr : ℚ → Json.NumberText
  /-- The float nearest to a decimal number. -/
  round : ℚ → Option ℚ
  wf : ∀ q, (repr q).Wf
  isReal : ∀ q, isFloat q → (repr q).isReal = true
  round_repr : ∀ q, isFloat q → round (repr q).value = some q

namespace Json

/-- The number that an integer prints as. -/
def NumberText.ofInt (n : ℤ) : NumberText := ⟨decide (n < 0), Nat.toDigits 10 n.natAbs, [], []⟩

mutual
/-- A name or a text in the value satisfies a predicate. -/
def anyText (p : String → Bool) : Json → Bool
  | .str s => p s
  | .arr xs => anyTextItems p xs
  | .obj members => anyTextMembers p members
  | _ => false

def anyTextItems (p : String → Bool) : List Json → Bool
  | [] => false
  | x :: xs => anyText p x || anyTextItems p xs

def anyTextMembers (p : String → Bool) : List (String × Json) → Bool
  | [] => false
  | (name, value) :: rest => p name || anyText p value || anyTextMembers p rest
end

mutual
/-- A number, a truth value, a text or a null in the value satisfies a predicate. -/
def anyScalar (p : Json → Bool) : Json → Bool
  | .arr xs => anyScalarItems p xs
  | .obj members => anyScalarMembers p members
  | v => p v

def anyScalarItems (p : Json → Bool) : List Json → Bool
  | [] => false
  | x :: xs => anyScalar p x || anyScalarItems p xs

def anyScalarMembers (p : Json → Bool) : List (String × Json) → Bool
  | [] => false
  | (_, value) :: rest => anyScalar p value || anyScalarMembers p rest
end

/-- An integer that the interpreter neither prints nor reads. -/
def isLongInt : Json → Bool
  | .int n => isTooLong n
  | _ => false

/-- The interpreter neither prints the value nor reads it. -/
def hasLongInt (v : Json) : Bool := v.anyScalar isLongInt

section Print

variable (t : FloatText) (ascii : Bool)

mutual
/-- The text of a value, its members in the order they stand in. -/
def print : Json → List Char
  | .null => ['n', 'u', 'l', 'l']
  | .bool true => ['t', 'r', 'u', 'e']
  | .bool false => ['f', 'a', 'l', 's', 'e']
  | .int n => (NumberText.ofInt n).text
  | .float q => (t.repr q).text
  | .str s => printString ascii s.toList
  | .arr xs => '[' :: (printItems xs ++ [']'])
  | .obj members => '{' :: (printMembers members ++ ['}'])

def printItems : List Json → List Char
  | [] => []
  | x :: xs => print x ++ bif xs.isEmpty then [] else ',' :: printItems xs

def printMembers : List (String × Json) → List Char
  | [] => []
  | (name, value) :: rest =>
    printString ascii name.toList ++ (':' :: (print value ++
      bif rest.isEmpty then [] else ',' :: printMembers rest))
end

/-- `json.dumps(value, sort_keys=True, separators=(",", ":"))`. -/
def dumps (value : Json) : List Char := print t ascii value.sorted

end Print

section Scan

-- what a reader makes of a number
variable (number : NumberText → Option Json)

/-- A number at the front. -/
def scanNumberValue (cs : List Char) : Option (Json × List Char) := do
  let (n, rest) ← scanNumber cs
  let v ← number n
  return (v, rest)

/-- The name of a member with its colon. -/
def scanName (cs : List Char) : Option (String × List Char) := do
  guard (cs.head? = some '"')
  let (name, rest) ← scanString cs.length cs.tail
  guard ((skipSpace rest).head? = some ':')
  return (String.ofList name, skipSpace (skipSpace rest).tail)

mutual
/-- The value at the front of a text, in at most so many rounds. -/
def scanValue : ℕ → List Char → Option (Json × List Char)
  | 0, _ => none
  | fuel + 1, cs =>
    match cs with
    | [] => none
    | c :: rest =>
      if c = '"' then
        (scanString cs.length rest).map fun (s, rest) => (.str (String.ofList s), rest)
      else if c = '[' then
        if (skipSpace rest).head? = some ']' then some (.arr [], (skipSpace rest).tail)
        else (scanItems fuel (skipSpace rest)).map fun (xs, rest) => (.arr xs, rest)
      else if c = '{' then
        if (skipSpace rest).head? = some '}' then some (.obj [], (skipSpace rest).tail)
        else (scanMembers fuel (skipSpace rest)).map fun (members, rest) => (.obj members, rest)
      else if ['n', 'u', 'l', 'l'].isPrefixOf cs then some (.null, cs.drop 4)
      else if ['t', 'r', 'u', 'e'].isPrefixOf cs then some (.bool true, cs.drop 4)
      else if ['f', 'a', 'l', 's', 'e'].isPrefixOf cs then some (.bool false, cs.drop 5)
      else scanNumberValue number cs

/-- The items of an array up to its closing bracket. -/
def scanItems : ℕ → List Char → Option (List Json × List Char)
  | 0, _ => none
  | fuel + 1, cs => do
    let (x, rest) ← scanValue fuel cs
    match skipSpace rest with
    | [] => none
    | c :: rest =>
      if c = ']' then return ([x], rest)
      else if c = ',' then
        let (xs, rest) ← scanItems fuel (skipSpace rest)
        return (x :: xs, rest)
      else none

/-- The members of an object up to its closing brace. -/
def scanMembers : ℕ → List Char → Option (List (String × Json) × List Char)
  | 0, _ => none
  | fuel + 1, cs => do
    let (name, rest) ← scanName cs
    let (value, rest) ← scanValue fuel rest
    match skipSpace rest with
    | [] => none
    | c :: rest =>
      if c = '}' then return ([(name, value)], rest)
      else if c = ',' then
        let (members, rest) ← scanMembers fuel (skipSpace rest)
        return ((name, value) :: members, rest)
      else none
end

/-- The value of a whole text. -/
def parse (cs : List Char) : Option Json := do
  let (value, rest) ← scanValue number cs.length (skipSpace cs)
  guard (skipSpace rest = [])
  return value

end Scan

/-- What the decoder makes of a number. -/
def numberValue (t : FloatText) (n : NumberText) : Option Json :=
  if n.isReal then (t.round n.value).map .float else some (.int n.toInt)

/-- `json.loads` of a text. -/
def loads (t : FloatText) (cs : List Char) : Option Json := parse (numberValue t) cs

mutual
/-- Every float of the value is one. -/
def FloatsIn (t : FloatText) : Json → Prop
  | .float q => t.isFloat q
  | .arr xs => FloatsInItems t xs
  | .obj members => FloatsInMembers t members
  | _ => True

def FloatsInItems (t : FloatText) : List Json → Prop
  | [] => True
  | x :: xs => FloatsIn t x ∧ FloatsInItems t xs

def FloatsInMembers (t : FloatText) : List (String × Json) → Prop
  | [] => True
  | (_, value) :: rest => FloatsIn t value ∧ FloatsInMembers t rest
end

section Reread

variable (number : NumberText → Option Json) (t : FloatText)

mutual
/-- What a reader makes of a printed value. -/
def reread : Json → Option Json
  | .int n => number (NumberText.ofInt n)
  | .float q => number (t.repr q)
  | .arr xs => (rereadItems xs).map .arr
  | .obj members => (rereadMembers members).map .obj
  | v => some v

def rereadItems : List Json → Option (List Json)
  | [] => some []
  | x :: xs => (reread x).bind fun y => (rereadItems xs).map fun ys => y :: ys

def rereadMembers : List (String × Json) → Option (List (String × Json))
  | [] => some []
  | (name, value) :: rest =>
    (reread value).bind fun v => (rereadMembers rest).map fun ms => (name, v) :: ms
end

end Reread

section RoundTrip

variable {number : NumberText → Option Json} {t : FloatText} {ascii : Bool} {rest : List Char}

/-- The numeral of a positive digit is a digit other than zero. -/
theorem digitChar_pos :
    ∀ n < 10, n ≠ 0 → Nat.digitChar n ≠ '0' ∧ isDigit (Nat.digitChar n) = true := by
  decide

/-- Printed digits have no leading zero. -/
theorem isWhole_toDigits (n : ℕ) : NumberText.IsWhole (Nat.toDigits 10 n) := by
  induction n using Nat.strong_induction_on with
  | _ n ih =>
    by_cases hlt : n < 10
    · rw [Nat.toDigits_of_lt_base hlt]
      by_cases hzero : n = 0
      · rw [hzero]
        exact .inl rfl
      · exact .inr ⟨_, [], rfl, (digitChar_pos n hlt hzero).1, (digitChar_pos n hlt hzero).2, rfl⟩
    · have hsplit : Nat.toDigits 10 n = Nat.toDigits 10 (n / 10) ++ [Nat.digitChar (n % 10)] :=
        Nat.toDigits_of_base_le (by omega) (by omega)
      have hall := all_isDigit_toDigits n
      rw [hsplit, List.all_append, Bool.and_eq_true] at hall
      obtain hzero | ⟨d, more, hd, hne, hdigit, hmore⟩ := ih (n / 10) (by omega)
      · have hval := congrArg digitsValue hzero
        rw [digitsValue_toDigits] at hval
        have : digitsValue ['0'] = 0 := rfl
        omega
      · refine .inr ⟨d, more ++ [Nat.digitChar (n % 10)], by rw [hsplit, hd]; rfl, hne, hdigit, ?_⟩
        rw [List.all_append, hmore, hall.2]
        rfl

/-- The decimal text of an integer is a JSON number. -/
theorem NumberText.wf_ofInt (n : ℤ) : (NumberText.ofInt n).Wf :=
  ⟨isWhole_toDigits _, .inl rfl, .inl rfl⟩

/-- Reading the decimal text of an integer gives the integer back. -/
theorem NumberText.toInt_ofInt (n : ℤ) : (NumberText.ofInt n).toInt = n := by
  simp only [NumberText.toInt, NumberText.ofInt, digitsValue_toDigits, decide_eq_true_eq]
  split <;> omega

/-- A number of the grammar starts with its sign or a digit. -/
theorem NumberText.Wf.head {n : NumberText} (h : n.Wf) :
    ∃ c cs, n.text = c :: cs ∧ (c = '-' ∨ isDigit c = true) := by
  obtain ⟨negative, whole, fraction, exponent⟩ := n
  cases negative with
  | true => exact ⟨'-', whole ++ (fraction ++ exponent), rfl, .inl rfl⟩
  | false =>
    obtain ⟨d, more, hd, hdigit⟩ := h.whole.head
    exact ⟨d, more ++ (fraction ++ exponent), congrArg (· ++ (fraction ++ exponent)) hd,
      .inr hdigit⟩

/-- The first character of a value decides what is read, and it is neither white space nor a
closing bracket. -/
theorem head_print (t : FloatText) (ascii : Bool) (v : Json) :
    ∃ c cs, print t ascii v = c :: cs ∧ isSpace c = false ∧ c ≠ ']' := by
  have hnumber : ∀ n : NumberText, n.Wf →
      ∃ c cs, n.text = c :: cs ∧ isSpace c = false ∧ c ≠ ']' := by
    intro n hn
    obtain ⟨c, cs, htext, hc⟩ := hn.head
    refine ⟨c, cs, htext, ?_, ?_⟩
    · rw [Bool.eq_false_iff]
      intro hspace
      simp only [isSpace, Bool.or_eq_true, decide_eq_true_eq] at hspace
      obtain rfl | hdigit := hc
      · exact absurd hspace (by decide)
      · obtain ((rfl | rfl) | rfl) | rfl := hspace <;> exact absurd hdigit (by decide)
    · rintro rfl
      obtain hc | hdigit := hc
      · exact absurd hc (by decide)
      · exact absurd hdigit (by decide)
  cases v with
  | null => exact ⟨_, _, rfl, by decide, by decide⟩
  | bool b => cases b <;> exact ⟨_, _, rfl, by decide, by decide⟩
  | int n => exact hnumber _ (NumberText.wf_ofInt n)
  | float q => exact hnumber _ (t.wf q)
  | str s => exact ⟨_, _, rfl, by decide, by decide⟩
  | arr xs => exact ⟨_, _, rfl, by decide, by decide⟩
  | obj members => exact ⟨_, _, rfl, by decide, by decide⟩

/-- Nothing is skipped in front of a character other than white space. -/
theorem skipSpace_cons {c : Char} {cs : List Char} (h : isSpace c = false) :
    skipSpace (c :: cs) = c :: cs :=
  List.dropWhile_cons_of_neg (by rw [h]; exact Bool.false_ne_true)

/-- A printed value starts with its own first character, never with white space. -/
theorem skipSpace_print (t : FloatText) (ascii : Bool) (v : Json) (cs : List Char) :
    skipSpace (print t ascii v ++ cs) = print t ascii v ++ cs := by
  obtain ⟨c, more, hprint, hspace, -⟩ := head_print t ascii v
  rw [hprint]
  exact skipSpace_cons hspace

/-- A printed string has no control character: those are escaped. -/
theorem le_toNat_of_mem_printString {s : List Char} {c : Char} (hc : c ∈ printString ascii s) :
    32 ≤ c.toNat := by
  simp only [printString, List.mem_cons, List.mem_append, List.mem_flatMap, List.not_mem_nil,
    or_false] at hc
  obtain rfl | ⟨d, -, hd⟩ | rfl := hc
  · decide
  · exact le_toNat_of_mem_escapeChar ascii d hd
  · decide

mutual
/-- Printed values have no control characters. -/
theorem le_toNat_of_mem_print : ∀ (v : Json) (c : Char), c ∈ print t ascii v → 32 ≤ c.toNat
  | .null, c, hc | .bool true, c, hc => by
    simp only [print, List.mem_cons, List.not_mem_nil, or_false] at hc
    obtain rfl | rfl | rfl | rfl := hc <;> decide
  | .bool false, c, hc => by
    simp only [print, List.mem_cons, List.not_mem_nil, or_false] at hc
    obtain rfl | rfl | rfl | rfl | rfl := hc <;> decide
  | .int n, _, hc => le_toNat_of_mem_text (NumberText.wf_ofInt n) hc
  | .float q, _, hc => le_toNat_of_mem_text (t.wf q) hc
  | .str _, _, hc => le_toNat_of_mem_printString hc
  | .arr xs, c, hc => by
    simp only [print, List.mem_cons, List.mem_append, List.not_mem_nil, or_false] at hc
    obtain rfl | hc | rfl := hc
    · decide
    · exact le_toNat_of_mem_printItems xs c hc
    · decide
  | .obj members, c, hc => by
    simp only [print, List.mem_cons, List.mem_append, List.not_mem_nil, or_false] at hc
    obtain rfl | hc | rfl := hc
    · decide
    · exact le_toNat_of_mem_printMembers members c hc
    · decide

/-- The printed items of an array have no control character. -/
theorem le_toNat_of_mem_printItems : ∀ (xs : List Json) (c : Char), c ∈ printItems t ascii xs →
    32 ≤ c.toNat
  | [], _, hc => by cases hc
  | x :: xs, c, hc => by
    rw [printItems, List.mem_append] at hc
    obtain hc | hc := hc
    · exact le_toNat_of_mem_print x c hc
    · cases hempty : xs.isEmpty with
      | true =>
        rw [hempty] at hc
        cases hc
      | false =>
        rw [hempty, cond_false, List.mem_cons] at hc
        obtain rfl | hc := hc
        · decide
        · exact le_toNat_of_mem_printItems xs c hc

/-- The printed members of an object have no control character. -/
theorem le_toNat_of_mem_printMembers : ∀ (members : List (String × Json)) (c : Char),
    c ∈ printMembers t ascii members → 32 ≤ c.toNat
  | [], _, hc => by cases hc
  | (name, value) :: rest, c, hc => by
    simp only [printMembers, List.mem_append, List.mem_cons] at hc
    obtain hc | rfl | hc | hc := hc
    · exact le_toNat_of_mem_printString hc
    · decide
    · exact le_toNat_of_mem_print value c hc
    · cases hempty : rest.isEmpty with
      | true =>
        rw [hempty] at hc
        cases hc
      | false =>
        rw [hempty, cond_false, List.mem_cons] at hc
        obtain rfl | hc := hc
        · decide
        · exact le_toNat_of_mem_printMembers rest c hc
end

/-- A printed number is scanned as a whole. -/
theorem scanNumberValue_text {n : NumberText} (hn : n.Wf) (hrest : EndsNumber rest) :
    scanNumberValue number (n.text ++ rest) = (number n).map fun v => (v, rest) := by
  rw [scanNumberValue, scanNumber_append hn hrest]
  simp only [Option.bind_eq_bind, Option.bind_some]
  cases number n <;> rfl

/-- A sign or a digit starts a number. -/
theorem scanValue_number {n : NumberText} (h : n.Wf) (fuel : ℕ) :
    scanValue number (fuel + 1) (n.text ++ rest) = scanNumberValue number (n.text ++ rest) := by
  obtain ⟨c, cs, htext, hc⟩ := h.head
  have hne : ∀ d : Char, d ≠ '-' → isDigit d = false → c ≠ d := by
    rintro d hd hdigit rfl
    obtain hc | hc := hc
    · exact hd hc
    · rw [hdigit] at hc
      exact Bool.false_ne_true hc
  have hword : ∀ d more, d ≠ '-' → isDigit d = false →
      ¬ (d :: more).isPrefixOf (c :: (cs ++ rest)) = true := by
    intro d more hd hdigit hprefix
    rw [List.isPrefixOf_cons_cons, Bool.and_eq_true, beq_iff_eq] at hprefix
    exact hne d hd hdigit hprefix.1.symm
  rw [htext, List.cons_append, scanValue]
  rw [if_neg (hne _ (by decide) (by decide)), if_neg (hne _ (by decide) (by decide)),
    if_neg (hne _ (by decide) (by decide)), if_neg (hword _ _ (by decide) (by decide)),
    if_neg (hword _ _ (by decide) (by decide)), if_neg (hword _ _ (by decide) (by decide))]

/-- A number ends before any character that could not continue it. -/
theorem endsNumber_cons {c : Char} {cs : List Char} (hdigit : isDigit c = false)
    (h : c ≠ '.' ∧ c ≠ 'e' ∧ c ≠ 'E') : EndsNumber (c :: cs) := by
  rintro d hd
  cases hd
  exact ⟨hdigit, h⟩

/-- A comma ends a number. -/
theorem endsNumber_comma {cs : List Char} : EndsNumber (',' :: cs) :=
  endsNumber_cons (by decide) (by decide)

/-- A closing bracket ends a number. -/
theorem endsNumber_bracket {cs : List Char} : EndsNumber (']' :: cs) :=
  endsNumber_cons (by decide) (by decide)

/-- A closing brace ends a number. -/
theorem endsNumber_brace {cs : List Char} : EndsNumber ('}' :: cs) :=
  endsNumber_cons (by decide) (by decide)

/-- Scanning behind the opening quote gives the string back and stops at its closing quote. -/
theorem scanString_printString {fuel : ℕ} {s : List Char} (hfuel : s.length < fuel) :
    scanString fuel ((printString ascii s).tail ++ rest) = some (s, rest) := by
  rw [printString, List.tail_cons, List.append_assoc]
  exact scanString_printed ascii rest hfuel

/-- A printed string is longer than its content, by its quotes. -/
theorem length_lt_printString (ascii : Bool) (s : List Char) :
    s.length < (printString ascii s).length := by
  have h := length_le_flatMap ascii s
  rw [printString, List.length_cons, List.length_append]
  omega

section Equations

variable (fuel : ℕ) (cs : List Char)

/-- Behind a quote the scanner reads a string. -/
theorem scanValue_quote : scanValue number (fuel + 1) ('"' :: cs) =
    (scanString (cs.length + 1) cs).map fun (s, rest) => (.str (String.ofList s), rest) := rfl

/-- A bracket that does not close at once opens the items of an array. -/
theorem scanValue_bracket (h : (skipSpace cs).head? ≠ some ']') :
    scanValue number (fuel + 1) ('[' :: cs) =
      (scanItems number fuel (skipSpace cs)).map fun (xs, rest) => (.arr xs, rest) :=
  if_neg h

/-- A brace that does not close at once opens the members of an object. -/
theorem scanValue_brace (h : (skipSpace cs).head? ≠ some '}') :
    scanValue number (fuel + 1) ('{' :: cs) =
      (scanMembers number fuel (skipSpace cs)).map fun (members, rest) => (.obj members, rest) :=
  if_neg h

/-- The last item, or an item with more behind it. -/
theorem scanItems_last {x : Option Json}
    (h : scanValue number fuel cs = x.map fun v => (v, ']' :: rest)) :
    scanItems number (fuel + 1) cs = x.map fun v => ([v], rest) := by
  rw [scanItems, h]
  cases x <;> rfl

/-- An item followed by a comma is put in front of the items behind the comma. -/
theorem scanItems_more {x : Option Json} {xs : Option (List Json)} {more : List Char}
    (h : scanValue number fuel cs = x.map fun v => (v, ',' :: more))
    (hmore : scanItems number fuel (skipSpace more) = xs.map fun vs => (vs, rest)) :
    scanItems number (fuel + 1) cs =
      (x.bind fun v => xs.map fun vs => v :: vs).map fun vs => (vs, rest) := by
  rw [scanItems, h]
  cases x with
  | none => rfl
  | some v =>
    refine Eq.trans (b := (scanItems number fuel (skipSpace more)).bind fun (vs, rest) =>
      some (v :: vs, rest)) rfl ?_
    rw [hmore]
    cases xs <;> rfl

/-- The last member, or a member with more behind it. -/
theorem scanMembers_last {name : String} {value : Option Json} {front : List Char}
    (hname : scanName front = some (name, cs))
    (h : scanValue number fuel cs = value.map fun v => (v, '}' :: rest)) :
    scanMembers number (fuel + 1) front = value.map fun v => ([(name, v)], rest) := by
  rw [scanMembers, hname]
  refine Eq.trans (b := (scanValue number fuel cs).bind fun _ => _) rfl ?_
  rw [h]
  cases value <;> rfl

/-- A member followed by a comma is put in front of the members behind the comma. -/
theorem scanMembers_more {name : String} {value : Option Json} {front more : List Char}
    {members : Option (List (String × Json))} (hname : scanName front = some (name, cs))
    (h : scanValue number fuel cs = value.map fun v => (v, ',' :: more))
    (hmore : scanMembers number fuel (skipSpace more) = members.map fun ms => (ms, rest)) :
    scanMembers number (fuel + 1) front =
      (value.bind fun v => members.map fun ms => (name, v) :: ms).map fun ms => (ms, rest) := by
  rw [scanMembers, hname]
  refine Eq.trans (b := (scanValue number fuel cs).bind fun _ => _) rfl ?_
  rw [h]
  cases value with
  | none => rfl
  | some v =>
    refine Eq.trans (b := (scanMembers number fuel (skipSpace more)).bind fun (ms, rest) =>
      some ((name, v) :: ms, rest)) rfl ?_
    rw [hmore]
    cases members <;> rfl

/-- A printed name is read back with its colon. -/
theorem scanName_printed (name : String) (hcs : skipSpace cs = cs) :
    scanName (printString ascii name.toList ++ ':' :: cs) = some (name, cs) := by
  have hlength := length_lt_printString ascii name.toList
  have hscan : scanString (printString ascii name.toList ++ ':' :: cs).length
      (printString ascii name.toList ++ ':' :: cs).tail = some (name.toList, ':' :: cs) :=
    scanString_printString (by rw [List.length_append]; omega)
  have hhead : (printString ascii name.toList ++ ':' :: cs).head? = some '"' := rfl
  have hcolon : skipSpace (':' :: cs) = ':' :: cs := rfl
  rw [scanName, hscan, hhead]
  simp only [guard, if_true, Option.pure_def, Option.bind_eq_bind, Option.bind_some, hcolon,
    List.head?_cons, List.tail_cons, hcs, String.ofList_toList]

end Equations

mutual
/-- A printed value is scanned as a whole, whatever follows it. -/
theorem scanValue_print : ∀ (v : Json) (fuel : ℕ) (rest : List Char),
    (print t ascii v).length ≤ fuel → EndsNumber rest →
    scanValue number fuel (print t ascii v ++ rest) = (reread number t v).map fun w => (w, rest)
  | v, 0, _, hfuel, _ => by
    obtain ⟨c, cs, hprint, -⟩ := head_print t ascii v
    rw [hprint, List.length_cons] at hfuel
    omega
  | .null, fuel + 1, _, _, _ => rfl
  | .bool true, fuel + 1, _, _, _ => rfl
  | .bool false, fuel + 1, _, _, _ => rfl
  | .int n, fuel + 1, rest, _, hrest => by
    rw [print, scanValue_number (NumberText.wf_ofInt n),
      scanNumberValue_text (NumberText.wf_ofInt n) hrest, reread]
  | .float q, fuel + 1, rest, _, hrest => by
    rw [print, scanValue_number (t.wf q), scanNumberValue_text (t.wf q) hrest, reread]
  | .str s, fuel + 1, rest, _, _ => by
    have hlength := length_le_flatMap ascii s.toList
    rw [print, printString, List.cons_append, List.append_assoc, List.singleton_append,
      scanValue_quote, scanString_printed ascii rest (by rw [List.length_append]; omega),
      Option.map_some]
    simp only [String.ofList_toList, reread, Option.map_some]
  | .arr [], fuel + 1, rest, _, _ => rfl
  | .arr (x :: xs), fuel + 1, rest, hfuel, _ => by
    rw [print, List.length_cons, List.length_append, List.length_singleton] at hfuel
    obtain ⟨c, cs, hprint, hspace, hc⟩ := head_print t ascii x
    have hitems : ∃ more, printItems t ascii (x :: xs) ++ ']' :: rest = c :: more := by
      rw [printItems, hprint]
      exact ⟨_, rfl⟩
    obtain ⟨more, hmore⟩ := hitems
    have hscan := scanItems_print (x :: xs) fuel rest (List.cons_ne_nil x xs) (by omega)
    rw [hmore] at hscan
    rw [print, List.cons_append, List.append_assoc, List.singleton_append, hmore,
      scanValue_bracket, skipSpace_cons hspace, hscan, reread, Option.map_map, Option.map_map]
    · rfl
    · rw [skipSpace_cons hspace, List.head?_cons, ne_eq, Option.some.injEq]
      exact hc
  | .obj [], fuel + 1, rest, _, _ => rfl
  | .obj (m :: members), fuel + 1, rest, hfuel, _ => by
    rw [print, List.length_cons, List.length_append, List.length_singleton] at hfuel
    have hmembers : ∃ more, printMembers t ascii (m :: members) ++ '}' :: rest = '"' :: more :=
      ⟨_, rfl⟩
    obtain ⟨more, hmore⟩ := hmembers
    have hscan := scanMembers_print (m :: members) fuel rest (List.cons_ne_nil m members)
      (by omega)
    rw [hmore] at hscan
    rw [print, List.cons_append, List.append_assoc, List.singleton_append, hmore,
      scanValue_brace, skipSpace_cons (by decide), hscan, reread, Option.map_map, Option.map_map]
    · rfl
    · rw [skipSpace_cons (by decide), List.head?_cons]
      decide

/-- Scanning printed items rereads each of them and stops behind the closing bracket. -/
theorem scanItems_print : ∀ (xs : List Json) (fuel : ℕ) (rest : List Char),
    xs ≠ [] → (printItems t ascii xs).length < fuel →
    scanItems number fuel (printItems t ascii xs ++ ']' :: rest) =
      (rereadItems number t xs).map fun ys => (ys, rest)
  | _, 0, _, _, hfuel => absurd hfuel (Nat.not_lt_zero _)
  | [], _, _, hne, _ => absurd rfl hne
  | [x], fuel + 1, rest, _, hfuel => by
    rw [printItems, List.isEmpty_nil, cond_true, List.append_nil] at hfuel ⊢
    rw [scanItems_last fuel _ (scanValue_print x fuel (']' :: rest) (by omega) endsNumber_bracket)]
    cases hx : reread number t x <;> simp [rereadItems, hx]
  | x :: y :: ys, fuel + 1, rest, _, hfuel => by
    rw [printItems, List.isEmpty_cons, cond_false] at hfuel ⊢
    rw [List.length_append, List.length_cons] at hfuel
    rw [List.append_assoc, List.cons_append]
    refine scanItems_more fuel _ (scanValue_print x fuel _ (by omega) endsNumber_comma) ?_
    have hskip : skipSpace (printItems t ascii (y :: ys) ++ ']' :: rest) =
        printItems t ascii (y :: ys) ++ ']' :: rest := by
      rw [printItems, List.append_assoc, skipSpace_print t ascii y]
    rw [hskip]
    exact scanItems_print (y :: ys) fuel rest (List.cons_ne_nil y ys) (by omega)

/-- Scanning printed members rereads each of them and stops behind the closing brace. -/
theorem scanMembers_print : ∀ (members : List (String × Json)) (fuel : ℕ) (rest : List Char),
    members ≠ [] → (printMembers t ascii members).length < fuel →
    scanMembers number fuel (printMembers t ascii members ++ '}' :: rest) =
      (rereadMembers number t members).map fun ms => (ms, rest)
  | _, 0, _, _, hfuel => absurd hfuel (Nat.not_lt_zero _)
  | [], _, _, hne, _ => absurd rfl hne
  | [(name, value)], fuel + 1, rest, _, hfuel => by
    rw [printMembers, List.isEmpty_nil, cond_true, List.append_nil] at hfuel ⊢
    rw [List.length_append, List.length_cons] at hfuel
    rw [List.append_assoc, List.cons_append,
      scanMembers_last fuel _ (scanName_printed _ name (skipSpace_print t ascii value _))
        (scanValue_print value fuel ('}' :: rest) (by omega) endsNumber_brace)]
    cases hvalue : reread number t value <;> simp [rereadMembers, hvalue]
  | (name, value) :: m :: ms, fuel + 1, rest, _, hfuel => by
    rw [printMembers, List.isEmpty_cons, cond_false] at hfuel ⊢
    rw [List.length_append, List.length_cons, List.length_append, List.length_cons] at hfuel
    rw [List.append_assoc, List.cons_append, List.append_assoc, List.cons_append]
    refine scanMembers_more fuel _ (scanName_printed _ name (skipSpace_print t ascii value _))
      (scanValue_print value fuel _ (by omega) endsNumber_comma) ?_
    have hskip : skipSpace (printMembers t ascii (m :: ms) ++ '}' :: rest) =
        printMembers t ascii (m :: ms) ++ '}' :: rest := rfl
    rw [hskip]
    exact scanMembers_print (m :: ms) fuel rest (List.cons_ne_nil m ms) (by omega)
end

/-- A printed text is read as the value that the reader makes of it. -/
theorem parse_print (v : Json) : parse number (print t ascii v) = reread number t v := by
  have hskip := skipSpace_print t ascii v []
  have hends : EndsNumber [] := fun c hc => by cases hc
  have hscan : scanValue number (print t ascii v).length (print t ascii v ++ []) =
      (reread number t v).map fun w => (w, []) :=
    scanValue_print v _ [] (Nat.le_refl _) hends
  rw [List.append_nil] at hskip hscan
  rw [parse, hskip, hscan]
  cases reread number t v <;> rfl

/-- An integer is printed as a number without a fraction. -/
theorem numberValue_ofInt (n : ℤ) : numberValue t (NumberText.ofInt n) = some (.int n) :=
  (if_neg Bool.false_ne_true).trans (by rw [NumberText.toInt_ofInt])

mutual
/-- The decoder makes the same value of what the encoder printed. -/
theorem reread_self : ∀ v : Json, v.FloatsIn t → reread (numberValue t) t v = some v
  | .null, _ | .bool _, _ | .str _, _ => rfl
  | .int n, _ => numberValue_ofInt n
  | .float q, h => by
    rw [reread, numberValue, if_pos (t.isReal q h), t.round_repr q h, Option.map_some]
  | .arr xs, h => by rw [reread, rereadItems_self xs h, Option.map_some]
  | .obj members, h => by rw [reread, rereadMembers_self members h, Option.map_some]

/-- Items with only exact floats are reread as they are. -/
theorem rereadItems_self : ∀ xs : List Json, FloatsInItems t xs →
    rereadItems (numberValue t) t xs = some xs
  | [], _ => rfl
  | x :: xs, h => by
    rw [rereadItems, reread_self x h.1, rereadItems_self xs h.2, Option.bind_some, Option.map_some]

/-- Members with only exact floats are reread as they are. -/
theorem rereadMembers_self : ∀ members : List (String × Json), FloatsInMembers t members →
    rereadMembers (numberValue t) t members = some members
  | [], _ => rfl
  | (name, value) :: rest, h => by
    rw [rereadMembers, reread_self value h.1, rereadMembers_self rest h.2, Option.bind_some,
      Option.map_some]
end

/-- What was printed is read back. -/
theorem loads_print {v : Json} (h : v.FloatsIn t) : loads t (print t ascii v) = some v :=
  (parse_print v).trans (reread_self v h)

/-- Inserting a member in order keeps the floats exact. -/
theorem floatsIn_insertMember (name : String) {value : Json} {members : List (String × Json)}
    (hvalue : value.FloatsIn t) (hmembers : FloatsInMembers t members) :
    FloatsInMembers t (insertMember name value members) := by
  induction members with
  | nil => exact ⟨hvalue, trivial⟩
  | cons m rest ih =>
    rw [insertMember]
    split
    · exact hmembers
    · split
      · exact ⟨hvalue, hmembers⟩
      · exact ⟨hmembers.1, ih hmembers.2⟩

mutual
/-- Sorting the keys of a value keeps its floats exact. -/
theorem floatsIn_sorted : ∀ v : Json, v.FloatsIn t → v.sorted.FloatsIn t
  | .null, h | .bool _, h | .int _, h | .float _, h | .str _, h => h
  | .arr xs, h => floatsIn_sortedList xs h
  | .obj members, h => floatsIn_sortedMembers members h

/-- Sorting inside the items of an array keeps their floats exact. -/
theorem floatsIn_sortedList : ∀ xs : List Json, FloatsInItems t xs → FloatsInItems t (sortedList xs)
  | [], h => h
  | x :: xs, h => ⟨floatsIn_sorted x h.1, floatsIn_sortedList xs h.2⟩

/-- Sorting the members of an object keeps their floats exact. -/
theorem floatsIn_sortedMembers : ∀ members : List (String × Json), FloatsInMembers t members →
    FloatsInMembers t (sortedMembers members)
  | [], h => h
  | (name, value) :: rest, h =>
    floatsIn_insertMember name (floatsIn_sorted value h.1) (floatsIn_sortedMembers rest h.2)
end

section Scalars

variable {p : Json → Bool}

/-- Inserting a member in order brings no scalar of the kind looked for. -/
theorem anyScalar_insertMember (name : String) {value : Json} {members : List (String × Json)}
    (hvalue : anyScalar p value = false) (hmembers : anyScalarMembers p members = false) :
    anyScalarMembers p (insertMember name value members) = false := by
  induction members with
  | nil => exact Bool.or_eq_false_iff.mpr ⟨hvalue, rfl⟩
  | cons m rest ih =>
    obtain ⟨hm, hrest⟩ := Bool.or_eq_false_iff.mp hmembers
    rw [insertMember]
    split
    · exact hmembers
    · split
      · exact Bool.or_eq_false_iff.mpr ⟨hvalue, hmembers⟩
      · exact Bool.or_eq_false_iff.mpr ⟨hm, ih hrest⟩

mutual
/-- Sorting brings in no scalars. -/
theorem anyScalar_sorted : ∀ v : Json, anyScalar p v = false → anyScalar p v.sorted = false
  | .null, h | .bool _, h | .int _, h | .float _, h | .str _, h => h
  | .arr xs, h => anyScalar_sortedList xs h
  | .obj members, h => anyScalar_sortedMembers members h

/-- Sorting inside the items brings no scalar of the kind looked for. -/
theorem anyScalar_sortedList : ∀ xs : List Json, anyScalarItems p xs = false →
    anyScalarItems p (sortedList xs) = false
  | [], h => h
  | x :: xs, h =>
    have hboth := Bool.or_eq_false_iff.mp h
    Bool.or_eq_false_iff.mpr ⟨anyScalar_sorted x hboth.1, anyScalar_sortedList xs hboth.2⟩

/-- Sorting the members brings no scalar of the kind looked for. -/
theorem anyScalar_sortedMembers : ∀ members : List (String × Json),
    anyScalarMembers p members = false → anyScalarMembers p (sortedMembers members) = false
  | [], h => h
  | (name, value) :: rest, h =>
    have hboth := Bool.or_eq_false_iff.mp h
    anyScalar_insertMember name (anyScalar_sorted value hboth.1)
      (anyScalar_sortedMembers rest hboth.2)
end

/-- Sorting the keys makes no integer longer. -/
theorem hasLongInt_sorted {v : Json} (h : v.hasLongInt = false) : v.sorted.hasLongInt = false :=
  anyScalar_sorted v h

end Scalars

/-- The text of a value is read back as the value with its members sorted. -/
theorem loads_dumps {v : Json} (h : v.FloatsIn t) : loads t (dumps t ascii v) = some v.sorted :=
  loads_print (floatsIn_sorted v h)

end RoundTrip

end Json

/-- The text of one half. -/
def halfText : FloatText where
  isFloat q := q = 1 / 2
  repr _ := ⟨false, ['0'], ['.', '5'], []⟩
  round q := if q = 1 / 2 then some q else none
  wf _ := ⟨.inl rfl, .inr ⟨['5'], rfl, by decide, by decide⟩, .inl rfl⟩
  isReal _ _ := rfl
  round_repr _ h := by
    rw [h]
    decide +kernel

end MemoryPlane
