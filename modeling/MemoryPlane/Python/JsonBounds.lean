import MemoryPlane.Python.JsonText

/-!
# Lengths of texts in JSON

A text that is read from JSON is no longer than the JSON text it is read from. An escape is longer
than the character it stands for, so every token that is scanned leaves at most what its text left.
-/

namespace MemoryPlane

namespace Json

variable {n : ℕ} {c : Char} {cs rest : List Char}

section Strings

/-- Reading four hexadecimal digits consumes some text. -/
theorem length_scanHex (h : scanHex cs = some (n, rest)) : rest.length < cs.length := by
  unfold scanHex at h
  split at h
  · obtain ⟨_, _, h⟩ := Option.bind_eq_some_iff.mp h
    obtain ⟨_, _, h⟩ := Option.bind_eq_some_iff.mp h
    obtain ⟨_, _, h⟩ := Option.bind_eq_some_iff.mp h
    obtain ⟨_, _, h⟩ := Option.bind_eq_some_iff.mp h
    cases h
    simp only [List.length_cons]
    omega
  · cases h

/-- Reading the second half of a pair consumes some text. -/
theorem length_scanLow (h : scanLow cs = some (n, rest)) : rest.length < cs.length := by
  unfold scanLow at h
  split at h
  · have hlt := length_scanHex (Option.filter_eq_some_iff.mp h).1
    simp only [List.length_cons]
    omega
  · cases h

/-- The second half of a surrogate pair is taken as well. -/
theorem length_scanCodePoint {more : List Char} (h : scanCodePoint n rest = some (c, more)) :
    more.length ≤ rest.length := by
  unfold scanCodePoint at h
  split at h
  · obtain ⟨low, hlow, h⟩ := Option.map_eq_some_iff.mp h
    rw [← (Prod.mk.inj h).2]
    exact (length_scanLow hlow).le
  · split at h
    · cases h
    · rw [(Prod.mk.inj (Option.some.inj h)).2]

/-- Reading an escape consumes some text. -/
theorem length_scanEscape (h : scanEscape cs = some (c, rest)) : rest.length < cs.length := by
  unfold scanEscape at h
  split at h
  · cases h
  · rw [List.length_cons]
    split at h
    · cases h
      exact Nat.lt_succ_self _
    · split at h
      · obtain ⟨code, hcode, h⟩ := Option.bind_eq_some_iff.mp h
        have hlt := length_scanHex hcode
        have hle := length_scanCodePoint h
        omega
      · obtain ⟨e, -, h⟩ := Option.map_eq_some_iff.mp h
        cases h
        exact Nat.lt_succ_self _

/-- Every character of a string takes at least one. -/
theorem length_scanChar (h : scanChar cs = some (c, rest)) : rest.length < cs.length := by
  unfold scanChar at h
  split at h
  · cases h
  · rw [List.length_cons]
    split at h
    · exact Nat.lt_succ_of_lt (length_scanEscape h)
    · split at h
      · cases h
      · cases h
        exact Nat.lt_succ_self _

/-- A string and what follows it fit into what was scanned. -/
theorem length_scanString {fuel : ℕ} {s : List Char} (h : scanString fuel cs = some (s, rest)) :
    s.length + rest.length ≤ cs.length := by
  induction fuel generalizing cs s with
  | zero => cases h
  | succ fuel ih =>
    rw [scanString] at h
    split at h
    · cases h
      rw [List.length_nil, List.length_tail]
      omega
    · obtain ⟨first, hfirst, h⟩ := Option.bind_eq_some_iff.mp h
      obtain ⟨more, hmore, h⟩ := Option.bind_eq_some_iff.mp h
      cases h
      have hlt := length_scanChar hfirst
      have hle := ih hmore
      rw [List.length_cons]
      omega

end Strings

section Numbers

/-- Reading the whole part of a number never adds text. -/
theorem length_scanWhole {ds : List Char} (h : scanWhole cs = some (ds, rest)) :
    rest.length ≤ cs.length := by
  unfold scanWhole at h
  split at h
  · cases h
  · rw [List.length_cons]
    split at h
    · cases h
      exact Nat.le_succ _
    · split at h
      · cases h
        exact Nat.le_succ_of_le (List.dropWhile_suffix _).length_le
      · cases h

/-- Reading a fraction never adds text. -/
theorem length_scanFraction (cs : List Char) : (scanFraction cs).2.length ≤ cs.length := by
  unfold scanFraction
  split
  · exact Nat.le_refl _
  · split
    · exact Nat.le_succ_of_le (List.dropWhile_suffix _).length_le
    · exact Nat.le_refl _

/-- Reading an exponent never adds text. -/
theorem length_scanExponent (cs : List Char) : (scanExponent cs).2.length ≤ cs.length := by
  unfold scanExponent
  split
  · exact Nat.le_refl _
  · dsimp only
    split
    · refine Nat.le_succ_of_le ((List.dropWhile_suffix _).length_le.trans ?_)
      exact (List.drop_suffix _ _).length_le
    · exact Nat.le_refl _

/-- Reading a number never adds text. -/
theorem length_scanNumber {m : NumberText} (h : scanNumber cs = some (m, rest)) :
    rest.length ≤ cs.length := by
  obtain ⟨⟨whole, more⟩, hwhole, h⟩ := Option.map_eq_some_iff.mp h
  cases h
  have hle : more.length ≤ cs.length := by
    refine (length_scanWhole hwhole).trans ?_
    split
    · exact (List.tail_suffix _).length_le
    · exact Nat.le_refl _
  exact (length_scanExponent _).trans ((length_scanFraction _).trans hle)

end Numbers

/-- No text in the value is longer. -/
def TextsWithin (n : ℕ) (v : Json) : Prop := v.anyText (fun s => decide (n < s.length)) = false

section Values

variable {number : NumberText → Option Json} {v : Json}

/-- Skipping white space never adds text. -/
theorem length_skipSpace (cs : List Char) : (skipSpace cs).length ≤ cs.length :=
  (List.dropWhile_suffix _).length_le

/-- A member's name is no longer than the text it is read from. -/
theorem length_scanName {name : String} (h : scanName cs = some (name, rest)) :
    name.length ≤ cs.length ∧ rest.length ≤ cs.length := by
  unfold scanName at h
  obtain ⟨_, _, h⟩ := Option.bind_eq_some_iff.mp h
  obtain ⟨⟨s, more⟩, hs, h⟩ := Option.bind_eq_some_iff.mp h
  obtain ⟨_, _, h⟩ := Option.bind_eq_some_iff.mp h
  cases h
  have hle := length_scanString hs
  have htail := cs.length_tail
  have hskip := length_skipSpace more
  have hmore := length_skipSpace (skipSpace more).tail
  rw [List.length_tail] at hmore
  rw [String.length_ofList]
  omega

/-- A short text has only short texts. -/
theorem anyText_str {s : String} (h : s.length ≤ n) : TextsWithin n (.str s) :=
  decide_eq_false (by omega)

mutual
/-- A scanned value has no longer texts, and leaves no more than there was. -/
theorem textsWithin_scanValue (hnumber : ∀ m v, number m = some v → TextsWithin n v) :
    ∀ (fuel : ℕ) (cs : List Char) (v : Json) (rest : List Char), cs.length ≤ n →
    scanValue number fuel cs = some (v, rest) → TextsWithin n v ∧ rest.length ≤ n
  | 0, _, _, _, _, h => by cases h
  | fuel + 1, [], _, _, _, h => by cases h
  | fuel + 1, c :: cs, v, rest, hle, h => by
    have hskip := length_skipSpace cs
    have hdrop : ∀ k, ((c :: cs).drop k).length ≤ n := fun k =>
      (List.drop_suffix k (c :: cs)).length_le.trans hle
    rw [List.length_cons] at hle
    rw [scanValue] at h
    split at h
    · obtain ⟨⟨s, more⟩, hs, h⟩ := Option.map_eq_some_iff.mp h
      cases h
      have hlength := length_scanString hs
      refine ⟨anyText_str ?_, by omega⟩
      rw [String.length_ofList]
      omega
    split at h
    · split at h
      · cases h
        refine ⟨rfl, ?_⟩
        rw [List.length_tail]
        omega
      · obtain ⟨⟨xs, more⟩, hxs, h⟩ := Option.map_eq_some_iff.mp h
        cases h
        exact textsWithin_scanItems hnumber fuel _ xs rest (by omega) hxs
    split at h
    · split at h
      · cases h
        refine ⟨rfl, ?_⟩
        rw [List.length_tail]
        omega
      · obtain ⟨⟨ms, more⟩, hms, h⟩ := Option.map_eq_some_iff.mp h
        cases h
        exact textsWithin_scanMembers hnumber fuel _ ms rest (by omega) hms
    split at h
    · cases h
      exact ⟨rfl, hdrop 4⟩
    split at h
    · cases h
      exact ⟨rfl, hdrop 4⟩
    split at h
    · cases h
      exact ⟨rfl, hdrop 5⟩
    · unfold scanNumberValue at h
      obtain ⟨⟨m, more⟩, hm, h⟩ := Option.bind_eq_some_iff.mp h
      obtain ⟨w, hw, h⟩ := Option.bind_eq_some_iff.mp h
      cases h
      have hlength := length_scanNumber hm
      rw [List.length_cons] at hlength
      exact ⟨hnumber m _ hw, by omega⟩

/-- No item read has a text longer than what is read. -/
theorem textsWithin_scanItems (hnumber : ∀ m v, number m = some v → TextsWithin n v) :
    ∀ (fuel : ℕ) (cs : List Char) (xs : List Json) (rest : List Char), cs.length ≤ n →
    scanItems number fuel cs = some (xs, rest) → TextsWithin n (.arr xs) ∧ rest.length ≤ n
  | 0, _, _, _, _, h => by cases h
  | fuel + 1, cs, xs, rest, hle, h => by
    rw [scanItems] at h
    obtain ⟨⟨x, more⟩, hx, h⟩ := Option.bind_eq_some_iff.mp h
    obtain ⟨htext, hmore⟩ := textsWithin_scanValue hnumber fuel cs x more hle hx
    have hskip := length_skipSpace more
    dsimp only at h
    split at h
    · cases h
    · rename_i d tail heq
      rw [heq, List.length_cons] at hskip
      split at h
      · cases h
        exact ⟨Bool.or_eq_false_iff.mpr ⟨htext, rfl⟩, by omega⟩
      · split at h
        · obtain ⟨⟨ys, last⟩, hys, h⟩ := Option.bind_eq_some_iff.mp h
          cases h
          have htail := length_skipSpace tail
          obtain ⟨hrest, hlast⟩ := textsWithin_scanItems hnumber fuel _ ys last (by omega) hys
          exact ⟨Bool.or_eq_false_iff.mpr ⟨htext, hrest⟩, hlast⟩
        · cases h

/-- No member read has a text longer than what is read. -/
theorem textsWithin_scanMembers (hnumber : ∀ m v, number m = some v → TextsWithin n v) :
    ∀ (fuel : ℕ) (cs : List Char) (ms : List (String × Json)) (rest : List Char), cs.length ≤ n →
    scanMembers number fuel cs = some (ms, rest) → TextsWithin n (.obj ms) ∧ rest.length ≤ n
  | 0, _, _, _, _, h => by cases h
  | fuel + 1, cs, ms, rest, hle, h => by
    rw [scanMembers] at h
    obtain ⟨⟨name, more⟩, hname, h⟩ := Option.bind_eq_some_iff.mp h
    obtain ⟨⟨x, after⟩, hx, h⟩ := Option.bind_eq_some_iff.mp h
    obtain ⟨hshort, hmore⟩ := length_scanName hname
    obtain ⟨htext, hafter⟩ := textsWithin_scanValue hnumber fuel more x after (by omega) hx
    have hmember : (decide (n < name.length) || x.anyText fun s => decide (n < s.length)) = false :=
      Bool.or_eq_false_iff.mpr ⟨decide_eq_false (by omega), htext⟩
    have hskip := length_skipSpace after
    dsimp only at h
    split at h
    · cases h
    · rename_i d tail heq
      rw [heq, List.length_cons] at hskip
      split at h
      · cases h
        exact ⟨Bool.or_eq_false_iff.mpr ⟨hmember, rfl⟩, by omega⟩
      · split at h
        · obtain ⟨⟨ns, last⟩, hns, h⟩ := Option.bind_eq_some_iff.mp h
          cases h
          have htail := length_skipSpace tail
          obtain ⟨hrest, hlast⟩ := textsWithin_scanMembers hnumber fuel _ ns last (by omega) hns
          exact ⟨Bool.or_eq_false_iff.mpr ⟨hmember, hrest⟩, hlast⟩
        · cases h
end

/-- No text of a parsed value is longer than what was parsed. -/
theorem textsWithin_parse (hnumber : ∀ m v, number m = some v → TextsWithin cs.length v)
    (h : parse number cs = some v) : TextsWithin cs.length v := by
  unfold parse at h
  obtain ⟨⟨value, rest⟩, hvalue, h⟩ := Option.bind_eq_some_iff.mp h
  obtain ⟨_, _, h⟩ := Option.bind_eq_some_iff.mp h
  cases h
  exact (textsWithin_scanValue hnumber _ _ _ _ (length_skipSpace cs) hvalue).1

end Values

section Sorting

variable {p : String → Bool}

/-- Inserting a member in order brings no text of the kind looked for. -/
theorem anyText_insertMember {name : String} {value : Json} {members : List (String × Json)}
    (hmember : (p name || value.anyText p) = false) (hmembers : anyTextMembers p members = false) :
    anyTextMembers p (insertMember name value members) = false := by
  induction members with
  | nil => exact Bool.or_eq_false_iff.mpr ⟨hmember, rfl⟩
  | cons m rest ih =>
    obtain ⟨hm, hrest⟩ := Bool.or_eq_false_iff.mp hmembers
    rw [insertMember]
    split
    · exact hmembers
    · split
      · exact Bool.or_eq_false_iff.mpr ⟨hmember, hmembers⟩
      · exact Bool.or_eq_false_iff.mpr ⟨hm, ih hrest⟩

mutual
/-- Sorting brings in no texts. -/
theorem anyText_sorted : ∀ v : Json, v.anyText p = false → v.sorted.anyText p = false
  | .null, h | .bool _, h | .int _, h | .float _, h | .str _, h => h
  | .arr xs, h => anyText_sortedList xs h
  | .obj members, h => anyText_sortedMembers members h

/-- Sorting inside the items brings no text of the kind looked for. -/
theorem anyText_sortedList : ∀ xs : List Json, anyTextItems p xs = false →
    anyTextItems p (sortedList xs) = false
  | [], h => h
  | x :: xs, h =>
    have hboth := Bool.or_eq_false_iff.mp h
    Bool.or_eq_false_iff.mpr ⟨anyText_sorted x hboth.1, anyText_sortedList xs hboth.2⟩

/-- Sorting the members brings no text of the kind looked for. -/
theorem anyText_sortedMembers : ∀ members : List (String × Json),
    anyTextMembers p members = false → anyTextMembers p (sortedMembers members) = false
  | [], h => h
  | (_, value) :: rest, h =>
    have hboth := Bool.or_eq_false_iff.mp h
    have hmember := Bool.or_eq_false_iff.mp hboth.1
    anyText_insertMember (Bool.or_eq_false_iff.mpr ⟨hmember.1, anyText_sorted value hmember.2⟩)
      (anyText_sortedMembers rest hboth.2)
end

end Sorting

end Json

end MemoryPlane
