import MemoryPlane.Lib.Proc
import MemoryPlane.Python.Pieces
import MemoryPlane.Scripts.ReleaseManifest

/-!
# URLs of a release

The text of a URL that has been accepted is split a second time, without the white space around it.
White space in front of an accepted URL is no part of it, and white space behind it belongs to the
host part at most, so the second time no other host part is looked at.
-/

namespace MemoryPlane

/-- The check of a host part accepts it without white space that follows it: it is about the
address in brackets, and about single characters. -/
def UrlRuntime.TrimsHosts (py : UrlRuntime) : Prop :=
  ∀ host blank : List Char, (∀ c ∈ blank, isSpace c = true) →
    py.netlocAllowed (host ++ blank) = true → py.netlocAllowed host = true

namespace Urls

/-- White space is no letter and none of the characters that structure a URL. -/
theorem not_alpha_of_isSpace {c : Char} (h : isSpace c = true) : c.isAlpha = false := by
  rw [Bool.eq_false_iff]
  intro halpha
  have hcode : 65 ≤ c.toNat ∧ c.toNat ≤ 122 := by
    obtain hupper | hlower := Bool.or_eq_true_iff.mp halpha
    · have := bounds_of_isUpper hupper
      omega
    · have := bounds_of_isLower hlower
      omega
  simp only [isSpace, Bool.or_eq_true, Bool.and_eq_true, decide_eq_true_eq, beq_iff_eq] at h
  omega

theorem ne_of_isSpace {c d : Char} (h : isSpace c = true) (hd : isSpace d = false) : c ≠ d := by
  rintro rfl
  rw [h] at hd
  cases hd

variable {py : UrlRuntime} {blank : List Char}

/-- What follows a text belongs to what is behind the separator, if the separator is not in it. -/
theorem partition_append {sep : Char} (h : sep ∉ blank) (s : List Char) :
    partition sep (s ++ blank) =
      match partition sep s with
      | (front, some behind) => (front, some (behind ++ blank))
      | (front, none) => (front ++ blank, none) := by
  induction s with
  | nil =>
    induction blank with
    | nil => rfl
    | cons c cs ih =>
      obtain ⟨hc, hcs⟩ := List.ne_and_not_mem_of_not_mem_cons h
      have hrest := ih hcs
      simp only [List.nil_append, partition] at hrest ⊢
      rw [if_neg (Ne.symm hc), hrest]
  | cons c cs ih =>
    rw [List.cons_append, partition, partition]
    split
    · rfl
    · rw [ih]
      rcases partition sep cs with ⟨front, _ | behind⟩ <;> rfl

/-- The host part of a cleaned URL, and what is behind it. -/
def splitHost (text : List Char) : List Char × List Char :=
  match (splitScheme text).2 with
  | '/' :: '/' :: behind => splitNetloc behind
  | _ => ([], (splitScheme text).2)

theorem urlsplit_eq (url : List Char) :
    urlsplit py url =
      if '[' ∈ (splitHost (cleaned url)).1 ↔ ']' ∈ (splitHost (cleaned url)).1 then
        if py.netlocAllowed (splitHost (cleaned url)).1 then
          let rest := partition '#' (splitHost (cleaned url)).2
          .ok ⟨(splitScheme (cleaned url)).1, (splitHost (cleaned url)).1, (partition '?' rest.1).1,
            (partition '?' rest.1).2.getD [], rest.2.getD []⟩
        else .error (.valueError "netloc contains invalid characters")
      else .error (.valueError "Invalid IPv6 URL") := rfl

/-- A URL is split exactly if its host part has no lone bracket and is allowed. -/
theorem urlsplit_returns_iff {url : List Char} : (∃ split, urlsplit py url = .ok split) ↔
    ('[' ∈ (splitHost (cleaned url)).1 ↔ ']' ∈ (splitHost (cleaned url)).1) ∧
      py.netlocAllowed (splitHost (cleaned url)).1 = true := by
  rw [urlsplit_eq]
  split_ifs with hbrackets hallowed <;> simp_all

theorem scheme_of_urlsplit {url : List Char} {split : SplitResult}
    (h : urlsplit py url = .ok split) : split.scheme = (splitScheme (cleaned url)).1 := by
  rw [urlsplit_eq] at h
  split_ifs at h
  cases h
  rfl

/-- White space behind a URL with a scheme is behind the rest of the URL. -/
theorem splitScheme_append {text : List Char} (hblank : ∀ c ∈ blank, isSpace c = true)
    (h : (splitScheme (text ++ blank)).1 ≠ []) :
    splitScheme (text ++ blank) = ((splitScheme text).1, (splitScheme text).2 ++ blank) := by
  have hcolon : ':' ∉ blank := fun hmem => by
    have := hblank _ hmem
    cases this
  rw [splitScheme, partition_append hcolon text] at h ⊢
  rw [splitScheme]
  generalize partition ':' text = parts at h ⊢
  rcases parts with ⟨_ | ⟨c, cs⟩, _ | behind⟩
  · exact absurd (by cases blank <;> rfl) h
  · exact absurd rfl h
  · exact absurd rfl h
  · dsimp only at h ⊢
    split_ifs at h ⊢
    · rfl
    · exact absurd rfl h

/-- White space goes on with the host part that it follows. -/
theorem splitNetloc_append (hblank : ∀ c ∈ blank, isSpace c = true) (text : List Char) :
    (splitNetloc (text ++ blank)).1 = (splitNetloc text).1 ∨
      (splitNetloc (text ++ blank)).1 = (splitNetloc text).1 ++ blank := by
  have hall : ∀ c ∈ blank, (decide (c ≠ '/') && decide (c ≠ '?') && decide (c ≠ '#')) = true := by
    intro c hc
    have hspace := hblank c hc
    simp [ne_of_isSpace hspace (d := '/') rfl, ne_of_isSpace hspace (d := '?') rfl,
      ne_of_isSpace hspace (d := '#') rfl]
  simp only [splitNetloc, List.span_eq_takeWhile_dropWhile]
  rw [List.takeWhile_append]
  split
  · next hlength =>
    rw [List.takeWhile_eq_self_iff.mpr hall,
      (List.takeWhile_prefix _).eq_of_length hlength]
    exact .inr rfl
  · exact .inl rfl

/-- White space behind a URL with a scheme belongs to the host part at most. -/
theorem host_append {text : List Char} (hblank : ∀ c ∈ blank, isSpace c = true)
    (h : (splitScheme (text ++ blank)).1 ≠ []) :
    (splitHost (text ++ blank)).1 = (splitHost text).1 ∨
      (splitHost (text ++ blank)).1 = (splitHost text).1 ++ blank := by
  have hslash : ∀ rest : List Char, blank ≠ '/' :: rest := by
    rintro rest rfl
    cases hblank '/' List.mem_cons_self
  rw [splitHost, splitHost, splitScheme_append hblank h]
  dsimp only
  generalize (splitScheme text).2 = rest
  -- the rest starts with two slashes before the white space follows, or not at all
  by_cases hhost : ∃ behind, rest = '/' :: '/' :: behind
  · obtain ⟨behind, rfl⟩ := hhost
    exact splitNetloc_append hblank behind
  · have hrest : ∀ behind, rest ++ blank ≠ '/' :: '/' :: behind := by
      intro behind heq
      rcases rest with _ | ⟨a, _ | ⟨b, rest⟩⟩
      · exact hslash _ heq
      · exact hslash _ (List.cons.inj heq).2
      · obtain ⟨rfl, htail⟩ := List.cons.inj heq
        obtain ⟨rfl, -⟩ := List.cons.inj htail
        exact hhost ⟨rest, rfl⟩
    left
    split
    · next heq => exact absurd heq (hrest _)
    · split
      · exact absurd ⟨_, rfl⟩ hhost
      · rfl

/-- A scheme starts with a letter. -/
theorem scheme_of_not_alpha {c : Char} (h : c.isAlpha = false) (cs : List Char) :
    (splitScheme (c :: cs)).1 = [] := by
  rw [splitScheme, partition]
  split
  · next heq =>
    split_ifs at heq
    · cases heq
    · obtain ⟨rfl, -⟩ := List.cons.inj (Prod.mk.inj heq).1
      rw [h, Bool.false_and]
      rfl
  · rfl

/-- A URL with a scheme has no white space in front beyond what is dropped, and white space behind
it stays behind it. -/
theorem exists_cleaned {front text : List Char} (hfront : ∀ c ∈ front, isSpace c = true)
    (hblank : ∀ c ∈ blank, isSpace c = true)
    (h : (splitScheme (cleaned (front ++ (text ++ blank)))).1 ≠ []) :
    ∃ tail, (∀ c ∈ tail, isSpace c = true) ∧
      cleaned (front ++ (text ++ blank)) = cleaned text ++ tail := by
  by_cases hlow : ∀ c ∈ front, c.toNat ≤ 32
  · have hdrop : cleaned (front ++ (text ++ blank)) = cleaned (text ++ blank) := by
      rw [cleaned, cleaned, List.dropWhile_append_of_pos fun c hc => decide_eq_true (hlow c hc)]
    rw [hdrop, cleaned, cleaned, List.dropWhile_append]
    split
    · next hempty =>
      rw [List.isEmpty_iff.mp hempty, List.filter_nil]
      refine ⟨_, ?_, (List.nil_append _).symm⟩
      intro c hc
      exact hblank c ((List.dropWhile_sublist _).subset (List.mem_filter.mp hc).1)
    · exact ⟨_, fun c hc => hblank c (List.mem_filter.mp hc).1, List.filter_append ..⟩
  · exfalso
    apply h
    have hnot : ¬ ((front.dropWhile fun c => c.toNat ≤ 32).isEmpty = true) := by
      rw [List.isEmpty_iff, List.dropWhile_eq_nil_iff]
      simpa using hlow
    rw [cleaned, List.dropWhile_append, if_neg hnot]
    cases hdrop : front.dropWhile fun c => c.toNat ≤ 32 with
    | nil => exact absurd (List.isEmpty_iff.mpr hdrop) hnot
    | cons d rest =>
      have hspace : isSpace d = true :=
        hfront d ((List.dropWhile_sublist _).subset (hdrop ▸ List.mem_cons_self))
      have hhigh : ¬ d.toNat ≤ 32 := by
        have := List.head_dropWhile_not (fun c : Char => decide (c.toNat ≤ 32))
          (l := front) (by rw [hdrop]; exact List.cons_ne_nil d rest)
        simpa [hdrop] using this
      have hkept : (decide (d ≠ '\t') && decide (d ≠ '\r') && decide (d ≠ '\n')) = true := by
        simp only [Bool.and_eq_true, decide_eq_true_eq]
        refine ⟨⟨?_, ?_⟩, ?_⟩ <;> rintro rfl <;> exact hhigh (by decide)
      rw [List.cons_append, List.filter_cons, if_pos hkept]
      exact scheme_of_not_alpha (not_alpha_of_isSpace hspace) _

/-- What is accepted as a URL with a scheme is split without the white space around it, too. -/
theorem urlsplit_strip {url : List Char} {split : SplitResult} (hpy : py.TrimsHosts)
    (h : urlsplit py url = .ok split) (hscheme : split.scheme ≠ []) :
    ∃ split', urlsplit py (Text.stripWith isSpace url) = .ok split' := by
  obtain ⟨front, blank, hurl, hfront, hblank⟩ := Text.exists_stripWith isSpace url
  rw [scheme_of_urlsplit h] at hscheme
  obtain ⟨hbrackets, hallowed⟩ := urlsplit_returns_iff.mp ⟨split, h⟩
  rw [hurl] at hscheme hbrackets hallowed
  obtain ⟨tail, htail, hcleaned⟩ := exists_cleaned hfront hblank hscheme
  rw [hcleaned] at hscheme hbrackets hallowed
  rw [urlsplit_returns_iff]
  obtain hhost | hhost := host_append htail hscheme
  · rw [← hhost]
    exact ⟨hbrackets, hallowed⟩
  · have hnot : ∀ c, isSpace c = false → c ∉ tail := by
      intro c hc hmem
      rw [htail c hmem] at hc
      cases hc
    rw [hhost] at hbrackets hallowed
    simp only [List.mem_append, hnot '[' rfl, hnot ']' rfl, or_false] at hbrackets
    exact ⟨hbrackets, hpy _ _ htail hallowed⟩

end Urls

namespace ReleaseEvidence

variable {rt : EvidenceRuntime}

/-- A URL that is accepted has a scheme. -/
theorem urlsplit_of_validHttpUrl {s : String} {requireHttps : Bool}
    (h : validHttpUrl rt requireHttps (.str s) = true) :
    ∃ split, Urls.urlsplit rt.url s.toList = .ok split ∧ split.scheme ≠ [] := by
  rw [validHttpUrl] at h
  split at h
  · next split hsplit =>
    refine ⟨split, hsplit, ?_⟩
    intro hnil
    rw [hnil] at h
    simp at h
  · cases h

/-- The second split of an accepted URL does not raise. -/
theorem normalizeUrl_returns (hurl : rt.url.TrimsHosts) (v : JsonValue) :
    ∃ url, normalizeUrl rt v = .ok url := by
  cases v with
  | str s =>
    rw [normalizeUrl]
    cases hskip : Text.isBlank s || !validHttpUrl rt false (.str s) with
    | true => exact ⟨none, rfl⟩
    | false =>
      obtain ⟨-, hvalid⟩ := Bool.or_eq_false_iff.mp hskip
      obtain ⟨split, hsplit, hscheme⟩ := urlsplit_of_validHttpUrl (by simpa using hvalid)
      obtain ⟨split', hsplit'⟩ := Urls.urlsplit_strip hurl hsplit hscheme
      dsimp only [cond_false]
      rw [hsplit', Except.ok_bind]
      cases (split'.scheme.map Char.toLower ≠ "http".toList &&
        split'.scheme.map Char.toLower ≠ "https".toList) || split'.netloc.isEmpty with
      | true => exact ⟨none, rfl⟩
      | false => exact ⟨_, rfl⟩
  | null | bool _ | int _ | float _ | arr _ | obj _ => exact ⟨none, rfl⟩

theorem sameUrl_returns (hurl : rt.url.TrimsHosts) (a b : JsonValue) :
    ∃ same, sameUrl rt a b = .ok same := by
  obtain ⟨first, hfirst⟩ := normalizeUrl_returns hurl a
  obtain ⟨second, hsecond⟩ := normalizeUrl_returns hurl b
  refine ⟨decide (first = second), ?_⟩
  rw [sameUrl, hfirst, Except.ok_bind, hsecond, Except.ok_bind]
  rfl

end ReleaseEvidence

end MemoryPlane
