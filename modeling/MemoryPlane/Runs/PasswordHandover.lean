import MemoryPlane.Config.Libpq
import MemoryPlane.Config.PostgresProcess

/-!
# Passwords handed over to the processes of the database

The entry of the password file is read back exactly if no field breaks the line and the host does
not start a comment, and the URL on the command line has no password exactly if the parts that it
keeps have none.
-/

namespace MemoryPlane

namespace Libpq

open Urls

section Entries

variable {first : List Char} {others : List (List Char)}

/-- One line that is ended is the only one. -/
theorem lines_ended {line : List Char} (h : ∀ c ∈ line, c ≠ '\n') :
    lines (line ++ ['\n']) = [line] := by
  rw [lines, List.splitOnP_append_cons_of_forall_mem (by simpa using h) _ (by simp)]
  simp [Text.dropEmptyEnd]

/-- No line has a line feed. -/
theorem ne_feed_of_mem_lines {text line : List Char} (h : line ∈ lines text) :
    ∀ c ∈ line, c ≠ '\n' := by
  have hmem : line ∈ text.splitOnP (· = '\n') := by
    rw [lines, Text.dropEmptyEnd] at h
    split at h
    · exact List.dropLast_subset _ h
    · exact h
  intro c hc
  simpa using Text.not_of_mem_splitOnP hmem hc

/-- Joined fields are read as the only entry exactly if no field has a line feed and the first does
not start like a comment. -/
theorem entries_join_iff :
    entries (Escapes.join '\\' ':' (first :: others) ++ ['\n']) = [first :: others] ↔
      (∀ field ∈ first :: others, '\n' ∉ field) ∧ first.head? ≠ some '#' := by
  have hone (h : ∀ field ∈ first :: others, ∀ c ∈ field, c ≠ '\n') :
      lines (Escapes.join '\\' ':' (first :: others) ++ ['\n']) =
        [Escapes.join '\\' ':' (first :: others)] :=
    lines_ended (Escapes.forall_mem_join (by decide) (by decide) h)
  have hhead : (Escapes.join '\\' ':' (first :: others)).head? = some '#' ↔
      first.head? = some '#' := Escapes.head?_join (by decide) (by decide) first others
  constructor
  · intro h
    have hfeed : ∀ field ∈ first :: others, ∀ c ∈ field, c ≠ '\n' := by
      obtain ⟨line, hline, hfields⟩ := List.mem_map.mp
        (show first :: others ∈ entries _ from h ▸ List.mem_singleton_self _)
      have hmem := ne_feed_of_mem_lines (List.mem_filter.mp hline).1
      exact fun field hfield =>
        Escapes.forall_mem_fields (by decide) hmem false field (hfields ▸ hfield)
    refine ⟨fun field hfield hmem => hfeed field hfield _ hmem rfl, ?_⟩
    intro hcomment
    rw [entries, hone hfeed, List.filter_cons_of_neg (by simpa using hhead.mpr hcomment)] at h
    cases h
  · rintro ⟨hfeed, hcomment⟩
    have hkept : (Escapes.join '\\' ':' (first :: others)).head? ≠ some '#' :=
      fun h => hcomment (hhead.mp h)
    rw [entries, hone fun field hfield c hc h => hfeed field hfield (h ▸ hc),
      List.filter_cons_of_pos (by simpa using hkept), List.filter_nil, List.map_singleton,
      Escapes.fields_join (by decide) (List.cons_ne_nil _ _)]

end Entries

section Uris

theorem partition_of_not_mem {sep : Char} {s : List Char} (h : sep ∉ s) :
    partition sep s = (s, none) := by
  induction s with
  | nil => rfl
  | cons c s ih =>
    rw [List.mem_cons, not_or] at h
    rw [partition, if_neg (Ne.symm h.1), ih h.2]

/-- A quoted user is the user part, and has no password. -/
theorem splitUser_quote (user rest : List Char) :
    splitUser (quote user ++ '@' :: rest) = (some (quote user), rest) := by
  have hspan : (quote user ++ '@' :: rest).span (fun c => c ≠ '@' && c ≠ '/') =
      (quote user, '@' :: rest) := by
    have hquote : ∀ c ∈ quote user, (c ≠ '@' && c ≠ '/') = true := by
      intro c hc
      obtain hsafe | rfl := mem_quote hc
      · have hne : ∀ d, alwaysSafe d = false → c ≠ d := by
          rintro d hd rfl
          cases hd.symm.trans hsafe
        simp [hne '@' (by decide), hne '/' (by decide)]
      · decide
    rw [List.span_eq_takeWhile_dropWhile, List.takeWhile_append_of_pos hquote,
      List.dropWhile_append_of_pos hquote]
    simp
  rw [splitUser, hspan]
  rfl

theorem userPassword_quote (user rest : List Char) :
    userPassword (quote user ++ '@' :: rest) = [] := by
  have hcolon : ':' ∉ quote user := by
    intro h
    obtain h | h := mem_quote h <;> revert h <;> decide
  rw [userPassword, splitUser_quote]
  simp [partition_of_not_mem hcolon]

variable {a rest : List Char}

/-- A character of a host that is read as it stands. -/
def IsPlain (c : Char) : Prop := c ∉ ['/', '?', ',', '@', '[', ']']

/-- Plain characters are skipped on the way to the first slash. -/
theorem afterHosts_append (h : ∀ c ∈ a, IsPlain c) :
    afterHosts .plain (a ++ rest) = afterHosts .plain rest := by
  induction a with
  | nil => rfl
  | cons c a ih =>
    have hc := h c List.mem_cons_self
    simp only [IsPlain, List.mem_cons, not_or] at hc
    rw [List.cons_append, afterHosts, if_neg (by simp [hc]), if_neg hc.2.2.1]
    exact ih fun d hd => h d (List.mem_cons_of_mem _ hd)

/-- An address in brackets is skipped. -/
theorem afterHosts_address (h : ∀ c ∈ a, IsPlain c) :
    afterHosts .address (a ++ ']' :: rest) = afterHosts .plain rest := by
  induction a with
  | nil => rfl
  | cons c a ih =>
    have hc := h c List.mem_cons_self
    simp only [IsPlain, List.mem_cons, not_or] at hc
    rw [List.cons_append, afterHosts, if_neg hc.2.2.2.2.2.1]
    exact ih fun d hd => h d (List.mem_cons_of_mem _ hd)

/-- The path stands behind a plain name. -/
theorem afterHosts_name (h : ∀ c ∈ a, IsPlain c) :
    afterHosts .start (a ++ '/' :: rest) = '/' :: rest := by
  cases a with
  | nil => rfl
  | cons c a =>
    have hc := h c List.mem_cons_self
    simp only [IsPlain, List.mem_cons, not_or] at hc
    rw [List.cons_append, afterHosts, if_neg (by simp [hc]), if_neg hc.2.2.2.2.1, if_neg hc.2.2.1,
      afterHosts_append fun d hd => h d (List.mem_cons_of_mem _ hd)]
    rfl

/-- No user part is found before the first slash where there is no `@`. -/
theorem splitUser_path (h : '@' ∉ a) (hslash : '/' ∉ a) :
    splitUser (a ++ '/' :: rest) = (none, a ++ '/' :: rest) := by
  have hkept : ∀ c ∈ a, (c ≠ '@' && c ≠ '/') = true := by
    intro c hc
    have hat : c ≠ '@' := fun he => h (he ▸ hc)
    have hne : c ≠ '/' := fun he => hslash (he ▸ hc)
    simp [hat, hne]
  have hspan : (a ++ '/' :: rest).span (fun c => c ≠ '@' && c ≠ '/') = (a, '/' :: rest) := by
    rw [List.span_eq_takeWhile_dropWhile, List.takeWhile_append_of_pos hkept,
      List.dropWhile_append_of_pos hkept]
    simp
  rw [splitUser, hspan]
  rfl

theorem partition_append {sep : Char} (h : sep ∉ a) :
    (partition sep (a ++ rest)).2 = (partition sep rest).2 := by
  induction a with
  | nil => rfl
  | cons c a ih =>
    rw [List.mem_cons, not_or] at h
    rw [List.cons_append, partition, if_neg (Ne.symm h.1)]
    exact ih h.2

end Uris

end Libpq

namespace PostgresProcess

open Urls

/-- The escapes of the password file are put before backslashes and colons. -/
theorem pgpassEscape_eq (value : List Char) :
    pgpassEscape value = Escapes.escape '\\' ':' value := by
  induction value with
  | nil => rfl
  | cons c value ih =>
    rw [pgpassEscape, Text.replace_single_cons, Escapes.escape_cons, ← ih, pgpassEscape]
    by_cases hslash : c = '\\'
    · subst hslash
      simp [Text.replace_single_cons]
    · by_cases hcolon : c = ':'
      · subst hcolon
        simp [Text.replace_single_cons]
      · simp [Text.replace_single_cons, hslash, hcolon]

theorem pgpassText_eq (fields : List (List Char)) :
    pgpassText fields = Escapes.join '\\' ':' fields ++ ['\n'] := by
  rw [pgpassText, Escapes.join, List.map_congr_left fun value _ => pgpassEscape_eq value]

/-- What is kept of the URL behind the host and the port. -/
def urlTail (parsed : SplitResult) : List Char :=
  (if parsed.path ≠ [] ∧ parsed.path.head? ≠ some '/' then '/' :: parsed.path else parsed.path) ++
    (if parsed.query = [] then [] else '?' :: parsed.query) ++
    (if parsed.fragment = [] then [] else '#' :: parsed.fragment)

theorem sanitize_eq {parsed : SplitResult} (hscheme : parsed.scheme ∈ schemes)
    (host suffix : List Char) : sanitize parsed host suffix =
      parsed.scheme ++ ':' :: '/' :: '/' ::
        (userPrefix parsed ++ (displayHost host ++ suffix ++ urlTail parsed)) := by
  have hne : parsed.scheme ≠ [] := by
    rintro h
    rw [h] at hscheme
    simp [schemes] at hscheme
  simp [sanitize, urlunsplit, urlTail, hne]

/-- The library finds the text behind the scheme. -/
theorem uriRest_sanitize {scheme : List Char} (hscheme : scheme ∈ schemes) (rest : List Char) :
    Libpq.uriRest (scheme ++ ':' :: '/' :: '/' :: rest) = some rest := by
  simp only [schemes, List.mem_cons, List.not_mem_nil, or_false] at hscheme
  rcases hscheme with rfl | rfl
  · simp [Libpq.uriRest, List.dropPrefix?]
  · simp [Libpq.uriRest, List.dropPrefix?]

/-- The host, the port and what the URL has behind them, as they stand in the sanitized URL. -/
def shownHosts (py : UrlRuntime) (parsed : SplitResult) (host : Option (List Char))
    (port : Option ℤ) (fromUrl : Option ℕ) : List Char :=
  displayHost (targetHost py parsed host) ++ portSuffix port fromUrl ++ urlTail parsed

/-- A password stands behind the user part of the URL: as a parameter, or where the library finds a
user part that the URL does not have. -/
def KeptPassword (parsed : SplitResult) (hosts : List Char) : Prop :=
  if username parsed = [] then Libpq.CarriesPassword hosts else Libpq.PasswordParameter hosts

/-- The fields of the password entry stay on one line, and it is no comment. -/
structure OneEntry (py : UrlRuntime) (parsed : SplitResult) (host : Option (List Char))
    (password : List Char) : Prop where
  hostLine : '\n' ∉ targetHost py parsed host
  comment : (targetHost py parsed host).head? ≠ some '#'
  databaseLine : '\n' ∉ unquote (databasePath parsed)
  userLine : '\n' ∉ username parsed
  passwordLine : '\n' ∉ unquote password

/-- The command line has no password, and the file has exactly the entry of the password. -/
structure SafeHandover (py : UrlRuntime) (parsed : SplitResult) (host : Option (List Char))
    (port : Option ℤ) (fromUrl : Option ℕ) (connection : PostgresProcessConnection)
    (file : Option PasswordFile) : Prop where
  hidden : ∃ rest, Libpq.uriRest connection.dsn = some rest ∧ ¬ Libpq.CarriesPassword rest
  entry : ∀ password, parsed.password = some password → ∃ f, file = some f ∧
    Libpq.entries f.text = [[targetHost py parsed host, (toString (targetPort port fromUrl)).toList,
      orElse (some (unquote (databasePath parsed))) ['*'], orElse (some (username parsed)) ['*'],
      unquote password]]

theorem feed_mem_orElse {text : List Char} : '\n' ∉ orElse (some text) ['*'] ↔ '\n' ∉ text := by
  rw [orElse, Option.getD_some]
  split
  · next h => simp [h]
  · rfl

theorem feed_not_mem_toString (n : ℤ) : '\n' ∉ (toString n).toList := by
  intro h
  have := mem_toString h
  revert this
  decide

/-- The password is kept in the sanitized URL exactly if it stands behind the user part. -/
theorem carriesPassword_iff (parsed : SplitResult) (hosts : List Char) :
    Libpq.CarriesPassword (userPrefix parsed ++ hosts) ↔ KeptPassword parsed hosts := by
  rw [userPrefix, KeptPassword]
  split
  · rfl
  · rw [List.append_assoc, List.singleton_append, Libpq.CarriesPassword, Libpq.userPassword_quote,
      Libpq.splitUser_quote]
    simp

/-- What is shown of the port is plain. -/
theorem isPlain_portSuffix {port : Option ℤ} {fromUrl : Option ℕ} :
    ∀ c ∈ portSuffix port fromUrl, Libpq.IsPlain c := by
  have hdigit : ∀ c : Char, c.isDigit = true ∨ c = '-' → Libpq.IsPlain c := by
    intro c hc hmem
    simp only [List.mem_cons, List.not_mem_nil, or_false] at hmem
    rcases hmem with rfl | rfl | rfl | rfl | rfl | rfl <;> revert hc <;> decide
  have hcolon : Libpq.IsPlain ':' := by simp [Libpq.IsPlain]
  intro c hc
  rw [portSuffix] at hc
  split_ifs at hc
  · obtain rfl | hc := List.mem_cons.mp hc
    · exact hcolon
    · exact hdigit c (mem_toString hc)
  · obtain rfl | hc := List.mem_cons.mp hc
    · exact hcolon
    · cases fromUrl with
      | none =>
        have hnone : c ∈ ['N', 'o', 'n', 'e'] := hc
        simp only [List.mem_cons, List.not_mem_nil, or_false] at hnone
        rcases hnone with rfl | rfl | rfl | rfl <;> simp [Libpq.IsPlain]
      | some p => exact hdigit c (mem_toString (show c ∈ (toString (p : ℤ)).toList from hc))
  · cases hc

/-- Of a URL with a path and a plain host, a password is kept exactly if a parameter of its query or
its fragment is one. -/
theorem keptPassword_iff {py : UrlRuntime} {parsed : SplitResult} {host : Option (List Char)}
    {port : Option ℤ} {fromUrl : Option ℕ} {path : List Char} (hpath : parsed.path = '/' :: path)
    (hquery : '?' ∉ path) (hhost : ∀ c ∈ targetHost py parsed host, Libpq.IsPlain c) :
    KeptPassword parsed (shownHosts py parsed host port fromUrl) ↔
      ∃ parameter ∈ ((partition '?' ((if parsed.query = [] then [] else '?' :: parsed.query) ++
        (if parsed.fragment = [] then [] else '#' :: parsed.fragment))).2.getD []).splitOnP
          (· = '&'),
        Libpq.isPassword parameter = true := by
  obtain ⟨tail, htail⟩ : ∃ tail, tail = (if parsed.query = [] then [] else '?' :: parsed.query) ++
    (if parsed.fragment = [] then [] else '#' :: parsed.fragment) := ⟨_, rfl⟩
  have hshown : urlTail parsed = '/' :: path ++ tail := by
    rw [urlTail, hpath, if_neg (by simp), List.append_assoc, htail]
  have hplain : ∀ {d : Char}, d ∈ ['/', '@'] → d ∉ displayHost (targetHost py parsed host) ++
      portSuffix port fromUrl := by
    intro d hd hmem
    have hmark : ¬ Libpq.IsPlain d ∧ d ≠ '[' ∧ d ≠ ']' := by
      simp only [List.mem_cons, List.not_mem_nil, or_false] at hd
      rcases hd with rfl | rfl <;> simp [Libpq.IsPlain]
    obtain hmem | hmem := List.mem_append.mp hmem
    · rw [displayHost] at hmem
      split at hmem
      · simp only [List.cons_append, List.mem_cons, List.mem_append, List.not_mem_nil, or_false,
          hmark.2.1, hmark.2.2, false_or] at hmem
        exact hmark.1 (hhost d hmem)
      · exact hmark.1 (hhost d hmem)
    · exact hmark.1 (isPlain_portSuffix d hmem)
  have huser : Libpq.splitUser (shownHosts py parsed host port fromUrl) =
      (none, shownHosts py parsed host port fromUrl) := by
    rw [shownHosts, hshown, List.cons_append]
    exact Libpq.splitUser_path (hplain (by simp)) (hplain (by simp))
  have hafter : Libpq.afterHosts .start (shownHosts py parsed host port fromUrl) =
      '/' :: (path ++ tail) := by
    rw [shownHosts, hshown, displayHost]
    split
    · rw [List.cons_append]
      have hbrackets : ('[' :: (targetHost py parsed host ++ [']'])) ++ portSuffix port fromUrl ++
          ('/' :: path ++ tail) = '[' :: (targetHost py parsed host ++ ']' ::
            (portSuffix port fromUrl ++ '/' :: (path ++ tail))) := by simp
      rw [hbrackets, Libpq.afterHosts, if_neg (by decide), if_pos rfl,
        Libpq.afterHosts_address hhost, Libpq.afterHosts_append isPlain_portSuffix]
      rfl
    · apply Libpq.afterHosts_name
      intro c hc
      exact (List.mem_append.mp hc).elim (hhost c) (isPlain_portSuffix c)
  have hparameter : Libpq.PasswordParameter (shownHosts py parsed host port fromUrl) ↔
      ∃ parameter ∈ ((partition '?' tail).2.getD []).splitOnP (· = '&'),
        Libpq.isPassword parameter = true := by
    rw [Libpq.PasswordParameter, Libpq.parameterText, hafter, ← List.cons_append,
      Libpq.partition_append]
    simpa using hquery
  rw [← htail, ← hparameter, KeptPassword, Libpq.CarriesPassword, Libpq.userPassword, huser]
  simp

/-- The password file is read as its entry exactly if the fields stay on one line. -/
theorem entries_pgpassText_iff (py : UrlRuntime) (parsed : SplitResult) (host : Option (List Char))
    (port : Option ℤ) (fromUrl : Option ℕ) {password : List Char}
    (h : parsed.password = some password) :
    Libpq.entries (pgpassText (splitParts py parsed host port fromUrl).pgpassFields) =
        [(splitParts py parsed host port fromUrl).pgpassFields] ↔
      OneEntry py parsed host password := by
  rw [pgpassText_eq, splitParts]
  dsimp only
  rw [Libpq.entries_join_iff]
  simp only [List.forall_mem_cons, feed_mem_orElse, h, Option.map_some, Option.getD_some,
    feed_not_mem_toString, not_false_eq_true, true_and]
  constructor
  · rintro ⟨⟨hhost, hdatabase, huser, hpassword, -⟩, hcomment⟩
    exact ⟨hhost, hcomment, hdatabase, huser, hpassword⟩
  · rintro ⟨hhost, hcomment, hdatabase, huser, hpassword⟩
    exact ⟨⟨hhost, hdatabase, huser, hpassword, by simp⟩, hcomment⟩

/-- What is handed over to a process. -/
theorem postgresProcessConnection_eq_ok {py : UrlRuntime} {dsn : List Char}
    {base : List (String × String)} {host : Option (List Char)} {port : Option ℤ} {name : String}
    {connection : PostgresProcessConnection} {file : Option PasswordFile}
    (h : postgresProcessConnection py dsn base host port name = .ok (connection, file)) :
    ∃ parts, splitDsn py dsn host port = .ok parts ∧ connection.dsn = parts.sanitized ∧
      file = parts.password.map fun _ => ⟨name, 0o600, pgpassText parts.pgpassFields⟩ := by
  obtain ⟨parts, hparts, h⟩ := Except.bind_eq_ok.mp h
  refine ⟨parts, hparts, ?_⟩
  cases hpassword : parts.password with
  | none =>
    rw [hpassword] at h
    cases h
    exact ⟨rfl, rfl⟩
  | some password =>
    rw [hpassword] at h
    cases h
    exact ⟨rfl, rfl⟩

/-- A password is handed over safely exactly if no password stands behind the user part of the URL
and no field of the entry breaks its line or makes it a comment. -/
theorem handover_iff {py : UrlRuntime} {dsn : List Char} {base : List (String × String)}
    {host : Option (List Char)} {port : Option ℤ} {name : String}
    {connection : PostgresProcessConnection} {file : Option PasswordFile} {parsed : SplitResult}
    {fromUrl : Option ℕ}
    (h : postgresProcessConnection py dsn base host port name = .ok (connection, file))
    (hparsed : urlsplit py dsn = .ok parsed) (hport : urlPort parsed port = .ok fromUrl) :
    SafeHandover py parsed host port fromUrl connection file ↔
      ¬ KeptPassword parsed (shownHosts py parsed host port fromUrl) ∧
        ∀ password, parsed.password = some password → OneEntry py parsed host password := by
  obtain ⟨parts, hparts, hdsn, rfl⟩ := postgresProcessConnection_eq_ok h
  obtain ⟨parsed', fromUrl', hparsed', hscheme, -, hport', rfl⟩ := splitDsn_eq_ok.mp hparts
  cases hparsed.symm.trans hparsed'
  cases hport.symm.trans hport'
  have hrest : Libpq.uriRest connection.dsn =
      some (userPrefix parsed ++ shownHosts py parsed host port fromUrl) := by
    rw [hdsn, splitParts, sanitize_eq hscheme, uriRest_sanitize hscheme]
    rfl
  have hentry {password : List Char} (hpassword : parsed.password = some password) :
      (splitParts py parsed host port fromUrl).password = some (unquote password) := by
    rw [splitParts, hpassword, Option.map_some]
  have hfields {password : List Char} (hpassword : parsed.password = some password) :
      (splitParts py parsed host port fromUrl).pgpassFields =
        [targetHost py parsed host, (toString (targetPort port fromUrl)).toList,
          orElse (some (unquote (databasePath parsed))) ['*'],
          orElse (some (username parsed)) ['*'], unquote password] := by
    rw [splitParts, hpassword, Option.map_some, Option.getD_some]
  constructor
  · rintro ⟨⟨rest, hdsn, hhidden⟩, hread⟩
    cases hrest.symm.trans hdsn
    refine ⟨(carriesPassword_iff _ _).not.mp hhidden, fun password hpassword => ?_⟩
    obtain ⟨f, hf, hentries⟩ := hread password hpassword
    rw [hentry hpassword, Option.map_some, Option.some.injEq] at hf
    subst hf
    rw [← hfields hpassword] at hentries
    exact (entries_pgpassText_iff py parsed host port fromUrl hpassword).mp hentries
  · rintro ⟨hkept, hone⟩
    refine ⟨⟨_, hrest, (carriesPassword_iff _ _).not.mpr hkept⟩, fun password hpassword => ?_⟩
    rw [hentry hpassword, ← hfields hpassword]
    exact ⟨_, rfl, (entries_pgpassText_iff py parsed host port fromUrl hpassword).mpr
      (hone password hpassword)⟩

/-- Host parts in ASCII, all of them allowed. -/
def asciiUrls : UrlRuntime := ⟨List.map Char.toLower, fun _ => true⟩

/-- A URL whose password has a colon. -/
def escapedUrl : List Char := "postgresql://app:p%3Aw@db:6432/main?sslmode=require".toList

def escapedParts : SplitResult :=
  ⟨"postgresql".toList, "app:p%3Aw@db:6432".toList, "/main".toList, "sslmode=require".toList, []⟩

/-- The colon is escaped, and the password is in the file only. -/
theorem handover_escaped :
    SafeHandover asciiUrls escapedParts none none (some 6432)
      ⟨"postgresql://app@db:6432/main?sslmode=require".toList, [("PGPASSFILE", "pass")],
        some "p:w".toList⟩
      (some ⟨"pass", 0o600, "db:6432:main:app:p\\:w\n".toList⟩) := by
  have hparsed : urlsplit asciiUrls escapedUrl = .ok escapedParts := by rfl
  have hport : urlPort escapedParts none = .ok (some 6432) := by rfl
  have hconnection : postgresProcessConnection asciiUrls escapedUrl [] none none "pass" =
      .ok (⟨"postgresql://app@db:6432/main?sslmode=require".toList, [("PGPASSFILE", "pass")],
          some "p:w".toList⟩, some ⟨"pass", 0o600, "db:6432:main:app:p\\:w\n".toList⟩) := by rfl
  have hpassword : escapedParts.password = some "p%3Aw".toList := by rfl
  refine (handover_iff hconnection hparsed hport).mpr ⟨?_, ?_⟩
  · rw [KeptPassword, if_neg (by decide +kernel), Libpq.PasswordParameter]
    decide +kernel
  · intro password h
    obtain rfl := Option.some.inj (hpassword.symm.trans h)
    constructor <;> decide +kernel

/-- A URL whose password has a line break. -/
def brokenUrl : List Char := "postgresql://app:first%0Asecond@db/main".toList

def brokenParts : SplitResult :=
  ⟨"postgresql".toList, "app:first%0Asecond@db".toList, "/main".toList, [], []⟩

/-- A URL with its password among the parameters. -/
def parameterUrl : List Char := "postgresql://app@db/main?password=secret".toList

def parameterParts : SplitResult :=
  ⟨"postgresql".toList, "app@db".toList, "/main".toList, "password=secret".toList, []⟩

/-- A password with a line break makes two entries, and a password parameter is kept. -/
theorem handover_unsafe :
    (∃ connection file, urlsplit asciiUrls brokenUrl = .ok brokenParts ∧
      postgresProcessConnection asciiUrls brokenUrl [] none none "pass" = .ok (connection, file) ∧
      ¬ SafeHandover asciiUrls brokenParts none none none connection file) ∧
    ∃ connection file, urlsplit asciiUrls parameterUrl = .ok parameterParts ∧
      postgresProcessConnection asciiUrls parameterUrl [] none none "pass" =
        .ok (connection, file) ∧
      ¬ SafeHandover asciiUrls parameterParts none none none connection file := by
  refine ⟨⟨_, _, by rfl, by rfl, ?_⟩, ⟨_, _, by rfl, by rfl, ?_⟩⟩
  · rintro ⟨-, hentry⟩
    obtain ⟨f, hf, hentries⟩ := hentry _ rfl
    cases hf
    revert hentries
    decide +kernel
  · rintro ⟨⟨rest, hrest, hhidden⟩, -⟩
    have hurl : Libpq.uriRest parameterUrl = some "app@db/main?password=secret".toList := by rfl
    cases hurl.symm.trans hrest
    exact hhidden (.inr ⟨"password=secret".toList, by decide +kernel, by decide +kernel⟩)

end PostgresProcess

end MemoryPlane
