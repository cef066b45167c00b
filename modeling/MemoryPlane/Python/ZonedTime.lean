import MemoryPlane.Python.Numbers

/-!
# Datetimes with their zones

A datetime as it stands in memory: the fields of its clock, and the zone that tells the offset from
UTC. In a zone with summer time a reading of the clock may occur twice or never; `fold` tells the
two offsets apart. A printed datetime keeps its offset and loses its zone.
-/

namespace MemoryPlane

/-- The leap years of the calendar. -/
def isLeapYear (year : ℕ) : Bool := year % 4 = 0 && (year % 100 ≠ 0 || year % 400 = 0)

def daysInMonth (year month : ℕ) : ℕ :=
  if month = 2 then if isLeapYear year then 29 else 28
  else if month = 4 ∨ month = 6 ∨ month = 9 ∨ month = 11 then 30
  else 31

/-- The fields of a clock and a calendar. -/
structure WallTime where
  year : ℕ
  month : ℕ
  day : ℕ
  hour : ℕ
  minute : ℕ
  second : ℕ
  microsecond : ℕ
  deriving DecidableEq

namespace WallTime

/-- The constructor accepts the fields. -/
def Valid (t : WallTime) : Prop :=
  (1 ≤ t.year ∧ t.year ≤ 9999) ∧ (1 ≤ t.month ∧ t.month ≤ 12) ∧
    (1 ≤ t.day ∧ t.day ≤ daysInMonth t.year t.month) ∧
    t.hour < 24 ∧ t.minute < 60 ∧ t.second < 60 ∧ t.microsecond < 1000000

instance (t : WallTime) : Decidable t.Valid := by
  unfold Valid
  infer_instance

/-- The days before a year. -/
def daysBeforeYear (year : ℕ) : ℕ :=
  (year - 1) * 365 + (year - 1) / 4 - (year - 1) / 100 + (year - 1) / 400

/-- The microseconds since the first of January of the year 1. -/
def micros (t : WallTime) : ℕ :=
  let days := daysBeforeYear t.year +
    (List.range' 1 (t.month - 1)).foldl (fun n month => n + daysInMonth t.year month) 0 +
      (t.day - 1)
  (((days * 24 + t.hour) * 60 + t.minute) * 60 + t.second) * 1000000 + t.microsecond

end WallTime

/-- An offset from UTC in microseconds, less than a day in either direction. -/
structure UtcOffset where
  micros : ℤ
  low : -86400000000 < micros
  high : micros < 86400000000
  deriving DecidableEq

/-- An offset of whole hours to the east. -/
def UtcOffset.ofHours (hours : Fin 24) : UtcOffset :=
  ⟨hours.val * 3600000000, by omega, by omega⟩

/-- A `tzinfo`: a fixed offset, or a zone of the time zone database. -/
inductive TimeZone where
  | fixed (offset : UtcOffset)
  | named (key : String)
  deriving DecidableEq

/-- `utcoffset` of the zones of the database, for a reading of the clock and its fold. -/
abbrev ZoneTable := String → WallTime → Bool → UtcOffset

/-- A datetime; it is naive if it has no zone. -/
structure ZonedTime where
  wall : WallTime
  fold : Bool
  zone : Option TimeZone
  valid : wall.Valid
  deriving DecidableEq

namespace ZonedTime

variable (zones : ZoneTable) (t : ZonedTime)

/-- `t.utcoffset()`. -/
def utcoffset : Option UtcOffset :=
  t.zone.map fun zone => match zone with
    | .fixed offset => offset
    | .named key => zones key t.wall t.fold

/-- The offset from UTC depends on the fold: the reading of the clock occurs twice or never. -/
def foldMatters : Bool :=
  ({ t with fold := !t.fold } : ZonedTime).utcoffset zones ≠ t.utcoffset zones

/-- `a == b`. Two datetimes of one zone are compared by their clocks. Otherwise a datetime whose
offset depends on its fold is equal to none. -/
def equal (a b : ZonedTime) : Bool :=
  match a.zone, b.zone with
  | none, none => a.wall = b.wall
  | some zone, some other =>
    if zone = other then a.wall = b.wall
    else
      match a.utcoffset zones, b.utcoffset zones with
      | some offset, some otherOffset =>
        decide ((a.wall.micros : ℤ) - offset.micros = b.wall.micros - otherOffset.micros) &&
          !a.foldMatters zones && !b.foldMatters zones
      | _, _ => false
  | _, _ => false

end ZonedTime

/-- The last decimal digits of a number, most significant first. -/
def decimals : ℕ → ℕ → List Char
  | 0, _ => []
  | width + 1, n => decimals width (n / 10) ++ [Nat.digitChar (n % 10)]

namespace IsoText

/-- A fraction of a second, if there is one. -/
def fraction (micros : ℕ) : List Char := if micros = 0 then [] else '.' :: decimals 6 micros

/-- `+HH:MM[:SS[.ffffff]]`. -/
def offset (o : UtcOffset) : List Char :=
  let n := o.micros.natAbs
  (if o.micros < 0 then '-' else '+') :: (decimals 2 (n / 3600000000) ++
    ':' :: (decimals 2 (n / 60000000 % 60) ++
      if n % 60000000 = 0 then []
      else ':' :: (decimals 2 (n / 1000000 % 60) ++ fraction (n % 1000000))))

/-- `YYYY-MM-DDTHH:MM:SS[.ffffff]`. -/
def wall (t : WallTime) : List Char :=
  decimals 4 t.year ++ '-' :: (decimals 2 t.month ++ '-' :: (decimals 2 t.day ++
    'T' :: (decimals 2 t.hour ++ ':' :: (decimals 2 t.minute ++ ':' :: (decimals 2 t.second ++
      fraction t.microsecond)))))

/-- A number of some digits at the front. -/
def scanDecimals (width : ℕ) (cs : List Char) : Option (ℕ × List Char) :=
  if (cs.take width).length = width ∧ (cs.take width).all isDigit then
    some (digitsValue (cs.take width), cs.drop width)
  else none

/-- A mark at the front. -/
def scanMark (mark : Char) : List Char → Option (List Char)
  | [] => none
  | c :: cs => if c = mark then some cs else none

def scanFraction (cs : List Char) : Option (ℕ × List Char) :=
  match scanMark '.' cs with
  | some cs => scanDecimals 6 cs
  | none => some (0, cs)

/-- The seconds of an offset with their fraction, at the end of a text. -/
def scanSeconds (cs : List Char) : Option (ℕ × ℕ) :=
  match scanMark ':' cs with
  | some cs => do
    let (seconds, cs) ← scanDecimals 2 cs
    let (micros, cs) ← scanFraction cs
    guard (cs = [])
    return (seconds, micros)
  | none => if cs = [] then some (0, 0) else none

/-- An offset behind its sign, in microseconds. -/
def scanOffset (cs : List Char) : Option ℕ := do
  let (hours, cs) ← scanDecimals 2 cs
  let cs ← scanMark ':' cs
  let (minutes, cs) ← scanDecimals 2 cs
  let (seconds, micros) ← scanSeconds cs
  guard (minutes < 60 ∧ seconds < 60)
  return ((hours * 60 + minutes) * 60 + seconds) * 1000000 + micros

/-- The offset with a sign and a size. -/
def signedOffset (negative : Bool) (n : ℕ) : Option UtcOffset :=
  if h : n < 86400000000 then
    some ⟨if negative then -n else n, by split <;> omega, by split <;> omega⟩
  else none

/-- The zone of a text: a sign with an offset behind it, or nothing. -/
def scanZone : List Char → Option (Option TimeZone)
  | [] => some none
  | sign :: cs =>
    if sign = '+' ∨ sign = '-' then
      ((scanOffset cs).bind (signedOffset (sign = '-'))).map fun o => some (.fixed o)
    else none

def scanWall (cs : List Char) : Option (WallTime × List Char) := do
  let (year, cs) ← scanDecimals 4 cs
  let cs ← scanMark '-' cs
  let (month, cs) ← scanDecimals 2 cs
  let cs ← scanMark '-' cs
  let (day, cs) ← scanDecimals 2 cs
  let cs ← scanMark 'T' cs
  let (hour, cs) ← scanDecimals 2 cs
  let cs ← scanMark ':' cs
  let (minute, cs) ← scanDecimals 2 cs
  let cs ← scanMark ':' cs
  let (second, cs) ← scanDecimals 2 cs
  let (microsecond, cs) ← scanFraction cs
  return (⟨year, month, day, hour, minute, second, microsecond⟩, cs)

/-- The datetime of a text as `isoformat` prints it. -/
def scan (cs : List Char) : Option ZonedTime := do
  let (wall, cs) ← scanWall cs
  let zone ← scanZone cs
  if h : wall.Valid then return ⟨wall, false, zone, h⟩ else none

end IsoText

/-- The datetime with its offset in place of its zone. -/
def ZonedTime.unzoned (zones : ZoneTable) (t : ZonedTime) : ZonedTime :=
  ⟨t.wall, false, (t.utcoffset zones).map TimeZone.fixed, t.valid⟩

/-- `t.isoformat()`. -/
def ZonedTime.isoformat (zones : ZoneTable) (t : ZonedTime) : List Char :=
  IsoText.wall t.wall ++ (t.utcoffset zones).elim [] IsoText.offset

section RoundTrip

theorem length_decimals (width n : ℕ) : (decimals width n).length = width := by
  induction width generalizing n with
  | zero => rfl
  | succ width ih => simp [decimals, ih]

theorem isDigit_digitChar : ∀ d < 10, isDigit (Nat.digitChar d) = true ∧
    digitValue (Nat.digitChar d) = d := by
  decide

theorem all_isDigit_decimals (width n : ℕ) : (decimals width n).all isDigit = true := by
  induction width generalizing n with
  | zero => rfl
  | succ width ih =>
    have hdigit := (isDigit_digitChar (n % 10) (Nat.mod_lt _ (by decide))).1
    simp [decimals, List.all_append, ih, hdigit]

/-- A number that fits is the value of its digits. -/
theorem digitsValue_decimals {width n : ℕ} (h : n < 10 ^ width) :
    digitsValue (decimals width n) = n := by
  induction width generalizing n with
  | zero =>
    have hzero : n = 0 := by simpa using h
    exact hzero.symm
  | succ width ih =>
    have hrest : n / 10 < 10 ^ width :=
      Nat.div_lt_of_lt_mul (by rwa [Nat.pow_succ', ] at h)
    have hdigit := (isDigit_digitChar (n % 10) (Nat.mod_lt _ (by decide))).2
    have hfold := ih hrest
    rw [digitsValue] at hfold
    rw [decimals, digitsValue, List.foldl_append, hfold, List.foldl_cons, List.foldl_nil, hdigit]
    omega

namespace IsoText

variable {rest : List Char}

theorem scanDecimals_decimals {width n : ℕ} (h : n < 10 ^ width) :
    scanDecimals width (decimals width n ++ rest) = some (n, rest) := by
  have hlength := length_decimals width n
  rw [scanDecimals, List.take_left' hlength, List.drop_left' hlength, digitsValue_decimals h,
    if_pos ⟨hlength, all_isDigit_decimals width n⟩]

/-- A mark is read where it stands. -/
theorem scanMark_self (mark : Char) (cs : List Char) : scanMark mark (mark :: cs) = some cs :=
  if_pos rfl

/-- What cannot start with a dot follows a fraction. -/
theorem scanFraction_fraction {micros : ℕ} (h : micros < 1000000)
    (hrest : scanMark '.' rest = none) :
    scanFraction (fraction micros ++ rest) = some (micros, rest) := by
  rw [fraction]
  split
  · next hzero =>
    rw [List.nil_append, scanFraction, hrest, hzero]
  · rw [List.cons_append, scanFraction, scanMark, if_pos rfl]
    exact scanDecimals_decimals h

theorem scanSeconds_printed {n : ℕ} :
    scanSeconds (if n % 60000000 = 0 then []
      else ':' :: (decimals 2 (n / 1000000 % 60) ++ fraction (n % 1000000))) =
        some (n / 1000000 % 60, n % 1000000) := by
  split
  · next hzero =>
    have hseconds : n / 1000000 % 60 = 0 ∧ n % 1000000 = 0 := by omega
    rw [hseconds.1, hseconds.2]
    rfl
  · have hfraction : scanFraction (fraction (n % 1000000)) = some (n % 1000000, []) := by
      have h : scanFraction (fraction (n % 1000000) ++ []) = some (n % 1000000, []) :=
        scanFraction_fraction (Nat.mod_lt n (by decide)) rfl
      rwa [List.append_nil] at h
    rw [scanSeconds, scanMark, if_pos rfl]
    have hwidth : n / 1000000 % 60 < 10 ^ 2 := by omega
    simp [scanDecimals_decimals hwidth, hfraction]

theorem scanOffset_printed {n : ℕ} (h : n < 86400000000) :
    scanOffset (decimals 2 (n / 3600000000) ++ ':' :: (decimals 2 (n / 60000000 % 60) ++
      if n % 60000000 = 0 then []
      else ':' :: (decimals 2 (n / 1000000 % 60) ++ fraction (n % 1000000)))) = some n := by
  have hhours : n / 3600000000 < 10 ^ 2 := by omega
  have hminutes : n / 60000000 % 60 < 10 ^ 2 := by omega
  have hbound : n / 60000000 % 60 < 60 ∧ n / 1000000 % 60 < 60 := by omega
  have hsum : ((n / 3600000000 * 60 + n / 60000000 % 60) * 60 + n / 1000000 % 60) * 1000000 +
      n % 1000000 = n := by omega
  simp only [scanOffset, scanDecimals_decimals hhours, scanDecimals_decimals hminutes, scanMark,
    scanSeconds_printed, Option.bind_eq_bind, Option.bind_some, if_pos, guard, hbound, hsum,
    and_self]
  rfl

theorem signedOffset_natAbs (o : UtcOffset) :
    signedOffset (decide (o.micros < 0)) o.micros.natAbs = some o := by
  have hlow := o.low
  have hhigh := o.high
  have hvalue : (if decide (o.micros < 0) = true then -(o.micros.natAbs : ℤ)
      else (o.micros.natAbs : ℤ)) = o.micros := by
    simp only [decide_eq_true_eq]
    split <;> omega
  rw [signedOffset, dif_pos (by omega)]
  cases o
  simpa using hvalue

/-- The zone that is read from a printed offset is that offset. -/
theorem scanZone_printed (offset : Option UtcOffset) :
    scanZone (offset.elim [] IsoText.offset) = some (offset.map TimeZone.fixed) := by
  cases offset with
  | none => rfl
  | some o =>
    have hlow := o.low
    have hhigh := o.high
    have hscan := scanOffset_printed (show o.micros.natAbs < 86400000000 by omega)
    have hsigned := signedOffset_natAbs o
    rw [Option.elim_some, IsoText.offset, scanZone]
    by_cases hneg : o.micros < 0
    · rw [decide_eq_true hneg] at hsigned
      rw [if_pos hneg, if_pos (.inr rfl), hscan, Option.bind_some, decide_eq_true rfl, hsigned]
      rfl
    · rw [decide_eq_false hneg] at hsigned
      rw [if_neg hneg, if_pos (.inl rfl), hscan, Option.bind_some, decide_eq_false (by decide),
        hsigned]
      rfl

/-- No fraction starts behind printed seconds. -/
theorem scanMark_zone (offset : Option UtcOffset) :
    scanMark '.' (offset.elim [] IsoText.offset) = none := by
  cases offset with
  | none => rfl
  | some o =>
    rw [Option.elim_some, IsoText.offset, scanMark]
    split <;> exact if_neg (by decide)

/-- A printed clock is read back. -/
theorem scanWall_printed {t : WallTime} (h : t.Valid) (hrest : scanMark '.' rest = none) :
    scanWall (wall t ++ rest) = some (t, rest) := by
  obtain ⟨hyear, hmonth, hday, hhour, hminute, hsecond, hmicrosecond⟩ := h
  have hdays : daysInMonth t.year t.month ≤ 31 := by
    rw [daysInMonth]
    split_ifs <;> omega
  have hyear' : t.year < 10 ^ 4 := by omega
  have hmonth' : t.month < 10 ^ 2 := by omega
  have hday' : t.day < 10 ^ 2 := by omega
  have hhour' : t.hour < 10 ^ 2 := by omega
  have hminute' : t.minute < 10 ^ 2 := by omega
  have hsecond' : t.second < 10 ^ 2 := by omega
  rw [scanWall, wall]
  simp only [List.append_assoc, List.cons_append, Option.bind_eq_bind]
  rw [scanDecimals_decimals hyear', Option.bind_some, scanMark_self, Option.bind_some,
    scanDecimals_decimals hmonth', Option.bind_some, scanMark_self, Option.bind_some,
    scanDecimals_decimals hday', Option.bind_some, scanMark_self, Option.bind_some,
    scanDecimals_decimals hhour', Option.bind_some, scanMark_self, Option.bind_some,
    scanDecimals_decimals hminute', Option.bind_some, scanMark_self, Option.bind_some,
    scanDecimals_decimals hsecond', Option.bind_some, scanFraction_fraction hmicrosecond hrest,
    Option.bind_some]
  rfl

/-- A printed datetime is read back with its clock and its offset. -/
theorem scan_isoformat (zones : ZoneTable) (t : ZonedTime) :
    scan (t.isoformat zones) = some (t.unzoned zones) := by
  simp only [scan, ZonedTime.isoformat, scanWall_printed t.valid (scanMark_zone _),
    scanZone_printed, Option.bind_eq_bind, Option.bind_some, dif_pos t.valid]
  rfl

end IsoText

namespace ZonedTime

variable (zones : ZoneTable) (t : ZonedTime)

theorem utcoffset_unzoned : (t.unzoned zones).utcoffset zones = t.utcoffset zones := by
  cases hoffset : t.utcoffset zones with
  | none =>
    rw [utcoffset, unzoned, hoffset]
    rfl
  | some offset =>
    rw [utcoffset, unzoned, hoffset]
    rfl

/-- Without its zone a datetime is equal to the one with its zone exactly if the offset does not
depend on the fold. -/
theorem equal_unzoned_iff :
    equal zones (t.unzoned zones) t = true ↔ t.foldMatters zones = false := by
  obtain ⟨wall, fold, zone, hvalid⟩ := t
  cases zone with
  | none => simp [equal, unzoned, utcoffset, foldMatters]
  | some zone =>
    cases zone with
    | fixed offset => simp [equal, unzoned, utcoffset, foldMatters]
    | named key => simp [equal, unzoned, utcoffset, foldMatters]

end ZonedTime

end RoundTrip

end MemoryPlane
