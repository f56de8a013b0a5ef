import Wenchang.Py.Json
import Wenchang.Py.Utf8
import Wenchang.Py.Occurrences

/-!
# `datetime`

A `DateTime` is what `datetime.datetime` stores, with its time zone reduced to what the library asks
of one: `utcoffset()`, in microseconds, or `none` for a naive value. The range checks of the
constructor are a field.

`isoformat` and `fromisoformat` follow CPython 3.11's: calendar and week dates, basic and extended times, and
offsets down to the microsecond, scanned byte by byte with ASCII digits only. What `isoformat` writes is read
back (`fromisoformat_isoformat`), except that an offset below a second is read as the one of UTC:
`DateTime.Readable` says that there is none, and holds of whatever was read (`readable_of_fromisoformat`).
Arithmetic goes through the proleptic Gregorian ordinal, as there.
-/

namespace Py

/-! ## The calendar -/

/-- `_is_leap(year)`. -/
def isLeap (year : Nat) : Bool := year % 4 == 0 && (year % 100 != 0 || year % 400 == 0)

/-- `_days_in_month(year, month)`. -/
def daysInMonth (year month : Nat) : Nat :=
  if month = 2 then if isLeap year then 29 else 28
  else if month = 4 ∨ month = 6 ∨ month = 9 ∨ month = 11 then 30 else 31

/-- `_days_before_year(year)`. -/
def daysBeforeYear (year : Nat) : Nat :=
  (year - 1) * 365 + (year - 1) / 4 - (year - 1) / 100 + (year - 1) / 400

/-- `_days_before_month(year, month)`. -/
def daysBeforeMonth (year month : Nat) : Nat :=
  ((List.range (month - 1)).map fun m => daysInMonth year (m + 1)).sum

/-- `_ymd2ord(year, month, day)`: day 1 is the first of January of year 1. -/
def ymd2ord (year month day : Nat) : Nat := daysBeforeYear year + daysBeforeMonth year month + day

/-- The month and day of the `n`-th day of a year, counted from 0. -/
def monthDay (year n : Nat) : Nat × Nat :=
  let month := ((List.range 12).filter fun m => daysBeforeMonth year (m + 1) ≤ n).length
  (month, n - daysBeforeMonth year month + 1)

/-- `_ord2ymd(n)`, by the cycles of 400, 100, 4 years and one. -/
def ord2ymd (n : Nat) : Nat × Nat × Nat :=
  let n := n - 1
  let n400 := n / 146097
  let n := n % 146097
  let n100 := n / 36524
  let n := n % 36524
  let n4 := n / 1461
  let n := n % 1461
  let n1 := n / 365
  let n := n % 365
  let year := n400 * 400 + 1 + n100 * 100 + n4 * 4 + n1
  if n1 = 4 ∨ n100 = 4 then (year - 1, 12, 31)
  else (year, monthDay year n)

/-! ## Values -/

/-- Microseconds in a day. -/
def dayMicros : Nat := 86400 * 1000000

/-- The checks of `datetime(...)` and of its time zone: an offset is strictly within a day. -/
def DateTime.Valid (year month day hour minute second microsecond : Nat)
    (utcoffset : Option Int) : Prop :=
  (1 ≤ year ∧ year ≤ 9999) ∧ (1 ≤ month ∧ month ≤ 12) ∧ (1 ≤ day ∧ day ≤ daysInMonth year month) ∧
    hour < 24 ∧ minute < 60 ∧ second < 60 ∧ microsecond < 1000000 ∧
    ∀ o ∈ utcoffset, -(dayMicros : Int) < o ∧ o < dayMicros

instance (year month day hour minute second microsecond : Nat) (utcoffset : Option Int) :
    Decidable (DateTime.Valid year month day hour minute second microsecond utcoffset) := by
  unfold DateTime.Valid
  infer_instance

/-- A `datetime.datetime`. -/
structure DateTime where
  year : Nat
  month : Nat
  day : Nat
  hour : Nat
  minute : Nat
  second : Nat
  microsecond : Nat
  /-- `utcoffset()` in microseconds; `none` for a naive value. -/
  utcoffset : Option Int
  valid : DateTime.Valid year month day hour minute second microsecond utcoffset
  deriving DecidableEq

namespace DateTime

/-- `datetime(...)`, or `none` where it raises `ValueError`. -/
def mk? (year month day hour minute second microsecond : Nat) (utcoffset : Option Int) :
    Option DateTime :=
  if h : Valid year month day hour minute second microsecond utcoffset then
    some ⟨year, month, day, hour, minute, second, microsecond, utcoffset, h⟩
  else none

/-- The fields of a timestamp make it again. -/
theorem mk?_self (d : DateTime) :
    mk? d.year d.month d.day d.hour d.minute d.second d.microsecond d.utcoffset = some d :=
  dif_pos d.valid

/-- The local time, in microseconds since the first instant of year 1. -/
def localMicros (d : DateTime) : Nat :=
  (ymd2ord d.year d.month d.day - 1) * dayMicros +
    ((d.hour * 60 + d.minute) * 60 + d.second) * 1000000 + d.microsecond

/-- The value with a local time, or `none` outside the years 1 to 9999. -/
def ofLocalMicros (micros : Int) (utcoffset : Option Int) : Option DateTime :=
  if micros < 0 then none
  else
    let ymd := ord2ymd (micros.toNat / dayMicros + 1)
    let rest := micros.toNat % dayMicros
    mk? ymd.1 ymd.2.1 ymd.2.2 (rest / 3600000000) (rest / 60000000 % 60) (rest / 1000000 % 60)
      (rest % 1000000) utcoffset

/-- `(d - datetime(1970, 1, 1, tzinfo=UTC)) // timedelta(microseconds=1)` of an aware value. -/
def epochMicros (d : DateTime) : Int :=
  (d.localMicros : Int) - d.utcoffset.getD 0 - (ymd2ord 1970 1 1 - 1 : Nat) * dayMicros

/-- `d.astimezone(UTC)` of an aware value, or `none` where it raises `OverflowError`. -/
def astimezoneUTC (d : DateTime) : Option DateTime :=
  ofLocalMicros (d.localMicros - d.utcoffset.getD 0) (some 0)

end DateTime

/-! ## Text -/

/-- A decimal digit. -/
def decDigit (n : Nat) : CodePoint := Fin.ofNat _ (48 + n)

/-- The last `width` decimal digits of `n`: `f"{n:0{width}d}"` of a number that fits. -/
def dec : Nat → Nat → Str
  | 0, _ => []
  | width + 1, n => dec width (n / 10) ++ [decDigit (n % 10)]

/-- `_format_time`: hours, minutes and seconds, and microseconds if there are any. -/
def formatTime (hour minute second microsecond : Nat) : Str :=
  dec 2 hour ++ 58 :: dec 2 minute ++ 58 :: dec 2 second ++
    if microsecond = 0 then [] else 46 :: dec 6 microsecond

/-- `_format_offset`: hours and minutes, seconds if there are any below, microseconds likewise. -/
def formatOffset (offset : Int) : Str :=
  let micros := offset.natAbs
  let second := micros / 1000000 % 60
  let microsecond := micros % 1000000
  (if offset < 0 then 45 else 43) :: dec 2 (micros / 3600000000) ++
    58 :: dec 2 (micros / 60000000 % 60) ++
    (if second = 0 ∧ microsecond = 0 then [] else 58 :: dec 2 second) ++
    if microsecond = 0 then [] else 46 :: dec 6 microsecond

/-- `d.isoformat()`. -/
def DateTime.isoformat (d : DateTime) : Str :=
  dec 4 d.year ++ 45 :: dec 2 d.month ++ 45 :: dec 2 d.day ++
    84 :: formatTime d.hour d.minute d.second d.microsecond ++
    (d.utcoffset.map formatOffset).getD []

/-- The number `width` ASCII digits spell, at the start of `s`. -/
def readInt (width : Nat) (s : Str) : Option Nat :=
  if width ≤ s.length ∧ (s.take width).all isDigit then
    some ((s.take width).foldl (fun n c => n * 10 + (c.val - 48)) 0)
  else none

/-- `isoweek_to_gregorian`. -/
def isoweekToGregorian (year week day : Nat) : Option (Nat × Nat × Nat) :=
  let firstWeekday := ymd2ord year 1 1 % 7
  let longYear := firstWeekday = 4 ∨ (firstWeekday = 3 ∧ isLeap year)
  if year < 1 ∨ 9999 < year then none
  else if ¬ (1 ≤ week ∧ week < 53 ∨ week = 53 ∧ longYear) then none
  else if ¬ (1 ≤ day ∧ day < 8) then none
  else
    let firstday := ymd2ord year 1 1
    let weekday := (firstday + 6) % 7
    let monday : Int := firstday - weekday + (if 3 < weekday then 7 else 0)
    let ord := monday + (week - 1 : Nat) * 7 + (day - 1 : Nat)
    -- The first week of year 1 starts on its first day, so the ordinal is positive.
    some (ord2ymd ord.toNat)

/-- `find_isoformat_datetime_separator`. -/
def findSeparator (s : Str) : Option Nat :=
  if s.length = 7 then some 7
  else if s[4]? = some 45 then
    if s[5]? = some 87 then
      if s.length < 8 then none
      else if 8 < s.length ∧ s[8]? = some 45 then
        if s.length = 9 then none
        else if 10 < s.length ∧ (s[10]?.map isDigit) = some true then some 8 else some 10
      else some 8
    else some 10
  else if s[4]? = some 87 then
    let digits := 7 + ((s.drop 7).takeWhile isDigit).length
    if digits < 9 then some digits else if digits % 2 = 0 then some 7 else some 8
  else some 8

/-- `parse_isoformat_date`. -/
def parseIsoformatDate (s : Str) : Option (Nat × Nat × Nat) := do
  let year ← readInt 4 s
  let sep := s[4]? = some 45
  let s := s.drop (if sep then 5 else 4)
  if s.head? = some 87 then
    let week ← readInt 2 (s.drop 1)
    let s := s.drop 3
    if s = [] then isoweekToGregorian year week 1
    else if sep ∧ s.head? ≠ some 45 then none
    else
      let day ← readInt 1 (if sep then s.drop 1 else s)
      isoweekToGregorian year week day
  else
    let month ← readInt 2 s
    let s := s.drop 2
    if sep ∧ s.head? ≠ some 45 then none
    else
      let day ← readInt 2 (if sep then s.drop 1 else s)
      some (year, month, day)

/-- `*p`: the character at the front, where a C string ends in a zero byte. -/
def charAt (s : Str) : CodePoint := s.headD 0

/-- The fraction of `parse_hh_mm_ss_ff`, with `n` characters of `s` before its end: six digits count, and further
digits are skipped. Besides it, whether anything follows. -/
def parseFraction (n : Nat) (s : Str) : Option (Nat × Bool) := do
  let digits := min 6 n
  let micros ← readInt digits s
  some (micros * 10 ^ (6 - digits), charAt ((s.drop digits).dropWhile isDigit) != 0)

/-- The loop of `parse_hh_mm_ss_ff`, which reads `[HH[:?MM[:?SS]]]` and then the fraction: the next `fields` fields,
the fraction, and whether anything follows. The end is looked for behind the character after a field, whatever that
is. The first such character decides whether there are separators. -/
def parseFields (separators : Option Bool) : Nat → Nat → Str → Option (List Nat × Nat × Bool)
  | 0, n, s => (parseFraction n s).map fun fraction => ([], fraction)
  | fields + 1, n, s => do
    let value ← readInt 2 s
    let c := charAt (s.drop 2)
    let separated := separators.getD (c == 58)
    let (values, rest) ←
      if n ≤ 3 then some ([], 0, c != 0)
      else if separated && c == 58 then parseFields (some separated) fields (n - 3) (s.drop 3)
      else if c == 46 || c == 44 then (parseFraction (n - 3) (s.drop 3)).map fun fraction => ([], fraction)
      else if separated then none
      else parseFields (some separated) fields (n - 2) (s.drop 2)
    some (value :: values, rest)

/-- `parse_hh_mm_ss_ff` of the first `n` characters: hours, minutes, seconds and microseconds, and whether anything
follows. -/
def parseTime (n : Nat) (s : Str) : Option ((Nat × Nat × Nat × Nat) × Bool) := do
  let (values, micros, more) ← parseFields none 3 n s
  some ((values.headD 0, values[1]?.getD 0, values[2]?.getD 0, micros), more)

/-- A character that begins a zone. -/
def isZoneMark (c : CodePoint) : Bool := c == 43 || c == 45 || c == 90

/-- `tzinfo_from_isoformat_results`: an offset below a second is the one of UTC. -/
def zoneOffset (negative : Bool) (zone : Nat × Nat × Nat × Nat) : Int :=
  let seconds := (zone.1 * 60 + zone.2.1) * 60 + zone.2.2.1
  if seconds = 0 then 0
  else if negative then -(seconds * 1000000 + zone.2.2.2 : Nat) else (seconds * 1000000 + zone.2.2.2 : Nat)

/-- `parse_isoformat_time`: the time and the offset. -/
def parseIsoformatTime (s : Str) : Option ((Nat × Nat × Nat × Nat) × Option Int) := do
  let (time, more) ← parseTime (s.takeWhile (!isZoneMark ·)).length s
  match s.dropWhile (!isZoneMark ·) with
  | [] => if more then none else some (time, none)
  | mark :: zone =>
    if mark = 90 then if charAt zone = 0 then some (time, some 0) else none
    else
      let (zone, more) ← parseTime zone.length zone
      if more then none else some (time, some (zoneOffset (mark == 45) zone))

/-- How many bytes a character takes, by its first. -/
def charBytes (c : CodePoint) : Nat :=
  if c.val < 128 then 1 else if c.val / 16 = 14 then 3 else if c.val / 16 = 15 then 4 else 2

/-- From the separator on: its bytes are skipped, and a time follows. -/
def scanTime : Str → Option ((Nat × Nat × Nat × Nat) × Option Int)
  | [] => some ((0, 0, 0, 0), none)
  | c :: rest => parseIsoformatTime (rest.drop (charBytes c - 1))

/-- `datetime_fromisoformat`, of the bytes of a text. -/
def scanIsoformat (s : Str) : Option DateTime := do
  let sep ← findSeparator s
  let date ← parseIsoformatDate (s.take sep)
  let time ← scanTime (s.drop sep)
  DateTime.mk? date.1 date.2.1 date.2.2 time.1.1 time.1.2.1 time.1.2.2.1 time.1.2.2.2 time.2

/-- `_sanitize_isoformat_str`: a surrogate may stand where the separator does. -/
def sanitizeIsoformat (s : Str) : Str :=
  match [7, 8, 10].find? fun i => s[i]?.any isSurrogate with
  | none => s
  | some i => s.set i 84

/-- The bytes of a text, each as the character of its number. -/
def utf8Chars (s : Str) : Str := (utf8EncodePass s).map fun b => Fin.ofNat _ b.val

/-- `datetime.fromisoformat(s)`, or `none` where it raises `ValueError`. -/
def fromisoformat (s : Str) : Option DateTime :=
  if s.length < 7 then none
  else if (sanitizeIsoformat s).any isSurrogate then none
  else scanIsoformat (utf8Chars (sanitizeIsoformat s))

/-! ## Reading back -/

/-- Its characters are single bytes of UTF-8. -/
def Ascii (s : Str) : Prop := ∀ c ∈ s, c.val < 128

/-- A number is written in as many digits as are asked for. -/
@[simp] theorem length_dec (width n : Nat) : (dec width n).length = width := by
  induction width generalizing n with
  | zero => rfl
  | succ width ih => rw [dec, List.length_append, ih, List.length_singleton]

/-- The code point of a digit. -/
theorem decDigit_val {n : Nat} (h : n < 10) : (decDigit n).val = 48 + n :=
  Nat.mod_eq_of_lt (by omega)

/-- What a digit is written as is a digit. -/
theorem isDigit_decDigit {n : Nat} (h : n < 10) : isDigit (decDigit n) = true := by
  simp only [isDigit, decDigit_val h, Bool.and_eq_true, decide_eq_true_eq]
  omega

/-- A number is written in digits. -/
theorem isDigit_of_mem_dec {width n : Nat} {c : CodePoint} (h : c ∈ dec width n) : isDigit c = true := by
  induction width generalizing n with
  | zero => exact absurd h List.not_mem_nil
  | succ width ih =>
    rcases List.mem_append.mp h with h | h
    · exact ih h
    · exact List.mem_singleton.mp h ▸ isDigit_decDigit (Nat.mod_lt _ (by decide))

/-- Digits are read as the number they write, less what did not fit. -/
theorem foldl_dec (width n : Nat) :
    (dec width n).foldl (fun n c => n * 10 + (c.val - 48)) 0 = n % 10 ^ width := by
  induction width generalizing n with
  | zero => simp only [dec, List.foldl_nil, Nat.pow_zero, Nat.mod_one]
  | succ width ih =>
    rw [dec, List.foldl_append, ih, List.foldl_cons, List.foldl_nil,
      decDigit_val (Nat.mod_lt _ (by decide)), Nat.pow_succ, Nat.mul_comm (10 ^ width) 10, Nat.mod_mul]
    omega

/-- **A number that was written is read back.** -/
theorem readInt_dec {width n : Nat} (h : n < 10 ^ width) (rest : Str) :
    readInt width (dec width n ++ rest) = some n := by
  have htake : (dec width n ++ rest).take width = dec width n := by
    rw [List.take_left' (length_dec width n)]
  have hdigits : (dec width n).all isDigit = true := List.all_eq_true.mpr fun _ => isDigit_of_mem_dec
  have hlen : width ≤ (dec width n ++ rest).length := by
    rw [List.length_append, length_dec]
    exact Nat.le_add_right _ _
  rw [readInt, htake, if_pos ⟨hlen, hdigits⟩, foldl_dec, Nat.mod_eq_of_lt h]

/-- Behind a number stands what was written after it. -/
theorem drop_dec (width n : Nat) (rest : Str) : (dec width n ++ rest).drop width = rest :=
  List.drop_left' (length_dec width n)

/-- The six digits of a fraction are read as its microseconds. -/
theorem parseFraction_dec {micros : Nat} (h : micros < 1000000) {rest : Str}
    (hrest : isDigit (charAt rest) = false) :
    parseFraction 6 (dec 6 micros ++ rest) = some (micros, charAt rest != 0) := by
  have hdrop : rest.dropWhile isDigit = rest := by
    cases rest with
    | nil => rfl
    | cons c rest => exact List.dropWhile_cons_of_neg (by rw [show isDigit c = false from hrest]; decide)
  unfold parseFraction
  simp only [Nat.min_self, readInt_dec (show micros < 10 ^ 6 from h), Option.bind_eq_bind, Option.bind_some, drop_dec,
    hdrop, Nat.sub_self, Nat.pow_zero, Nat.mul_one]

/-- A field with its colon is read, and the rest behind it. -/
theorem parseFields_colon {separators : Option Bool} (hsep : separators.getD true = true) (fields : Nat)
    {value n : Nat} (hv : value < 100) (hn : 3 < n) (rest : Str) :
    parseFields separators (fields + 1) n (dec 2 value ++ 58 :: rest) =
      (parseFields (some true) fields (n - 3) rest).map fun r => (value :: r.1, r.2) := by
  have hdrop : (dec 2 value ++ 58 :: rest).drop 3 = rest := rfl
  have hcolon : (charAt ((58 : CodePoint) :: rest) == 58) = true := rfl
  rw [parseFields]
  simp only [readInt_dec (show value < 10 ^ 2 from hv), Option.bind_eq_bind, Option.bind_some, drop_dec, hcolon, hsep,
    if_neg (Nat.not_le.mpr hn), hdrop, Bool.and_self, if_pos]
  cases parseFields (some true) fields (n - 3) rest with
  | none => rfl
  | some r => rfl

/-- A field at the end is the last one. -/
theorem parseFields_last (separators : Option Bool) (fields : Nat) {value : Nat} (hv : value < 100) (rest : Str) :
    parseFields separators (fields + 1) 2 (dec 2 value ++ rest) = some ([value], 0, charAt rest != 0) := by
  unfold parseFields
  simp only [readInt_dec (show value < 10 ^ 2 from hv), Option.bind_eq_bind, Option.bind_some, drop_dec,
    if_pos (show 2 ≤ 3 by decide)]

/-- A field with a fraction is the last one, too. -/
theorem parseFields_fraction (fields : Nat) {value micros : Nat} (hv : value < 100) (hmicros : micros < 1000000)
    {rest : Str} (hrest : isDigit (charAt rest) = false) :
    parseFields (some true) (fields + 1) 9 (dec 2 value ++ 46 :: (dec 6 micros ++ rest)) =
      some ([value], micros, charAt rest != 0) := by
  have hdrop : (dec 2 value ++ 46 :: (dec 6 micros ++ rest)).drop 3 = dec 6 micros ++ rest := rfl
  have hcolon : (charAt ((46 : CodePoint) :: (dec 6 micros ++ rest)) == 58) = false := rfl
  have hdot : (charAt ((46 : CodePoint) :: (dec 6 micros ++ rest)) == 46) = true := rfl
  unfold parseFields
  simp only [readInt_dec (show value < 10 ^ 2 from hv), Option.bind_eq_bind, Option.bind_some, drop_dec,
    Option.getD_some, if_neg (show ¬ 9 ≤ 3 by decide), hcolon, Bool.and_false, Bool.false_eq_true, if_false, hdot,
    Bool.true_or, if_pos, hdrop, parseFraction_dec hmicros hrest, Option.map_some]

/-- Hours and minutes that were written are read back. -/
theorem parseTime_short {h m : Nat} (hh : h < 100) (hm : m < 100) :
    parseTime 5 (dec 2 h ++ 58 :: dec 2 m) = some ((h, m, 0, 0), false) := by
  have hlast := parseFields_last (some true) 1 hm []
  rw [List.append_nil] at hlast
  unfold parseTime
  rw [parseFields_colon rfl 2 hh (by decide), hlast]
  rfl

/-- What `formatTime` writes is read back, whatever stands behind it but a digit. -/
theorem parseTime_formatTime {h m s micros : Nat} (hh : h < 100) (hm : m < 100) (hs : s < 100)
    (hmicros : micros < 1000000) (rest : Str) (hrest : isDigit (charAt rest) = false) :
    parseTime (formatTime h m s micros).length (formatTime h m s micros ++ rest) =
      some ((h, m, s, micros), charAt rest != 0) := by
  unfold parseTime formatTime
  by_cases hzero : micros = 0
  · have hlast := parseFields_last (some true) 0 hs rest
    simp only [hzero, if_pos, List.append_nil, List.append_assoc, List.cons_append, List.length_append, length_dec,
      List.length_cons]
    rw [parseFields_colon rfl 2 hh (by decide), parseFields_colon rfl 1 hm (by decide), hlast]
    rfl
  · have hlast := parseFields_fraction 0 hs hmicros hrest
    simp only [hzero, if_neg, not_false_eq_true, List.append_assoc, List.cons_append, List.length_append, length_dec,
      List.length_cons]
    rw [parseFields_colon rfl 2 hh (by decide), parseFields_colon rfl 1 hm (by decide), hlast]
    rfl

/-- A digit starts no offset. -/
theorem isZoneMark_of_isDigit {c : CodePoint} (h : isDigit c = true) : isZoneMark c = false := by
  simp only [isDigit, Bool.and_eq_true, decide_eq_true_eq] at h
  have hne : ∀ d : CodePoint, d.val < 48 ∨ 57 < d.val → (c == d) = false := fun d hd =>
    beq_eq_false_iff_ne.mpr fun he => by
      rw [he] at h
      omega
  rw [isZoneMark, hne 43 (by decide), hne 45 (by decide), hne 90 (by decide)]
  rfl

/-- A written time holds no mark of an offset. -/
theorem isZoneMark_formatTime (h m s micros : Nat) :
    ∀ c ∈ formatTime h m s micros, (!isZoneMark c) = true := by
  have hdec : ∀ width n, ∀ c ∈ dec width n, (!isZoneMark c) = true := fun width n c hc => by
    rw [isZoneMark_of_isDigit (isDigit_of_mem_dec hc)]
    rfl
  have hfraction : ∀ c ∈ if micros = 0 then [] else 46 :: dec 6 micros, (!isZoneMark c) = true := by
    split
    · exact fun c hc => absurd hc List.not_mem_nil
    · exact List.forall_mem_cons.mpr ⟨by decide, hdec 6 micros⟩
  unfold formatTime
  simp only [List.forall_mem_append, List.forall_mem_cons]
  exact ⟨⟨⟨hdec 2 h, by decide, hdec 2 m⟩, by decide, hdec 2 s⟩, hfraction⟩

/-- An offset that is read back: none below a second but UTC. -/
def DateTime.Readable (d : DateTime) : Prop := ∀ o ∈ d.utcoffset, o = 0 ∨ 1000000 ≤ o.natAbs

/-- The zone `formatOffset` writes behind its sign is read back. -/
theorem formatOffset_eq {offset : Int} (h : offset.natAbs < dayMicros)
    (hread : offset = 0 ∨ 1000000 ≤ offset.natAbs) :
    ∃ body z, formatOffset offset = (if offset < 0 then 45 else 43) :: body ∧
      parseTime body.length body = some (z, false) ∧ zoneOffset (decide (offset < 0)) z = offset := by
  have hday : offset.natAbs < 86400000000 := h
  -- Whole minutes are two fields; the fields of the others are a time.
  by_cases hshort : offset.natAbs / 1000000 % 60 = 0 ∧ offset.natAbs % 1000000 = 0
  · refine ⟨dec 2 (offset.natAbs / 3600000000) ++ 58 :: dec 2 (offset.natAbs / 60000000 % 60),
      (offset.natAbs / 3600000000, offset.natAbs / 60000000 % 60, 0, 0), ?_, ?_, ?_⟩
    · simp only [formatOffset, hshort, and_self, if_pos, List.append_nil, List.cons_append]
    · exact parseTime_short (by omega) (by omega)
    · simp only [zoneOffset, decide_eq_true_eq]
      split_ifs <;> omega
  · refine ⟨formatTime (offset.natAbs / 3600000000) (offset.natAbs / 60000000 % 60)
      (offset.natAbs / 1000000 % 60) (offset.natAbs % 1000000), (offset.natAbs / 3600000000,
      offset.natAbs / 60000000 % 60, offset.natAbs / 1000000 % 60, offset.natAbs % 1000000), ?_, ?_, ?_⟩
    · simp only [formatOffset, formatTime, hshort, if_neg, not_false_eq_true, List.cons_append, List.append_assoc]
    · have htime := parseTime_formatTime (show offset.natAbs / 3600000000 < 100 by omega)
        (show offset.natAbs / 60000000 % 60 < 100 by omega) (show offset.natAbs / 1000000 % 60 < 100 by omega)
        (show offset.natAbs % 1000000 < 1000000 by omega) [] rfl
      rwa [List.append_nil] at htime
    · simp only [zoneOffset, decide_eq_true_eq]
      split_ifs <;> omega

/-- The time and the zone `isoformat` writes are read back. -/
theorem parseIsoformatTime_format {h m s micros : Nat} (hh : h < 100) (hm : m < 100) (hs : s < 100)
    (hmicros : micros < 1000000) {o : Option Int}
    (ho : ∀ x ∈ o, -(dayMicros : Int) < x ∧ x < dayMicros) (hread : ∀ x ∈ o, x = 0 ∨ 1000000 ≤ x.natAbs) :
    parseIsoformatTime (formatTime h m s micros ++ (o.map formatOffset).getD []) =
      some ((h, m, s, micros), o) := by
  have hall := isZoneMark_formatTime h m s micros
  unfold parseIsoformatTime
  cases o with
  | none =>
    have htime := parseTime_formatTime hh hm hs hmicros [] rfl
    rw [List.append_nil] at htime
    rw [Option.map_none, Option.getD_none, List.append_nil, List.takeWhile_eq_self_iff.mpr hall,
      List.dropWhile_eq_nil_iff.mpr hall, htime]
    rfl
  | some x =>
    have hx := ho x rfl
    obtain ⟨body, z, hbody, hz, hoffset⟩ := formatOffset_eq (show x.natAbs < dayMicros by omega) (hread x rfl)
    have hmark : ∀ mark : CodePoint, mark = 45 ∨ mark = 43 →
        isDigit mark = false ∧ isZoneMark mark = true ∧ mark ≠ 90 := by
      rintro mark (rfl | rfl) <;> decide
    generalize hsign : (if x < 0 then (45 : CodePoint) else 43) = mark at hbody
    obtain ⟨hdigit, hzone, hz90⟩ := hmark mark (by split at hsign <;> simp [← hsign])
    have hneg : (mark == 45) = decide (x < 0) := by
      rw [← hsign]
      split
      next h => simp [h]
      next h => simp [h]
    have htime := parseTime_formatTime hh hm hs hmicros (mark :: body) hdigit
    rw [Option.map_some, Option.getD_some, hbody, List.takeWhile_append_of_pos hall,
      List.dropWhile_append_of_pos hall, List.takeWhile_cons_of_neg (by simp [hzone]),
      List.dropWhile_cons_of_neg (by simp [hzone]), List.append_nil, htime]
    simp only [Option.bind_eq_bind, Option.bind_some, if_neg hz90, hz, Bool.false_eq_true, if_false, hneg, hoffset]

/-! ## `isoformat` writes ASCII -/

/-- ASCII text with an ASCII character before it is ASCII. -/
theorem Ascii.cons {c : CodePoint} {s : Str} (hc : c.val < 128) (hs : Ascii s) : Ascii (c :: s) :=
  List.forall_mem_cons.mpr ⟨hc, hs⟩

/-- Two ASCII texts in sequence are ASCII. -/
theorem Ascii.append {s t : Str} (hs : Ascii s) (ht : Ascii t) : Ascii (s ++ t) :=
  List.forall_mem_append.mpr ⟨hs, ht⟩

/-- The empty text is ASCII. -/
theorem ascii_nil : Ascii [] := fun _ h => absurd h List.not_mem_nil

/-- An ASCII text has no surrogates. -/
theorem Ascii.scalar {s : Str} (hs : Ascii s) : Scalar s := fun c hc => by
  have hlt := hs c hc
  simp only [isSurrogate, Bool.and_eq_false_iff, decide_eq_false_iff_not]
  omega

/-- An ASCII text is its own bytes. -/
theorem utf8Chars_of_ascii {s : Str} (hs : Ascii s) : utf8Chars s = s := by
  induction s with
  | nil => rfl
  | cons c s ih =>
    obtain ⟨hc, hs⟩ := List.forall_mem_cons.mp hs
    have hchar : (utf8EncodeChar c).map (fun b => (Fin.ofNat _ b.val : CodePoint)) = [c] := by
      rw [utf8EncodeChar, if_pos hc, List.map_singleton]
      refine congrArg (fun x => [x]) (Fin.ext ?_)
      have hlt := c.isLt
      simp only [byte, Fin.ofNat, Nat.mod_eq_of_lt (show c.val < 256 by omega), Nat.mod_eq_of_lt hlt]
    rw [utf8Chars, utf8EncodePass, List.flatMap_cons, List.map_append, hchar]
    exact congrArg (c :: ·) (ih hs)

/-- An ASCII text is scanned as it stands. -/
theorem fromisoformat_of_ascii {s : Str} (hs : Ascii s) (hlen : ¬ s.length < 7) :
    fromisoformat s = scanIsoformat s := by
  have hnone : ∀ c ∈ s, isSurrogate c = false := hs.scalar
  have hsanitize : sanitizeIsoformat s = s := by
    have hfind : [7, 8, 10].find? (fun i => s[i]?.any isSurrogate) = none := by
      refine List.find?_eq_none.mpr fun i _ => ?_
      cases hi : s[i]? with
      | none => decide
      | some c => simp [hnone c (List.mem_of_getElem? hi)]
    rw [sanitizeIsoformat, hfind]
  have hany : ¬ s.any isSurrogate = true := by
    rw [List.any_eq_true]
    rintro ⟨c, hc, hsurrogate⟩
    rw [hnone c hc] at hsurrogate
    cases hsurrogate
  rw [fromisoformat, if_neg hlen, hsanitize, if_neg hany, utf8Chars_of_ascii hs]

/-- A written number is ASCII. -/
theorem ascii_dec (width n : Nat) : Ascii (dec width n) := by
  intro c hc
  have hdigit := isDigit_of_mem_dec hc
  simp only [isDigit, Bool.and_eq_true, decide_eq_true_eq] at hdigit
  omega

/-- A written time is ASCII. -/
theorem ascii_formatTime (hour minute second microsecond : Nat) :
    Ascii (formatTime hour minute second microsecond) := by
  have hfraction : Ascii (if microsecond = 0 then [] else 46 :: dec 6 microsecond) := by
    split
    · exact ascii_nil
    · exact .cons (by decide) (ascii_dec _ _)
  have hcolon : ∀ n, Ascii (58 :: dec 2 n) := fun n => .cons (by decide) (ascii_dec _ _)
  exact (((ascii_dec _ _).append (hcolon _)).append (hcolon _)).append hfraction

/-- A written offset is ASCII. -/
theorem ascii_formatOffset (offset : Int) : Ascii (formatOffset offset) := by
  have hsign : (if offset < 0 then 45 else 43 : CodePoint).val < 128 := by split <;> decide
  have hcolon : ∀ n, Ascii (58 :: dec 2 n) := fun n => .cons (by decide) (ascii_dec _ _)
  have hoptional : ∀ (c : Prop) [Decidable c] (t : Str), Ascii t → Ascii (if c then [] else t) := by
    intro c _ t ht
    split
    · exact ascii_nil
    · exact ht
  exact (((Ascii.cons hsign (ascii_dec _ _)).append (hcolon _)).append
    (hoptional _ _ (hcolon _))).append (hoptional _ _ (.cons (by decide) (ascii_dec _ _)))

/-- So is what stands for an offset or for none. -/
theorem ascii_zone (utcoffset : Option Int) : Ascii ((utcoffset.map formatOffset).getD []) := by
  cases utcoffset with
  | none => exact ascii_nil
  | some offset => exact ascii_formatOffset offset

/-- `YYYY-MM-DDT`, as `isoformat` writes it. -/
theorem ascii_date (year month day : Nat) {time : Str} (htime : Ascii time) :
    Ascii ((dec 4 year ++ 45 :: (dec 2 month ++ 45 :: dec 2 day)) ++ 84 :: time) := by
  have hday : Ascii (dec 2 month ++ 45 :: dec 2 day) := (ascii_dec _ _).append (.cons (by decide) (ascii_dec _ _))
  exact ((ascii_dec _ _).append (.cons (by decide) hday)).append (.cons (by decide) htime)

/-- `YYYY-MM-DDT` and a time that is read back. -/
theorem fromisoformat_date (d : DateTime) {time : Str} (hascii : Ascii time)
    (htime : parseIsoformatTime time =
      some ((d.hour, d.minute, d.second, d.microsecond), d.utcoffset)) :
    fromisoformat ((dec 4 d.year ++ 45 :: (dec 2 d.month ++ 45 :: dec 2 d.day)) ++ 84 :: time) =
      some d := by
  obtain ⟨hy, hmo, hd, -, -, -, -, -⟩ := d.valid
  have hday : d.day < 100 := by
    have : daysInMonth d.year d.month ≤ 31 := by
      unfold daysInMonth
      split_ifs <;> decide
    omega
  have hlen : (dec 4 d.year ++ 45 :: (dec 2 d.month ++ 45 :: dec 2 d.day)).length = 10 := by
    simp only [List.length_append, List.length_cons, length_dec]
  have hfour : ∀ rest, (dec 4 d.year ++ 45 :: rest)[4]? = some 45 := fun rest => by
    rw [List.getElem?_append_right (Nat.le_of_eq (length_dec 4 _)), length_dec]
    rfl
  generalize htext : (dec 4 d.year ++ 45 :: (dec 2 d.month ++ 45 :: dec 2 d.day)) ++ 84 :: time = text
  have hfive : text[5]? ≠ some 87 := fun he => by
    have hdigit : text[5]? = some (decDigit (d.month / 10 % 10)) := by
      rw [← htext]
      rfl
    have := congrArg Fin.val (Option.some.inj (hdigit.symm.trans he))
    rw [decDigit_val (Nat.mod_lt _ (by decide))] at this
    have h87 : (87 : CodePoint).val = 87 := rfl
    omega
  have hsep : findSeparator text = some 10 := by
    have hlong : text.length ≠ 7 := by
      rw [← htext, List.length_append, hlen]
      omega
    have hdash : text[4]? = some 45 := by
      rw [← htext, List.append_assoc]
      exact hfour _
    rw [findSeparator, if_neg hlong, if_pos hdash, if_neg hfive]
  have hdate : parseIsoformatDate (dec 4 d.year ++ 45 :: (dec 2 d.month ++ 45 :: dec 2 d.day)) =
      some (d.year, d.month, d.day) := by
    have hmonth : ((dec 2 d.month ++ 45 :: dec 2 d.day) : Str).head? ≠ some 87 := fun he =>
      hfive (by rw [← htext]; exact he)
    have hread := readInt_dec (show d.day < 10 ^ 2 from hday) []
    rw [List.append_nil] at hread
    have hdrop : (dec 4 d.year ++ 45 :: (dec 2 d.month ++ 45 :: dec 2 d.day)).drop 5 =
        dec 2 d.month ++ 45 :: dec 2 d.day := rfl
    unfold parseIsoformatDate
    simp only [readInt_dec (show d.year < 10 ^ 4 by omega), Option.bind_eq_bind, Option.bind_some,
      hfour, if_pos, hdrop, hmonth, if_neg, not_false_eq_true, drop_dec,
      readInt_dec (show d.month < 10 ^ 2 by omega), List.head?_cons, ne_eq, not_true_eq_false, and_false,
      List.drop_one, List.tail_cons, hread]
  have hfront : text.take 10 = dec 4 d.year ++ 45 :: (dec 2 d.month ++ 45 :: dec 2 d.day) := by
    rw [← htext, List.take_left' hlen]
  have hback : scanTime (text.drop 10) = some ((d.hour, d.minute, d.second, d.microsecond), d.utcoffset) := by
    rw [← htext, List.drop_left' hlen]
    exact htime
  have hshort : ¬ text.length < 7 := by
    rw [← htext, List.length_append, hlen]
    omega
  rw [fromisoformat_of_ascii (htext ▸ ascii_date _ _ _ hascii) hshort]
  unfold scanIsoformat
  simp only [hsep, Option.bind_eq_bind, Option.bind_some, hfront, hdate, hback]
  exact d.mk?_self

/-- A timestamp is written as its date, a `T`, its time and its offset. -/
theorem isoformat_eq (d : DateTime) :
    d.isoformat = (dec 4 d.year ++ 45 :: (dec 2 d.month ++ 45 :: dec 2 d.day)) ++
      84 :: (formatTime d.hour d.minute d.second d.microsecond ++
        (d.utcoffset.map formatOffset).getD []) := by
  simp only [DateTime.isoformat, List.append_assoc, List.cons_append]

/-- The text of a moment is ASCII. -/
theorem ascii_isoformat (d : DateTime) : Ascii d.isoformat := by
  rw [isoformat_eq]
  exact ascii_date _ _ _ ((ascii_formatTime _ _ _ _).append (ascii_zone _))

/-- The text of a moment has no surrogates. -/
theorem scalar_isoformat (d : DateTime) : Scalar d.isoformat := (ascii_isoformat d).scalar

/-- **The documented inverse**, but for offsets below a second. -/
theorem fromisoformat_isoformat {d : DateTime} (hread : d.Readable) : fromisoformat d.isoformat = some d := by
  obtain ⟨-, -, -, hh, hm, hs, hus, ho⟩ := d.valid
  rw [isoformat_eq]
  exact fromisoformat_date d ((ascii_formatTime _ _ _ _).append (ascii_zone _))
    (parseIsoformatTime_format (show d.hour < 100 by omega) (show d.minute < 100 by omega)
      (show d.second < 100 by omega) hus ho hread)

/-- The text of a moment in UTC, with `Z` for its offset. -/
theorem isoformat_zulu {d : DateTime} (hutc : d.utcoffset = some 0) :
    replaceAll d.isoformat (str "+00:00") (str "Z") =
      (dec 4 d.year ++ 45 :: (dec 2 d.month ++ 45 :: dec 2 d.day)) ++
        84 :: (formatTime d.hour d.minute d.second d.microsecond ++ str "Z") := by
  have hall := isZoneMark_formatTime d.hour d.minute d.second d.microsecond
  have hoffset : (d.utcoffset.map formatOffset).getD [] = str "+00:00" := by
    rw [hutc]
    decide
  have hdigits : ∀ width n, (43 : CodePoint) ∉ dec width n := fun width n hmem =>
    absurd (isDigit_of_mem_dec hmem) (by decide)
  have hplus : (43 : CodePoint) ∉ formatTime d.hour d.minute d.second d.microsecond := fun hmem =>
    absurd (hall 43 hmem) (by decide)
  have hdate : (43 : CodePoint) ∉ (dec 4 d.year ++ 45 :: (dec 2 d.month ++ 45 :: dec 2 d.day)) ++
      84 :: formatTime d.hour d.minute d.second d.microsecond := by
    simp only [List.mem_append, List.mem_cons, not_or]
    exact ⟨⟨hdigits 4 _, by decide, hdigits 2 _, by decide, hdigits 2 _⟩, by decide, hplus⟩
  have hreplace := replaceAll_append (str "00:00") (str "Z") hdate
  rw [isoformat_eq, hoffset, show str "+00:00" = 43 :: str "00:00" from rfl]
  simpa only [List.append_assoc, List.cons_append] using hreplace

/-- With `Z` for the offset of UTC it is read back as well. -/
theorem fromisoformat_zulu {d : DateTime} (hutc : d.utcoffset = some 0) :
    fromisoformat (replaceAll d.isoformat (str "+00:00") (str "Z")) = some d := by
  obtain ⟨-, -, -, hh, hm, hs, hus, -⟩ := d.valid
  have hall := isZoneMark_formatTime d.hour d.minute d.second d.microsecond
  rw [isoformat_zulu hutc]
  refine fromisoformat_date d ((ascii_formatTime _ _ _ _).append (.cons (by decide) ascii_nil)) ?_
  have htime := parseTime_formatTime (show d.hour < 100 by omega) (show d.minute < 100 by omega)
    (show d.second < 100 by omega) hus [90] rfl
  unfold parseIsoformatTime
  rw [show str "Z" = [90] from rfl, List.takeWhile_append_of_pos hall, List.dropWhile_append_of_pos hall, hutc,
    List.takeWhile_cons_of_neg (by decide), List.dropWhile_cons_of_neg (by decide), List.append_nil, htime]
  rfl

/-! ## The ordinal -/

/-- The days before a month are those before the last one and that month's. -/
theorem daysBeforeMonth_succ (year m : Nat) :
    daysBeforeMonth year (m + 2) = daysBeforeMonth year (m + 1) + daysInMonth year (m + 1) := by
  simp only [daysBeforeMonth, Nat.add_one_sub_one, show m + 2 - 1 = m + 1 from rfl, List.range_succ,
    List.map_append, List.map_cons, List.map_nil, List.sum_append, List.sum_cons, List.sum_nil,
    Nat.add_zero]

/-- Of a property that only gets harder, those who have it are the first ones. -/
theorem last_of_filter_range {p : Nat → Prop} [DecidablePred p] (hp : ∀ i, p (i + 1) → p i) (n : Nat)
    (h : p 0) (hn : 0 < n) : p (((List.range n).filter fun i => p i).length - 1) := by
  have hdown : ∀ i j, i ≤ j → p j → p i := fun i j hij => by
    induction hij with
    | refl => exact id
    | step _ ih => exact fun hj => ih (hp _ hj)
  induction n with
  | zero => exact absurd hn (Nat.lt_irrefl 0)
  | succ n ih =>
    rw [List.range_succ, List.filter_append]
    by_cases hlast : p n
    · have hall : (List.range n).filter (fun i => p i) = List.range n :=
        List.filter_eq_self.mpr fun i hi =>
          decide_eq_true (hdown i n (Nat.le_of_lt (List.mem_range.mp hi)) hlast)
      rw [hall, List.filter_singleton, decide_eq_true hlast]
      simpa using hlast
    · rw [List.filter_singleton, decide_eq_false hlast]
      cases n with
      | zero => exact absurd h hlast
      | succ n => simpa using ih (Nat.succ_pos n)

/-- The day found in a year is the one that was looked for. -/
theorem monthDay_eq (year n : Nat) :
    daysBeforeMonth year (monthDay year n).1 + (monthDay year n).2 = n + 1 := by
  have hle := last_of_filter_range (p := fun m => daysBeforeMonth year (m + 1) ≤ n)
    (fun m hm => by rw [daysBeforeMonth_succ] at hm; omega) 12 (Nat.zero_le n) (by decide)
  have hpos : 0 < ((List.range 12).filter fun m => daysBeforeMonth year (m + 1) ≤ n).length :=
    List.length_pos_iff.mpr (List.ne_nil_of_mem (List.mem_filter.mpr
      ⟨List.mem_range.mpr (by decide : 0 < 12), decide_eq_true (Nat.zero_le n)⟩))
  rw [Nat.sub_add_cancel hpos] at hle
  simp only [monthDay]
  omega

/-- The days before a year, by its place in the cycles. -/
theorem daysBeforeYear_cycles {a b c e : Nat} (hb : b ≤ 3) (hc : c ≤ 24) (he : e ≤ 3) :
    daysBeforeYear (a * 400 + 1 + b * 100 + c * 4 + e) =
      a * 146097 + b * 36524 + c * 1461 + e * 365 := by
  have hyear : a * 400 + 1 + b * 100 + c * 4 + e - 1 = a * 400 + b * 100 + c * 4 + e := by omega
  have h4 : (a * 400 + b * 100 + c * 4 + e) / 4 = a * 100 + b * 25 + c := by omega
  have h100 : (a * 400 + b * 100 + c * 4 + e) / 100 = a * 4 + b := by omega
  have h400 : (a * 400 + b * 100 + c * 4 + e) / 400 = a := by omega
  rw [daysBeforeYear, hyear, h4, h100, h400]
  omega

/-- The last day of a leap year, by the year's place in the cycles. -/
theorem ymd2ord_last {a b c : Nat} (hb : b ≤ 3) (hc : c ≤ 24) (hleap : c < 24 ∨ b = 3) :
    ymd2ord (a * 400 + 1 + b * 100 + c * 4 + 3) 12 31 =
      a * 146097 + b * 36524 + c * 1461 + 1461 := by
  have hyear : isLeap (a * 400 + 1 + b * 100 + c * 4 + 3) = true := by
    simp only [isLeap, Bool.and_eq_true, beq_iff_eq, Bool.or_eq_true, bne_iff_ne]
    omega
  have hmonths : daysBeforeMonth (a * 400 + 1 + b * 100 + c * 4 + 3) 12 = 335 := by
    simp [daysBeforeMonth, daysInMonth, hyear, List.range, List.range.loop]
  rw [ymd2ord, hmonths, daysBeforeYear_cycles hb hc (Nat.le_refl 3)]

/-- **The ordinal of the day found for an ordinal.** -/
theorem ymd2ord_ord2ymd (n : Nat) :
    ymd2ord (ord2ymd (n + 1)).1 (ord2ymd (n + 1)).2.1 (ord2ymd (n + 1)).2.2 = n + 1 := by
  simp only [ord2ymd, Nat.add_one_sub_one]
  generalize ha : n / 146097 = a
  generalize hb : n % 146097 / 36524 = b
  generalize hc : n % 146097 % 36524 / 1461 = c
  generalize he : n % 146097 % 36524 % 1461 / 365 = e
  generalize hr : n % 146097 % 36524 % 1461 % 365 = r
  have hn : n = a * 146097 + b * 36524 + c * 1461 + e * 365 + r := by omega
  split
  next hlast =>
    by_cases hcentury : b = 4
    · have hyear : a * 400 + 1 + b * 100 + c * 4 + e - 1 = a * 400 + 1 + 3 * 100 + 24 * 4 + 3 := by omega
      rw [hyear, ymd2ord_last (Nat.le_refl 3) (Nat.le_refl 24) (.inr rfl)]
      omega
    · have hyear : a * 400 + 1 + b * 100 + c * 4 + e - 1 = a * 400 + 1 + b * 100 + c * 4 + 3 := by omega
      rw [hyear, ymd2ord_last (by omega) (by omega) (by omega)]
      omega
  next hyear =>
    have hday := monthDay_eq (a * 400 + 1 + b * 100 + c * 4 + e) r
    rw [ymd2ord, Nat.add_assoc, hday, daysBeforeYear_cycles (by omega) (by omega) (by omega)]
    omega

namespace DateTime

/-- A timestamp that was made has the fields it was made of, and they are in range. -/
theorem mk?_eq_some {year month day hour minute second microsecond : Nat} {utcoffset : Option Int}
    {d : DateTime} (h : mk? year month day hour minute second microsecond utcoffset = some d) :
    d.year = year ∧ d.month = month ∧ d.day = day ∧ d.hour = hour ∧ d.minute = minute ∧
      d.second = second ∧ d.microsecond = microsecond ∧ d.utcoffset = utcoffset := by
  unfold mk? at h
  split at h
  · obtain rfl := Option.some.inj h
    exact ⟨rfl, rfl, rfl, rfl, rfl, rfl, rfl, rfl⟩
  · cases h

/-- The value found for a local time has that local time. -/
theorem localMicros_ofLocalMicros {micros : Int} {utcoffset : Option Int} {d : DateTime}
    (h : ofLocalMicros micros utcoffset = some d) :
    (d.localMicros : Int) = micros ∧ d.utcoffset = utcoffset := by
  unfold ofLocalMicros at h
  split at h
  · cases h
  next hneg =>
    obtain ⟨hy, hmo, hd, hh, hm, hs, hus, ho⟩ := mk?_eq_some h
    have hord := ymd2ord_ord2ymd (micros.toNat / dayMicros)
    refine ⟨?_, ho⟩
    unfold localMicros
    rw [hy, hmo, hd, hord, hh, hm, hs, hus, Nat.add_one_sub_one]
    have hday : dayMicros = 86400000000 := rfl
    rw [hday]
    omega

/-- **Conversion to UTC keeps the instant.** -/
theorem epochMicros_astimezoneUTC {d utc : DateTime} (h : d.astimezoneUTC = some utc) :
    utc.epochMicros = d.epochMicros ∧ utc.utcoffset = some 0 := by
  obtain ⟨hlocal, hoffset⟩ := localMicros_ofLocalMicros h
  refine ⟨?_, hoffset⟩
  unfold epochMicros
  rw [hlocal, hoffset, Option.getD_some]
  omega

/-- A moment in UTC is its own conversion. -/
theorem astimezoneUTC_self {d utc : DateTime} (h : d.astimezoneUTC = some utc) :
    utc.astimezoneUTC = some utc := by
  obtain ⟨hlocal, hoffset⟩ := localMicros_ofLocalMicros h
  unfold astimezoneUTC
  rw [hlocal, hoffset, Option.getD_some, Int.sub_zero]
  exact h

end DateTime

/-! ## What is read -/

/-- An offset that was read is one that `isoformat` writes so that it is read back. -/
theorem zoneOffset_readable (negative : Bool) (zone : Nat × Nat × Nat × Nat) :
    zoneOffset negative zone = 0 ∨ 1000000 ≤ (zoneOffset negative zone).natAbs := by
  unfold zoneOffset
  dsimp only
  split
  next => exact .inl rfl
  next hseconds =>
    refine .inr ?_
    split <;> omega

/-- An offset that was read is zero or of at least a second. -/
theorem readable_of_parseIsoformatTime {s : Str} {time : Nat × Nat × Nat × Nat} {utcoffset : Option Int}
    (h : parseIsoformatTime s = some (time, utcoffset)) : ∀ o ∈ utcoffset, o = 0 ∨ 1000000 ≤ o.natAbs := by
  unfold parseIsoformatTime at h
  obtain ⟨⟨t, more⟩, -, h⟩ := Option.bind_eq_some_iff.mp h
  dsimp only at h
  split at h
  · split at h
    · cases h
    · cases h
      exact fun o ho => nomatch ho
  · split at h
    · split at h
      · cases h
        rintro o ⟨⟩
        exact .inl rfl
      · cases h
    · obtain ⟨⟨zone, more'⟩, -, h⟩ := Option.bind_eq_some_iff.mp h
      dsimp only at h
      split at h
      · cases h
      · cases h
        rintro o ⟨⟩
        exact zoneOffset_readable _ _

/-- **Whatever was read can be read back.** -/
theorem readable_of_fromisoformat {s : Str} {d : DateTime} (h : fromisoformat s = some d) : d.Readable := by
  unfold fromisoformat at h
  split at h
  · cases h
  split at h
  · cases h
  unfold scanIsoformat at h
  obtain ⟨sep, -, h⟩ := Option.bind_eq_some_iff.mp h
  obtain ⟨date, -, h⟩ := Option.bind_eq_some_iff.mp h
  obtain ⟨⟨time, utcoffset⟩, htime, h⟩ := Option.bind_eq_some_iff.mp h
  obtain ⟨-, -, -, -, -, -, -, hoffset⟩ := DateTime.mk?_eq_some h
  rw [DateTime.Readable, hoffset]
  unfold scanTime at htime
  split at htime
  · cases htime
    exact fun o ho => nomatch ho
  · exact readable_of_parseIsoformatTime htime

end Py
