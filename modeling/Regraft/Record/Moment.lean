import Regraft.Record.Basic
import Regraft.Json.Reader
import Regraft.Number.Decimal
/-!
# Moments in writing

Moments are written in the calendar notation of ISO 8601 (`Moment.iso`); artifacts and settings may also
give one as a date alone or as a number of seconds or milliseconds since 1970 (`Moment.ofJson?`).
-/
namespace Regraft.Moment

/-! ## Writing -/

/-- A number with two digits. -/
def two (n : Nat) : Text := showPadded 2 n

/-- The date and the time, with microseconds if there are any. -/
def showLocal (m : Moment) : Text :=
  showPadded 4 m.year ++ char '-' :: two m.month ++ char '-' :: two m.day ++ char 'T' ::
    (two m.hour ++ char ':' :: two m.minute ++ char ':' :: two m.second ++
      if m.microsecond = 0 then [] else char '.' :: showPadded 6 m.microsecond)

/-- A distance from universal time; seconds only if there are any. -/
def showOffset (seconds : Int) : Text :=
  let n := seconds.natAbs
  (if seconds < 0 then '-' else '+') :: (two (n / 3600) ++ char ':' :: two (n / 60 % 60) ++
    if n % 60 = 0 then [] else char ':' :: two (n % 60))

/-- The moment with the distance from universal time behind it. -/
def iso (m : Moment) : Text :=
  m.showLocal ++ match m.offset with
    | some seconds => showOffset seconds
    | none => []

/-- The moment as artifacts write it: universal time is marked with a letter. -/
def showZulu (m : Moment) : Text :=
  m.showLocal ++ match m.offset with
    | some 0 => ['Z']
    | some seconds => showOffset seconds
    | none => []

/-! ## Reading -/

/-- A year with a day between February and March. -/
def isLeapYear (year : Nat) : Bool := year % 4 == 0 && (year % 100 != 0 || year % 400 == 0)

/-- The number of days in a month. -/
def daysIn (year month : Nat) : Nat :=
  match month with
  | 2 => if isLeapYear year then 29 else 28
  | 4 | 6 | 9 | 11 => 30
  | _ => 31

/-- A number of exactly so many digits, and the rest. -/
def takeNumber? (count : Nat) (t : Text) : Option (Nat × Text) :=
  let digits := t.take count
  if digits.length = count && digits.all CodePoint.isDigit then some (digitsValue digits, t.drop count) else none

/-- The character at the start of a text. -/
def skip? (c : CodePoint) (t : Text) : Option Text := after? [c] t

/-- A date that exists. -/
def takeDate? (t : Text) : Option (Moment × Text) := do
  let (year, t) ← takeNumber? 4 t
  let t ← skip? '-' t
  let (month, t) ← takeNumber? 2 t
  let t ← skip? '-' t
  let (day, t) ← takeNumber? 2 t
  if 1 ≤ year ∧ 1 ≤ month ∧ month ≤ 12 ∧ 1 ≤ day ∧ day ≤ daysIn year month then
    some (⟨year, month, day, 0, 0, 0, 0, none⟩, t)
  else none

/-- The fraction of a second behind a point or comma, in microseconds; digits behind the sixth do not count. -/
def takeFraction? (t : Text) : Option (Nat × Text) :=
  match t with
  | c :: rest =>
    if c = '.' || c = ',' then
      let digits := rest.takeWhile CodePoint.isDigit
      if digits.isEmpty then none
      else some (digitsValue ((digits ++ List.replicate 6 (char '0')).take 6), rest.dropWhile CodePoint.isDigit)
    else some (0, t)
  | [] => some (0, [])

/-- A distance from universal time, up to the end of the text. -/
def takeOffset? (t : Text) : Option (Option Int) :=
  match t with
  | [] => some none
  | [.char 'Z'] | [.char 'z'] => some (some 0)
  | c :: rest => do
    let negative ← if c = '+' then some false else if c = '-' || c = '−' then some true else none
    let (hours, rest) ← takeNumber? 2 rest
    let rest := (skip? ':' rest).getD rest
    let (minutes, rest) ← takeNumber? 2 rest
    if rest.isEmpty && minutes < 60 && hours < 24 then
      let seconds : Int := hours * 3600 + minutes * 60
      some (some (if negative then -seconds else seconds))
    else none

/-- The seconds of a time and their microseconds, if the time has seconds. -/
def takeSeconds? : Text → Option (Nat × Nat × Text)
  | .char ':' :: t => do
    let (second, t) ← takeNumber? 2 t
    let (microsecond, t) ← takeFraction? t
    return (second, microsecond, t)
  | t => some (0, 0, t)

/-- A time of day and a distance from universal time added to a date. -/
def withTime? (date : Moment) (t : Text) : Option Moment := do
  let (hour, t) ← takeNumber? 2 t
  let t ← skip? ':' t
  let (minute, t) ← takeNumber? 2 t
  let (second, microsecond, t) ← takeSeconds? t
  let offset ← takeOffset? t
  if hour < 24 && minute < 60 && second < 60 then
    some { date with hour, minute, second, microsecond, offset }
  else none

/-- The date of a number of days since 1 March of the year 0, counted in eras of 400 years. -/
def ofDays (days : Nat) : Moment :=
  let era := days / 146097
  let day := days % 146097
  let year := (day - day / 1460 + day / 36524 - day / 146096) / 365
  let dayOfYear := day - (365 * year + year / 4 - year / 100)
  let month := (5 * dayOfYear + 2) / 153
  let calendarMonth := if month < 10 then month + 3 else month - 9
  ⟨era * 400 + year + (if calendarMonth ≤ 2 then 1 else 0), calendarMonth,
    dayOfYear - (153 * month + 2) / 5 + 1, 0, 0, 0, 0, none⟩

/-- The moment of a number of microseconds since 1970, between the years 1 and 9999. -/
def ofMicroseconds? (n : Int) : Option Moment :=
  let shifted := n + 719468 * 86400 * 1000000
  let seconds := shifted.toNat / 1000000
  let m := ofDays (seconds / 86400)
  let rest := seconds % 86400
  if shifted < 306 * 86400 * 1000000 || 9999 < m.year then none
  else some { m with hour := rest / 3600, minute := rest / 60 % 60, second := rest % 60,
                     microsecond := shifted.toNat % 1000000, offset := some 0 }

/-- The moment of a count since 1970: of seconds up to twenty thousand million, else of milliseconds. -/
def ofCount? (n : Int) : Option Moment :=
  ofMicroseconds? (if n.natAbs ≤ 20000000000 then n * 1000000 else n * 1000)

/-- The moment of a count with a fraction, whose microseconds are rounded; a half goes up. -/
def ofFraction? (x : Float) : Option Moment :=
  let whole := x.floor
  (Binary64.ofFloat? whole).bind fun b =>
    let part (scale : Float) : Nat := ((x - whole) * scale).round.toUInt64.toNat
    if x.abs ≤ 20000000000 then ofMicroseconds? (b.whole * 1000000 + part 1000000)
    else ofMicroseconds? (b.whole * 1000 + part 1000)

/-- The moment of a count that a text holds: digits, or a decimal with a point. -/
def ofCountText? (t : Text) : Option Moment :=
  if t.contains '.' then (plainDecimal? t).bind ofFraction?
  else
    let (negative, digits) := takeSign t
    if digits.isEmpty || !digits.all CodePoint.isDigit then none
    else ofCount? (if negative then -(digitsValue digits : Int) else digitsValue digits)

/-- A moment written in a text: a date with or without a time, or a count. -/
def ofText? (t : Text) : Option Moment :=
  match takeDate? t with
  | some (date, []) => some date
  | some (date, c :: rest) => if c = 'T' || c = 't' || c = ' ' || c = '_' then date.withTime? rest else none
  | none => ofCountText? t

/-- The moment that a value stands for. -/
def ofJson? : Json → Option Moment
  | .text t => ofText? t
  | .int n => ofCount? n
  | .float x => ofFraction? x
  | _ => none

end Regraft.Moment
