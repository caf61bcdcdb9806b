import OfflineTx.Text.Decimal

/-!
# Time stamps

Nanoseconds since 1970 are written as date and time of day in UTC with microseconds, as in
`2024-01-31T12:00:00.123456Z`. The date is that of the Gregorian calendar, extended to all years.
-/

namespace OfflineTx.Timestamp

structure Date where
  year : Int
  month : Int
  day : Int
deriving DecidableEq

/-- The date of the given day, counted from 1970-01-01. Years are counted from March, so that the
leap day is the last of its year, in eras of 400 years or 146097 days. -/
def Date.ofDays (days : Int) : Date :=
  let fromMarch := days + 719468
  let era := fromMarch / 146097
  let dayOfEra := fromMarch % 146097
  let yearOfEra :=
    (dayOfEra - dayOfEra / 1460 + dayOfEra / 36524 - dayOfEra / 146096) / 365
  let dayOfYear := dayOfEra - (365 * yearOfEra + yearOfEra / 4 - yearOfEra / 100)
  let monthFromMarch := (5 * dayOfYear + 2) / 153
  let day := dayOfYear - (153 * monthFromMarch + 2) / 5 + 1
  let month := if monthFromMarch < 10 then monthFromMarch + 3 else monthFromMarch - 9
  let year := yearOfEra + era * 400 + if month ≤ 2 then 1 else 0
  { year, month, day }

/-- The day of the given date, counted from 1970-01-01. -/
def Date.toDays (d : Date) : Int :=
  let year := if d.month ≤ 2 then d.year - 1 else d.year
  let era := year / 400
  let yearOfEra := year % 400
  let monthFromMarch := if d.month ≤ 2 then d.month + 9 else d.month - 3
  let dayOfYear := (153 * monthFromMarch + 2) / 5 + d.day - 1
  let dayOfEra := yearOfEra * 365 + yearOfEra / 4 - yearOfEra / 100 + dayOfYear
  era * 146097 + dayOfEra - 719468

/-- Seconds and the nanoseconds after them are split toward zero; the date and the time of day
are those of the seconds. -/
def render (nanos : Int) : Bytes :=
  let seconds := nanos.tdiv 1000000000
  let date := Date.ofDays (seconds / 86400)
  let timeOfDay := seconds % 86400
  Decimal.fixedWidth 4 date.year ++ ascii "-" ++
  Decimal.fixedWidth 2 date.month ++ ascii "-" ++
  Decimal.fixedWidth 2 date.day ++ ascii "T" ++
  Decimal.fixedWidth 2 (timeOfDay / 3600) ++ ascii ":" ++
  Decimal.fixedWidth 2 (timeOfDay % 3600 / 60) ++ ascii ":" ++
  Decimal.fixedWidth 2 (timeOfDay % 60) ++ ascii "." ++
  Decimal.fixedWidth 6 ((nanos.tmod 1000000000).tdiv 1000) ++ ascii "Z"

end OfflineTx.Timestamp
