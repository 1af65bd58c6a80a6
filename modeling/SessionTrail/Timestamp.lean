import SessionTrail.Digits

/-!
# Points in time

A date of the Gregorian calendar, extended to all years from -262143 to 262142, and a time of that
day in coordinated universal time to the nanosecond. Any second may have a leap second behind it, in
which the nanoseconds of the second count on from 1000000000; it is written as a second of its own,
which is second 60 behind second 59, but behind any other second it looks like the one that follows.
A point in time is written with 0, 3, 6 or 9 digits of its second's fraction, the fewest that are exact,
and with a sign if its year has not four digits.
-/
namespace SessionTrail

def isLeapYear (year : Int) : Bool := year % 4 = 0 && (year % 100 != 0 || year % 400 = 0)

def daysInMonth (year : Int) (month : Nat) : Nat :=
  if month = 2 then if isLeapYear year then 29 else 28
  else if month = 4 ∨ month = 6 ∨ month = 9 ∨ month = 11 then 30
  else 31

structure Date where
  year : Int
  month : Nat
  day : Nat
  year_range : -262143 ≤ year ∧ year ≤ 262142
  month_range : 1 ≤ month ∧ month ≤ 12
  day_range : 1 ≤ day ∧ day ≤ daysInMonth year month
deriving DecidableEq, Repr

namespace Date

/-- The day with the given fields, if there is one. -/
def ofFields? (year : Int) (month day : Nat) : Option Date :=
  if h : (-262143 ≤ year ∧ year ≤ 262142) ∧ (1 ≤ month ∧ month ≤ 12) ∧
      (1 ≤ day ∧ day ≤ daysInMonth year month) then
    some ⟨year, month, day, h.1, h.2.1, h.2.2⟩
  else none

/-- The next day, if the calendar reaches it. -/
def next? (d : Date) : Option Date :=
  if d.day < daysInMonth d.year d.month then ofFields? d.year d.month (d.day + 1)
  else if d.month < 12 then ofFields? d.year (d.month + 1) 1
  else ofFields? (d.year + 1) 1 1

/-- The day before, if the calendar reaches it. -/
def previous? (d : Date) : Option Date :=
  if 1 < d.day then ofFields? d.year d.month (d.day - 1)
  else if 1 < d.month then ofFields? d.year (d.month - 1) (daysInMonth d.year (d.month - 1))
  else ofFields? (d.year - 1) 12 31

/-- The number of days from 1970-01-01. -/
def epochDays (d : Date) : Int :=
  let past := d.year - 1
  let months := (List.range (d.month - 1)).foldl (fun days m => days + daysInMonth d.year (m + 1)) 0
  365 * past + past / 4 - past / 100 + past / 400 + months + d.day - 719163

def chars (d : Date) : List Char :=
  let year :=
    if 0 ≤ d.year ∧ d.year ≤ 9999 then padded 4 d.year.toNat
    else (if d.year < 0 then '-' else '+') :: padded 4 d.year.natAbs
  year ++ '-' :: padded 2 d.month ++ '-' :: padded 2 d.day

end Date

structure Timestamp where
  date : Date
  hour : Nat
  minute : Nat
  second : Nat
  nano : Nat
  hour_lt : hour < 24
  minute_lt : minute < 60
  second_lt : second < 60
  nano_lt : nano < 2000000000
deriving DecidableEq, Repr

namespace Timestamp

def epoch : Timestamp :=
  ⟨⟨1970, 1, 1, by decide, by decide, by decide⟩, 0, 0, 0, 0, by decide, by decide, by decide, by decide⟩

instance : Inhabited Timestamp := ⟨epoch⟩

/-- A leap second, if the point in time lies in one, is the last second of its minute. -/
def IsRegular (t : Timestamp) : Prop := t.nano < 1000000000 ∨ t.second = 59

instance : DecidablePred IsRegular := fun t =>
  inferInstanceAs (Decidable (t.nano < 1000000000 ∨ t.second = 59))

/-- The point in time with the given fields, if there is one. -/
def ofFields? (date : Date) (hour minute second nano : Nat) : Option Timestamp :=
  if h : hour < 24 ∧ minute < 60 ∧ second < 60 ∧ nano < 2000000000 then
    some ⟨date, hour, minute, second, nano, h.1, h.2.1, h.2.2.1, h.2.2.2⟩
  else none

/-- The point in time that is written with the given fields, if there is one. Second 60 is the leap second
behind second 59. -/
def ofWritten? (date : Date) (hour minute second nano : Nat) : Option Timestamp :=
  if nano < 1000000000 then
    if second = 60 then ofFields? date hour minute 59 (nano + 1000000000)
    else ofFields? date hour minute second nano
  else none

/-- The point in time that is `minutes` earlier by the clock, less than a day. Seconds and their
fraction stay as they are. -/
def minusMinutes? (t : Timestamp) (minutes : Int) : Option Timestamp :=
  let clock : Int := t.hour * 60 + t.minute - minutes
  if clock < 0 then do
    let clock := (clock + 1440).toNat
    ofFields? (← t.date.previous?) (clock / 60) (clock % 60) t.second t.nano
  else if clock < 1440 then
    ofFields? t.date (clock.toNat / 60) (clock.toNat % 60) t.second t.nano
  else do
    let clock := (clock - 1440).toNat
    ofFields? (← t.date.next?) (clock / 60) (clock % 60) t.second t.nano

/-- The number of milliseconds from the start of 1970-01-01. -/
def epochMillis (t : Timestamp) : Int :=
  ((t.date.epochDays * 24 + t.hour) * 60 + t.minute) * 60000 + t.second * 1000 +
    (t.nano / 1000000 : Nat)

/-- The point and the digits of a fraction of a second. -/
def fractionChars (nano : Nat) : List Char :=
  if nano = 0 then []
  else if nano % 1000000 = 0 then '.' :: padded 3 (nano / 1000000)
  else if nano % 1000 = 0 then '.' :: padded 6 (nano / 1000)
  else '.' :: padded 9 nano

def text (t : Timestamp) : String :=
  String.ofList (t.date.chars ++ 'T' :: padded 2 t.hour ++ ':' :: padded 2 t.minute ++
    ':' :: padded 2 (t.second + t.nano / 1000000000) ++ fractionChars (t.nano % 1000000000) ++ ['Z'])

end Timestamp

end SessionTrail
