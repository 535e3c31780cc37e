import TermUnification.Toml.Number

/-! Points in time: dates, times of day, and both together with an optional offset. -/
namespace TermUnification.Toml

open Reader

/-- Two digits for a number in a range. -/
def twoDigits (low high : Nat) : Reader Nat := do
  let n := numeral 10 (← times Char.isDigit 2)
  if low ≤ n ∧ n ≤ high then return n else failure

def isLeapYear (year : Nat) : Bool :=
  decide (year % 4 = 0) && (decide (year % 100 ≠ 0) || decide (year % 400 = 0))

def daysInMonth (year month : Nat) : Nat :=
  if month = 2 then if isLeapYear year then 29 else 28
  else if month = 4 ∨ month = 6 ∨ month = 9 ∨ month = 11 then 30
  else 31

/-- A day of the calendar. -/
def date : Reader Unit := do
  let year := numeral 10 (← times Char.isDigit 4)
  char '-'
  let month ← twoDigits 1 12
  char '-'
  let _ ← twoDigits 1 (daysInMonth year month)

/-- A time of day. The second may be a leap second, and may have a fraction. -/
def timeOfDay : Reader Unit := do
  let _ ← twoDigits 0 23
  char ':'
  let _ ← twoDigits 0 59
  char ':'
  let _ ← twoDigits 0 60
  let _ ← maybe do
    char '.'
    let _ ← one Char.isDigit
    span Char.isDigit

/-- The distance from universal time. -/
def offset : Reader Unit :=
  (do let _ ← one fun c => c == 'Z' || c == 'z')
    <|> do
      let _ ← one fun c => c == '+' || c == '-'
      let _ ← twoDigits 0 23
      char ':'
      let _ ← twoDigits 0 59

/-- The time of day after a date, with its offset if there is one. -/
def timeAfterDate : Reader Unit := do
  let _ ← one fun c => c == 'T' || c == 't' || c == ' '
  timeOfDay
  let _ ← maybe offset

/-- A date, a time of day, or a date with one. -/
def dateTime : Reader Value := do
  (do
    date
    let _ ← maybe timeAfterDate) <|> timeOfDay
  return .dateTime

example : daysInMonth 1900 2 = 28 := by decide
example : daysInMonth 2000 2 = 29 := by decide

end TermUnification.Toml
