import ImportFlattening.Toml.Number

/-! # Dates and times of TOML

A moment is a date, a time of day, or both, and in the last case perhaps an offset.
-/

namespace ImportFlattening.Toml

open Reader

def isLeapYear (year : Nat) : Bool := year % 4 = 0 && (year % 100 ≠ 0 || year % 400 = 0)

def daysInMonth (year month : Nat) : Nat :=
  if month = 2 then if isLeapYear year then 29 else 28
  else if month = 4 || month = 6 || month = 9 || month = 11 then 30
  else 31

/-- A number of exactly `count` digits, between `low` and `high`. -/
def fixedNumber (count low high : Nat) : Reader Nat := fun cs =>
  let ds := cs.take count
  let value := valueOf 10 ds
  if ds.length = count && ds.all Char.isDigit && low ≤ value && value ≤ high then
    some (value, cs.drop count)
  else none

def date : Reader Unit := do
  let year ← fixedNumber 4 0 9999
  exactly ['-']
  let month ← fixedNumber 2 1 12
  exactly ['-']
  discard (fixedNumber 2 1 (daysInMonth year month))

/-- A time of day. The sixtieth second is a leap second. -/
def time : Reader Unit := do
  discard (fixedNumber 2 0 23)
  exactly [':']
  discard (fixedNumber 2 0 59)
  exactly [':']
  discard (fixedNumber 2 0 60)
  discard (optional (exactly ['.'] *> char Char.isDigit *> chars Char.isDigit))

def offset : Reader Unit :=
  discard (char fun c => c = 'Z' || c = 'z') <|> do
    discard (char fun c => c = '+' || c = '-')
    discard (fixedNumber 2 0 23)
    exactly [':']
    discard (fixedNumber 2 0 59)

def dateTime : Reader Unit := do
  date
  discard <| optional do
    discard (char fun c => c = 'T' || c = 't' || c = ' ')
    time
    discard (optional offset)

/-- The date or time that comes next, as it is written. -/
def moment : Reader String := String.ofList <$> spanned (dateTime <|> time)

end ImportFlattening.Toml
