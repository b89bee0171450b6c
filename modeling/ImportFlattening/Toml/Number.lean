import ImportFlattening.Json.Literal
import ImportFlattening.Toml.Reader

/-! # Numbers of TOML

Integers must fit into 64 bits with a sign, and a float must not lie so far above zero that it has
no finite double.
-/

namespace ImportFlattening.Toml

open Reader

def isHexDigit (c : Char) : Bool := (Json.hexValue c).isSome

def isOctalDigit (c : Char) : Bool := '0' ≤ c && c ≤ '7'

def isBinaryDigit (c : Char) : Bool := c = '0' || c = '1'

/-- Digits with single underscores between them. The underscores are not part of the result. -/
def digits (p : Char → Bool) : Reader (List Char) := do
  let first ← char p
  let rest ← many (char p <|> (exactly ['_'] *> char p))
  return first :: rest

/-- Digits without a leading zero, or a single zero. -/
def wholeDigits : Reader (List Char) := do
  if ← ahead ['0'] then
    exactly ['0']
    return ['0']
  else digits Char.isDigit

/-- Whether a minus sign stands first. A plus sign is passed over. -/
def sign : Reader Bool :=
  (exactly ['-'] *> pure true) <|> (exactly ['+'] *> pure false) <|> pure false

def valueOf (base : Nat) (ds : List Char) : Nat :=
  ds.foldl (fun n d => n * base + (Json.hexValue d).getD 0) 0

/-- An integer after a mark for its base. -/
def markedInteger (mark : List Char) (base : Nat) (p : Char → Bool) : Reader Nat := do
  exactly mark
  return valueOf base (← digits p)

/-- An integer that fits into 64 bits with a sign. -/
def integer : Reader Int := do
  let value ←
    Int.ofNat <$> markedInteger ['0', 'x'] 16 isHexDigit <|>
    Int.ofNat <$> markedInteger ['0', 'o'] 8 isOctalDigit <|>
    Int.ofNat <$> markedInteger ['0', 'b'] 2 isBinaryDigit <|>
    (do
      let negative ← sign
      let value := Int.ofNat (valueOf 10 (← wholeDigits))
      return if negative then -value else value)
  if value < Int64.minValue.toInt || Int64.maxValue.toInt < value then failure
  return value

/-- Half a step above the greatest finite double; from here on a number rounds to infinity. -/
def overflowBound : Nat := Nat.pow 2 1024 - Nat.pow 2 970

/-- Whether `mantissa * 10 ^ exponent` has a finite double. The count of digits decides unless it is
close to that of the bound. -/
def isFinite (mantissa : Nat) (exponent : Int) : Bool :=
  let magnitude := Int.ofNat (Nat.toDigits 10 mantissa).length + exponent
  if mantissa = 0 || magnitude < 300 then true
  else if 320 < magnitude then false
  else if 0 ≤ exponent then mantissa * Nat.pow 10 exponent.toNat < overflowBound
  else mantissa < overflowBound * Nat.pow 10 (-exponent).toNat

def fraction : Reader (List Char) := exactly ['.'] *> digits Char.isDigit

def exponent : Reader Int := do
  discard (char fun c => c = 'e' || c = 'E')
  let negative ← sign
  let value := Int.ofNat (valueOf 10 (← digits Char.isDigit))
  return if negative then -value else value

/-- A number with a fraction, an exponent, or both. -/
def decimalFloat : Reader Unit := do
  let negative ← sign
  let whole ← wholeDigits
  let part ← optional fraction
  let power ← optional exponent
  if part.isNone && power.isNone then failure
  let places := part.getD []
  if !negative && !isFinite (valueOf 10 (whole ++ places)) (power.getD 0 - places.length) then
    failure

def specialFloat : Reader Unit := do
  discard sign
  exactly ['i', 'n', 'f'] <|> exactly ['n', 'a', 'n']

/-- The number that comes next, as it is written. -/
def number : Reader String :=
  String.ofList <$> spanned (decimalFloat <|> specialFloat <|> discard integer)

end ImportFlattening.Toml
